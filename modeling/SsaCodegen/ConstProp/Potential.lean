import SsaCodegen.ConstProp.Transfer

/-!
# How much is left to find out

Constant propagation only lowers what is known of a value and only ever marks blocks reachable. The
*potential* of a module is the number of such changes that are left: it bounds every run.

## Main results

* `Module.potential_propagate` — propagation never raises the potential, and lowers it when it
  changes anything
* `Module.counts_propagate` — propagation keeps the number of values and of uses
* `Module.potential_reach` — marking a block reachable lowers the potential, and keeps all values
-/

namespace SsaCodegen

/-- Dropping repeated items does not lengthen a list. -/
theorem length_eraseDups_le [BEq α] (l : List α) : l.eraseDups.length ≤ l.length := by
  match l with
  | [] => simp
  | a :: as =>
    have := length_eraseDups_le (as.filter fun b => !b == a)
    have := as.length_filter_le fun b => !b == a
    simp only [List.eraseDups_cons, List.length_cons]
    omega
termination_by l.length
decreasing_by exact Nat.lt_succ_of_le (List.length_filter_le _ _)

namespace Module

/-- The changes that constant propagation can still make: each value can come down as often as
its height says, and each block can become reachable once. -/
def potential (m : Module) : Nat :=
  total (fun x => x.known.height) m.values.toList +
    total (fun b => if b.reachable then 0 else 1) m.blocks.toList

theorem potential_setValue {m : Module} {v : ValueId} {x y : Value}
    (h : m.values[v.idx]? = some x) :
    (m.setValue v y).potential + x.known.height = m.potential + y.known.height := by
  have := total_set (fun x : Value => x.known.height) (b := y)
    (show m.values.toList[v.idx]? = some x by simpa using h)
  simp only [potential, setValue, Array.toList_setIfInBounds]
  omega

theorem useCount_setValue {m : Module} {v : ValueId} {x y : Value}
    (h : m.values[v.idx]? = some x) :
    (m.setValue v y).useCount + x.uses.length = m.useCount + y.uses.length := by
  have := total_set (fun x : Value => x.uses.length) (b := y)
    (show m.values.toList[v.idx]? = some x by simpa using h)
  simpa only [useCount, setValue, Array.toList_setIfInBounds] using this

/-- A value has no more users than the module has uses. -/
theorem length_users_le {m : Module} {v : ValueId} {us : List ValueId}
    (h : m.users v = .ok us) : us.length ≤ m.useCount := by
  obtain ⟨uses, hu, h⟩ := bind_eq_ok.1 h
  obtain ⟨x, hx, hu⟩ := bind_eq_ok.1 hu
  cases hu
  cases h
  have := le_total (fun x : Value => x.uses.length)
    (show m.values.toList[v.idx]? = some x by simpa using lookupOr_eq_ok.1 hx)
  exact Nat.le_trans (length_eraseDups_le _) (by simpa [useCount] using this)

/-- Propagation keeps the number of values and of uses. -/
theorem counts_propagate {m m' : Module} {inst : ValueId} {changed : Bool}
    (h : m.propagate inst = .ok (changed, m')) :
    m'.values.size = m.values.size ∧ m'.useCount = m.useCount := by
  obtain ⟨x, t, hx, -, ⟨-, -, rfl⟩ | ⟨-, -, rfl⟩⟩ := propagate_cases h
  · exact ⟨rfl, rfl⟩
  · have := useCount_setValue (y := { x with known := x.known.meet t }) hx
    exact ⟨by simp [setValue], Nat.add_right_cancel this⟩

theorem potential_propagate {m m' : Module} {inst : ValueId} {changed : Bool}
    (h : m.propagate inst = .ok (changed, m')) :
    m'.potential ≤ m.potential ∧ (changed = true → m'.potential < m.potential) := by
  obtain ⟨x, t, hx, -, ⟨-, rfl, rfl⟩ | ⟨hne, rfl, rfl⟩⟩ := propagate_cases h
  · exact ⟨Nat.le_refl _, nofun⟩
  · have hset := potential_setValue (y := { x with known := x.known.meet t }) hx
    have hlt := Constness.height_meet_lt hne
    dsimp only at hset hlt
    omega

theorem potential_reach {m m' : Module} {b : BlockId} {x : Block}
    (hx : m.blocks[b.idx]? = some x) (hr : x.reachable = false)
    (h : m.setReachable b true = .ok m') : m'.potential < m.potential ∧ m'.values = m.values := by
  obtain ⟨y, hy, h⟩ := bind_eq_ok.1 h
  rw [blockSlot, lookupOr_eq_ok, hx] at hy
  cases hy
  cases h
  have := total_set (fun b : Block => if b.reachable then 0 else 1)
    (b := { x with reachable := true }) (show m.blocks.toList[b.idx]? = some x by simpa using hx)
  simp only [hr, Bool.false_eq_true, ↓reduceIte] at this
  refine ⟨?_, rfl⟩
  simp only [potential, setBlock, Array.toList_setIfInBounds]
  omega

end Module

end SsaCodegen
