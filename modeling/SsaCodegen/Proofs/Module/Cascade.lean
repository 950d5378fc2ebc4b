import Mathlib.Data.Finset.Card
import SsaCodegen.Proofs.Module.Bare

/-!
# Removing an instruction with its users

A removal that is to take the users along follows the use lists, and it cuts the very edges that it
walks on: a user that is removed loses its operands, so that nobody leads to it again. What it
removes is still what the use lists say at the start. The argument needs no set of visited
instructions. Those that have been removed are closed under users, and an edge between two others is
an edge of the module as it was.

The same fact bounds the walk. An instruction that is met again after its turn has no users left,
and one that is met before it has operands to lose.

## Main definitions

* `Module.UsedBy` — one value is an operand of another
* `Module.Removal` — some instructions have left their blocks, and some values have lost their
  operands
* `Module.Cascade` — what has been removed are the transitive users of some values

## Main results

* `Module.Removal.disconnectWithin` — a removal with users takes the transitive users along
* `Module.Removal.exists_disconnect` — and it always ends
* `Module.Removal.cascade` — what is gone when nothing was refused
-/

namespace SsaCodegen

namespace Module

variable {m m₁ m' : Module} {lists : BlockId → List ValueId} {inst u v : ValueId}
  {r : Except GraphError Unit} {gone gone' severed severed' us : List ValueId}

/-- A value is an operand of another. -/
def UsedBy (m : Module) (v u : ValueId) : Prop := v ∈ m.operandsOf u

/-- Some instructions have been taken out of their blocks and some values have lost their operands,
and nothing else has changed. -/
structure Removal (m : Module) (lists : BlockId → List ValueId) (gone severed : List ValueId)
    (m' : Module) : Prop where
  threads : Threads m' fun b => (lists b).filter (· ∉ gone)
  mirrored : Mirrored m'
  operands : ∀ v, m'.operandsOf v = if v ∈ severed then [] else m.operandsOf v
  bare : m'.bare = m.bare

/-- A value is an instruction. -/
def IsInst (m : Module) (v : ValueId) : Prop := ∃ k, m.kindOf v = some (.inst k)

theorem isInst_iff_asInst : m.IsInst v ↔ ((m.kindOf v).bind ValueKind.asInst).isSome = true := by
  rw [IsInst]
  rcases m.kindOf v with _ | k
  · simp
  · cases k <;> simp [ValueKind.asInst]

instance : Decidable (m.IsInst v) := decidable_of_iff' _ isInst_iff_asInst

theorem isSome_instKind {k : Option InstKind} (h : m.instKind v = .ok k) :
    k.isSome = true ↔ m.IsInst v := by
  obtain ⟨kind, hkind, rfl⟩ := kindOf_of_instKind h
  rw [isInst_iff_asInst, hkind, Option.bind_some]

/-- What has been removed are instructions among the transitive users of the roots. It is all of the
transitive users if nothing was refused, and what is refused is one of them that is no instruction.
-/
structure Cascade (m : Module) (roots : List ValueId) (r : Except GraphError Unit)
    (gone : List ValueId) : Prop where
  sound : ∀ {v}, v ∈ gone → m.IsInst v ∧ ∃ u ∈ roots, Relation.ReflTransGen m.UsedBy u v
  complete : r = .ok () → ∀ {u v}, u ∈ roots → Relation.ReflTransGen m.UsedBy u v → v ∈ gone
  refused : ∀ {e}, r = .error e → ∃ u ∈ roots, ∃ v, Relation.ReflTransGen m.UsedBy u v ∧
    ¬m.IsInst v ∧ e = .notAnInstruction v

theorem filter_notMem_append (l gone gone' : List ValueId) :
    l.filter (· ∉ gone ++ gone') = (l.filter (· ∉ gone)).filter (· ∉ gone') := by
  rw [List.filter_filter]
  refine List.filter_congr fun v _ => ?_
  rw [← Bool.decide_and, decide_eq_decide, List.mem_append, not_or, and_comm]

theorem Threads.filter_singleton (ht : Threads m lists) (b : BlockId) :
    (lists b).filter (· ∉ [inst]) = (lists b).erase inst := by
  rw [(ht.nodup b).erase_eq_filter]
  refine List.filter_congr fun v _ => ?_
  simp only [List.mem_singleton, bne, beq_eq_decide, decide_not]

namespace Removal

theorem refl (ht : Threads m lists) (hm : Mirrored m) : Removal m lists [] [] m := by
  refine ⟨?_, hm, fun v => rfl, rfl⟩
  simpa using ht

theorem trans (h : Removal m lists gone severed m₁)
    (h' : Removal m₁ (fun b => (lists b).filter (· ∉ gone)) gone' severed' m') :
    Removal m lists (gone ++ gone') (severed ++ severed') m' := by
  refine ⟨?_, h'.mirrored, fun v => ?_, h'.bare.trans h.bare⟩
  · simp only [filter_notMem_append]
    exact h'.threads
  · rw [h'.operands, h.operands]
    by_cases hv : v ∈ severed'
    · simp [hv]
    · simp [hv]

theorem usedBy_iff (h : Removal m lists gone severed m') :
    m'.UsedBy v u ↔ m.UsedBy v u ∧ u ∉ severed := by
  rw [UsedBy, UsedBy, h.operands]
  by_cases hu : u ∈ severed
  · simp [hu]
  · simp [hu]

theorem reaches (h : Removal m lists gone severed m')
    (hv : Relation.ReflTransGen m'.UsedBy u v) : Relation.ReflTransGen m.UsedBy u v :=
  Relation.ReflTransGen.mono (fun _ _ huse => (h.usedBy_iff.1 huse).1) u v hv

theorem isInst_iff (h : Removal m lists gone severed m') : m'.IsInst v ↔ m.IsInst v := by
  rw [IsInst, kindOf_of_bare h.bare, IsInst]

/-! ## One instruction -/

/-- An instruction leaves its block and, if asked, loses its operands. -/
theorem detach {operands : Bool} {m₂ : Module} (ht : Threads m lists) (hm : Mirrored m)
    (h₁ : m.unlink inst = .ok m₁)
    (h₂ : (if operands = true then m₁.severOperands inst else pure m₁) = .ok m₂) :
    Removal m lists [inst] (if operands then [inst] else []) m₂ := by
  have hunlink : Removal m lists [inst] [] m₁ := by
    refine ⟨?_, Step.mirrored (.unlink h₁) hm, fun v => ?_, bare_unlink h₁⟩
    · simp only [ht.filter_singleton]
      exact ht.unlink h₁
    · exact congrFun (valueField_unlink (fun _ _ => rfl) h₁) v
  cases operands with
  | false =>
    cases h₂
    exact hunlink
  | true =>
    have hsever : Removal m₁ (fun b => (lists b).filter (· ∉ [inst])) [] [inst] m₂ := by
      refine ⟨?_, hunlink.mirrored.severOperands h₂, fun v => ?_, bare_severOperands h₂⟩
      · simpa using (Still.severOperands h₂).threads hunlink.threads
      · rw [operandsOf_severOperands h₂]
        simp only [List.mem_singleton]
    exact hunlink.trans hsever

/-- What one turn of a removal does: it is refused, or the instruction leaves its block and its
users follow. -/
theorem cases_disconnectWithin {depth : Nat} {operands users : Bool} (ht : Threads m lists)
    (hm : Mirrored m) (h : disconnectWithin (depth + 1) m inst operands users = .ok (r, m')) :
    (m' = m ∧ ((¬m.IsInst inst ∧ r = .error (.notAnInstruction inst)) ∨
      (users = false ∧ m.usesOf inst ≠ [] ∧
        r = .error (.stillInUse inst (m.usesOf inst).length)))) ∨
      ∃ m₁, m.IsInst inst ∧ Removal m lists [inst] (if operands then [inst] else []) m₁ ∧
        ((users = false ∧ m.usesOf inst = [] ∧ r = .ok () ∧ m' = m₁) ∨
          users = true ∧ ∃ us, m₁.users inst = .ok us ∧
            m₁.editEach (fun m u => disconnectWithin depth m u true true) us = .ok (r, m')) := by
  obtain ⟨k, hk, h⟩ := bind_eq_ok.1 h
  have hkind := isSome_instKind hk
  split at h
  · rename_i hnone
    cases h
    exact .inl ⟨rfl, .inl ⟨fun hinst => Option.isSome_iff_ne_none.1 (hkind.2 hinst)
      (Option.isNone_iff_eq_none.1 hnone), rfl⟩⟩
  rename_i hsome
  have hinst : m.IsInst inst := hkind.1 (Option.isSome_iff_ne_none.2 fun hnone =>
    hsome (Option.isNone_iff_eq_none.2 hnone))
  obtain ⟨uses, huses, h⟩ := bind_eq_ok.1 h
  obtain rfl := usesOf_of_uses huses
  split at h
  · rename_i hused
    cases h
    have hused : users = false ∧ m.usesOf inst ≠ [] := by simpa using hused
    exact .inl ⟨rfl, .inr ⟨hused.1, hused.2, rfl⟩⟩
  rename_i hunused
  obtain ⟨m₁, h₁, h⟩ := bind_eq_ok.1 h
  obtain ⟨m₂, h₂, h⟩ : ∃ m₂, (if operands = true then m₁.severOperands inst else pure m₁) =
      .ok m₂ ∧ (if users = true then do
        m₂.editEach (fun m user => Module.disconnectWithin depth m user true true)
          (← m₂.users inst)
        else pure (.ok (), m₂)) = Except.ok (r, m') := by
    cases operands with
    | true => exact bind_eq_ok.1 h
    | false => exact bind_eq_ok.1 h
  refine .inr ⟨m₂, hinst, detach ht hm h₁ h₂, ?_⟩
  cases users with
  | false =>
    cases h
    exact .inl ⟨rfl, by simpa using hunused, rfl, rfl⟩
  | true =>
    obtain ⟨us, hus, h⟩ := bind_eq_ok.1 h
    exact .inr ⟨rfl, us, hus, h⟩

/-! ## Transitive users -/

/-- Removals from several roots in turn. What the first ones have removed is closed under users, so
that the later ones miss nothing by not finding it. -/
theorem editEach {edit : Module → ValueId → Except Fault (Edited Unit)}
    (hedit : ∀ {m m' : Module} {lists : BlockId → List ValueId} {u : ValueId}
      {r : Except GraphError Unit}, Threads m lists → Mirrored m → edit m u = .ok (r, m') →
      ∃ gone, Removal m lists gone gone m' ∧ m.Cascade [u] r gone)
    (ht : Threads m lists) (hm : Mirrored m) (h : m.editEach edit us = .ok (r, m')) :
    ∃ gone, Removal m lists gone gone m' ∧ m.Cascade us r gone := by
  induction us generalizing m lists with
  | nil =>
    cases h
    exact ⟨[], .refl ht hm, nofun, fun _ _ _ => nofun, nofun⟩
  | cons u rest ih =>
    obtain ⟨⟨r₁, m₁⟩, h₁, h⟩ := bind_eq_ok.1 h
    obtain ⟨gone₁, hrem₁, hcas₁⟩ := hedit ht hm h₁
    have hsound₁ {v : ValueId} (hv : v ∈ gone₁) : Relation.ReflTransGen m.UsedBy u v := by
      obtain ⟨-, w, hw, hreach⟩ := hcas₁.sound hv
      rwa [List.mem_singleton.1 hw] at hreach
    have hmem : u ∈ u :: rest := List.mem_cons_self
    cases r₁ with
    | error e =>
      cases h
      refine ⟨gone₁, hrem₁, fun hv => ⟨(hcas₁.sound hv).1, u, hmem, hsound₁ hv⟩, nofun,
        fun he => ?_⟩
      cases he
      obtain ⟨w, hw, hbad⟩ := hcas₁.refused rfl
      exact ⟨u, hmem, List.mem_singleton.1 hw ▸ hbad⟩
    | ok _ =>
      obtain ⟨gone₂, hrem₂, hcas₂⟩ := ih hrem₁.threads hrem₁.mirrored h
      have hcomplete₁ {v : ValueId} := hcas₁.complete rfl (v := v) (List.mem_singleton.2 rfl)
      refine ⟨gone₁ ++ gone₂, hrem₁.trans hrem₂, fun {v} hv => ?_, fun hok {w v} hw hreach => ?_,
        fun he => ?_⟩
      · rcases List.mem_append.1 hv with hv | hv
        · exact ⟨(hcas₁.sound hv).1, u, hmem, hsound₁ hv⟩
        · obtain ⟨hinst, w, hw, hreach⟩ := hcas₂.sound hv
          exact ⟨hrem₁.isInst_iff.1 hinst, w, List.mem_cons_of_mem _ hw, hrem₁.reaches hreach⟩
      · rw [List.mem_append]
        induction hreach with
        | refl =>
          rcases List.mem_cons.1 hw with rfl | hw
          · exact .inl (hcomplete₁ .refl)
          · exact .inr (hcas₂.complete hok hw .refl)
        | @tail x y _ huse ihreach =>
          by_cases hy : y ∈ gone₁
          · exact .inl hy
          -- the edge is still there after the first removal
          have huse₁ : m₁.UsedBy x y := hrem₁.usedBy_iff.2 ⟨huse, hy⟩
          rcases ihreach with hx | hx
          · exact .inl (hcomplete₁ ((hsound₁ hx).tail huse))
          · obtain ⟨-, w', hw', hreach'⟩ := hcas₂.sound hx
            exact .inr (hcas₂.complete hok hw' (hreach'.tail huse₁))
      · obtain ⟨w, hw, v, hreach, hv, heq⟩ := hcas₂.refused he
        exact ⟨w, List.mem_cons_of_mem _ hw, v, hrem₁.reaches hreach,
          fun hinst => hv (hrem₁.isInst_iff.2 hinst), heq⟩

/-- A removal with users takes the transitive users along: only them, and all of them if it is not
refused. The users lose their operands. -/
theorem disconnectWithin {depth : Nat} {operands : Bool} (ht : Threads m lists) (hm : Mirrored m)
    (h : disconnectWithin depth m inst operands true = .ok (r, m')) :
    ∃ gone severed, Removal m lists gone severed m' ∧ m.Cascade [inst] r gone ∧
      (operands = true → severed = gone) ∧ (m.IsInst inst → inst ∈ gone) := by
  induction depth generalizing m lists inst operands r m' with
  | zero => cases h
  | succ depth ih =>
    rcases cases_disconnectWithin ht hm h with
      ⟨rfl, ⟨hnot, rfl⟩ | ⟨hfalse, -⟩⟩ | ⟨m₁, hinst, hrem₁, ⟨hfalse, -⟩ | ⟨-, us, hus, h⟩⟩
    · refine ⟨[], [], .refl ht hm, ⟨nofun, nofun, fun he => ?_⟩, fun _ => rfl,
        fun hinst => absurd hinst hnot⟩
      cases he
      exact ⟨inst, List.mem_singleton.2 rfl, inst, .refl, hnot, rfl⟩
    · cases hfalse
    · cases hfalse
    obtain ⟨gone, hrem, hcas⟩ := editEach (fun ht hm h => by
      obtain ⟨gone, severed, hrem, hcas, heq, -⟩ := ih ht hm h
      rw [heq rfl] at hrem
      exact ⟨gone, hrem, hcas⟩) hrem₁.threads hrem₁.mirrored h
    -- what a user reaches afterwards, the instruction reached before
    have hhead {w v : ValueId} (hw : w ∈ us) (hreach : Relation.ReflTransGen m₁.UsedBy w v) :
        Relation.ReflTransGen m.UsedBy inst v := by
      have huse := (hrem₁.usedBy_iff.1 ((hrem₁.mirrored.mem_users hus).1 hw)).1
      exact .head huse (hrem₁.reaches hreach)
    have hroot : inst ∈ [inst] := List.mem_singleton.2 rfl
    refine ⟨_, _, hrem₁.trans hrem, ⟨fun {v} hv => ?_, fun hok {w v} hw hreach => ?_, fun he => ?_⟩,
      fun hop => by rw [hop]; rfl, fun _ => List.mem_append_left _ hroot⟩
    · rcases List.mem_append.1 hv with hv | hv
      · rw [List.mem_singleton.1 hv]
        exact ⟨hinst, inst, hroot, .refl⟩
      · obtain ⟨hv, w, hw, hreach⟩ := hcas.sound hv
        exact ⟨hrem₁.isInst_iff.1 hv, inst, hroot, hhead hw hreach⟩
    · obtain rfl := List.mem_singleton.1 hw
      rw [List.mem_append, List.mem_singleton]
      induction hreach with
      | refl => exact .inl rfl
      | @tail x y _ huse ihreach =>
        by_cases hy : y = w
        · exact .inl hy
        have huse₁ : m₁.UsedBy x y := by
          refine hrem₁.usedBy_iff.2 ⟨huse, ?_⟩
          split <;> simp [hy]
        rcases ihreach with rfl | hx
        · exact .inr (hcas.complete hok ((hrem₁.mirrored.mem_users hus).2 huse₁) .refl)
        · obtain ⟨-, w', hw', hreach'⟩ := hcas.sound hx
          exact .inr (hcas.complete hok hw' (hreach'.tail huse₁))
    · obtain ⟨w, hw, v, hreach, hv, heq⟩ := hcas.refused he
      exact ⟨inst, hroot, v, hhead hw hreach, fun hinst => hv (hrem₁.isInst_iff.2 hinst), heq⟩

/-- Removals with users from several roots. -/
theorem disconnectEach {depth : Nat} (ht : Threads m lists) (hm : Mirrored m)
    (h : m.editEach (fun m u => Module.disconnectWithin depth m u true true) us = .ok (r, m')) :
    ∃ gone, Removal m lists gone gone m' ∧ m.Cascade us r gone := by
  refine editEach (fun ht hm h => ?_) ht hm h
  obtain ⟨gone, severed, hrem, hcas, heq, -⟩ := disconnectWithin ht hm h
  rw [heq rfl] at hrem
  exact ⟨gone, hrem, hcas⟩

end Removal

/-! ## Removals end -/

theorem cascadeDepth_eq_succ (m : Module) : ∃ depth, m.cascadeDepth = depth + 1 :=
  Nat.exists_eq_succ_of_ne_zero (Nat.mul_ne_zero (Nat.succ_ne_zero _) (Nat.succ_ne_zero _))

/-- The number of values that have operands. -/
def userCount (m : Module) : Nat :=
  ((Finset.range m.values.size).filter fun i => m.operandsOf ⟨i⟩ ≠ []).card

theorem userCount_le_size (m : Module) : m.userCount ≤ m.values.size := by
  have hle := Finset.card_filter_le (Finset.range m.values.size) fun i => m.operandsOf ⟨i⟩ ≠ []
  rwa [Finset.card_range] at hle

/-- There is nothing to do for an instruction in no block. -/
theorem Threads.unlink_off (ht : Threads m lists) (hlt : inst.idx < m.values.size)
    (hoff : ∀ b, inst ∉ lists b) : m.unlink inst = .ok m := by
  have hx := Array.getElem?_eq_getElem hlt
  have hlink : (m.values[inst.idx]).link = {} := by
    rw [← ht.off hoff, linkOf, valueField_eq hx]
  refine bind_eq_ok.2 ⟨_, valueSlot_eq_ok.2 hx, ?_⟩
  rw [hlink]
  rfl

theorem Threads.exists_unlink_of_lt (ht : Threads m lists) (hlt : inst.idx < m.values.size) :
    ∃ m', m.unlink inst = .ok m' := by
  by_cases hoff : ∀ b, inst ∉ lists b
  · exact ⟨m, ht.unlink_off hlt hoff⟩
  · obtain ⟨b, hb⟩ := Classical.not_forall.1 hoff
    exact ht.exists_unlink (Classical.not_not.1 hb)

theorem disconnectWithin_refuse {depth : Nat} {operands users : Bool} {k : ValueKind}
    (hk : m.kindOf inst = some k) (hnone : k.asInst = none) :
    disconnectWithin (depth + 1) m inst operands users =
      .ok (.error (.notAnInstruction inst), m) := by
  refine bind_eq_ok.2 ⟨_, instKind_eq hk, ?_⟩
  rw [hnone]
  rfl

namespace Removal

theorem size (h : Removal m lists gone severed m') : m'.values.size = m.values.size :=
  size_of_bare h.bare

theorem operands_ne_nil (h : Removal m lists gone severed m') :
    m'.operandsOf v ≠ [] ↔ v ∉ severed ∧ m.operandsOf v ≠ [] := by
  rw [h.operands]
  by_cases hv : v ∈ severed
  · simp [hv]
  · simp [hv]

theorem userCount_le (h : Removal m lists gone severed m') : m'.userCount ≤ m.userCount := by
  rw [userCount, h.size]
  exact Finset.card_le_card (Finset.monotone_filter_right _ fun i _ hi => (h.operands_ne_nil.1 hi).2)

/-- A value that had operands and has lost them counts no longer. -/
theorem userCount_lt (h : Removal m lists gone severed m') (hv : v ∈ severed)
    (hops : m.operandsOf v ≠ []) : m'.userCount < m.userCount := by
  obtain ⟨o, ho⟩ := List.exists_mem_of_ne_nil _ hops
  have hmem : v.idx ∈ (Finset.range m.values.size).filter fun i => m.operandsOf ⟨i⟩ ≠ [] :=
    Finset.mem_filter.2 ⟨Finset.mem_range.2 (lt_of_mem_operandsOf ho), hops⟩
  rw [userCount, h.size]
  refine Finset.card_lt_card (Finset.ssubset_iff_of_subset ?_ |>.2 ⟨v.idx, hmem, fun hi => ?_⟩)
  · exact Finset.monotone_filter_right _ fun i _ hi => (h.operands_ne_nil.1 hi).2
  · exact (h.operands_ne_nil.1 (Finset.mem_filter.1 hi).2).1 hv

theorem exists_detach (ht : Threads m lists) (hm : Mirrored m) (hlt : inst.idx < m.values.size)
    (operands : Bool) : ∃ m₁ m₂, m.unlink inst = .ok m₁ ∧
      (if operands = true then m₁.severOperands inst else pure m₁) = .ok m₂ := by
  obtain ⟨m₁, h₁⟩ := ht.exists_unlink_of_lt hlt
  cases operands with
  | false => exact ⟨m₁, m₁, h₁, rfl⟩
  | true =>
    obtain ⟨m₂, h₂⟩ := (Step.mirrored (.unlink h₁) hm).exists_severOperands
      (by rw [size_of_bare (bare_unlink h₁)]; exact hlt)
    exact ⟨m₁, m₂, h₁, h₂⟩

/-- One turn of a removal with users ends, if the turns of the users do. -/
theorem exists_turn {depth : Nat} {operands : Bool} (ht : Threads m lists) (hm : Mirrored m)
    (hlt : inst.idx < m.values.size)
    (hrest : ∀ {m₁ us}, Removal m lists [inst] (if operands then [inst] else []) m₁ →
      (∀ u, u ∈ us ↔ m₁.UsedBy inst u) → ∃ r m',
        m₁.editEach (fun m u => Module.disconnectWithin depth m u true true) us = .ok (r, m')) :
    ∃ r m', Module.disconnectWithin (depth + 1) m inst operands true = .ok (r, m') := by
  obtain ⟨k, hk⟩ := exists_kindOf hlt
  cases hinst : k.asInst with
  | none => exact ⟨_, m, disconnectWithin_refuse hk hinst⟩
  | some kind =>
    obtain ⟨m₁, m₂, h₁, h₂⟩ := exists_detach ht hm hlt operands
    have hrem := detach ht hm h₁ h₂
    obtain ⟨us, hus⟩ := exists_users (m := m₂) (by rw [hrem.size]; exact hlt)
    obtain ⟨r, m', h⟩ := hrest hrem fun u => hrem.mirrored.mem_users hus
    refine ⟨r, m', bind_eq_ok.2 ⟨_, instKind_eq hk, ?_⟩⟩
    rw [hinst]
    refine bind_eq_ok.2 ⟨_, uses_eq hlt, bind_eq_ok.2 ⟨m₁, h₁, ?_⟩⟩
    cases operands with
    | false => exact bind_eq_ok.2 ⟨m₂, h₂, bind_eq_ok.2 ⟨us, hus, h⟩⟩
    | true => exact bind_eq_ok.2 ⟨m₂, h₂, bind_eq_ok.2 ⟨us, hus, h⟩⟩

/-- A removal without users ends. -/
theorem exists_alone {depth : Nat} {operands : Bool} (ht : Threads m lists) (hm : Mirrored m)
    (hlt : inst.idx < m.values.size) :
    ∃ r m', Module.disconnectWithin (depth + 1) m inst operands false = .ok (r, m') := by
  obtain ⟨k, hk⟩ := exists_kindOf hlt
  cases hinst : k.asInst with
  | none => exact ⟨_, m, disconnectWithin_refuse hk hinst⟩
  | some kind =>
    cases huses : m.usesOf inst with
    | cons u rest =>
      refine ⟨.error (.stillInUse inst (rest.length + 1)), m,
        bind_eq_ok.2 ⟨_, instKind_eq hk, ?_⟩⟩
      rw [hinst]
      refine bind_eq_ok.2 ⟨_, uses_eq hlt, ?_⟩
      rw [huses]
      rfl
    | nil =>
      obtain ⟨m₁, m₂, h₁, h₂⟩ := exists_detach ht hm hlt operands
      refine ⟨.ok (), m₂, bind_eq_ok.2 ⟨_, instKind_eq hk, ?_⟩⟩
      rw [hinst]
      refine bind_eq_ok.2 ⟨_, uses_eq hlt, ?_⟩
      rw [huses]
      refine bind_eq_ok.2 ⟨m₁, h₁, ?_⟩
      cases operands with
      | false => exact bind_eq_ok.2 ⟨m₂, h₂, rfl⟩
      | true => exact bind_eq_ok.2 ⟨m₂, h₂, rfl⟩

/-- Removals from several roots end, if each root has operands to lose or no users: a root that an
earlier removal has reached has no users left. -/
theorem exists_editEach {depth : Nat}
    (hedit : ∀ {m : Module} {lists : BlockId → List ValueId} {u : ValueId}, Threads m lists →
      Mirrored m → u.idx < m.values.size → (m.operandsOf u ≠ [] ∨ ∀ w, ¬m.UsedBy u w) →
      m.userCount < depth → ∃ r m', Module.disconnectWithin depth m u true true = .ok (r, m'))
    (ht : Threads m lists) (hm : Mirrored m)
    (hus : ∀ u ∈ us, u.idx < m.values.size ∧ (m.operandsOf u ≠ [] ∨ ∀ w, ¬m.UsedBy u w))
    (hdepth : m.userCount < depth) : ∃ r m',
      m.editEach (fun m u => Module.disconnectWithin depth m u true true) us = .ok (r, m') := by
  induction us generalizing m lists with
  | nil => exact ⟨.ok (), m, rfl⟩
  | cons u rest ih =>
    obtain ⟨⟨hlt, hu⟩, hrest⟩ := List.forall_mem_cons.1 hus
    obtain ⟨r₁, m₁, h₁⟩ := hedit ht hm hlt hu hdepth
    cases r₁ with
    | error e => exact ⟨.error e, m₁, bind_eq_ok.2 ⟨_, h₁, rfl⟩⟩
    | ok _ =>
      obtain ⟨gone, severed, hrem, hcas, heq, -⟩ := disconnectWithin ht hm h₁
      rw [heq rfl] at hrem
      have hrest₁ : ∀ w ∈ rest, w.idx < m₁.values.size ∧
          (m₁.operandsOf w ≠ [] ∨ ∀ x, ¬m₁.UsedBy w x) := by
        intro w hw
        obtain ⟨hltw, hw⟩ := hrest w hw
        refine ⟨by rw [hrem.size]; exact hltw, ?_⟩
        by_cases hgone : w ∈ gone
        · refine .inr fun x hx => ?_
          obtain ⟨huse, hkept⟩ := hrem.usedBy_iff.1 hx
          obtain ⟨-, root, hroot, hreach⟩ := hcas.sound hgone
          exact hkept (hcas.complete rfl hroot (hreach.tail huse))
        · rw [hrem.operands, if_neg hgone]
          exact hw.imp id fun hnone x hx => hnone x (hrem.usedBy_iff.1 hx).1
      obtain ⟨r, m', h⟩ := ih hrem.threads hrem.mirrored hrest₁
        (Nat.lt_of_le_of_lt hrem.userCount_le hdepth)
      exact ⟨r, m', bind_eq_ok.2 ⟨_, h₁, h⟩⟩

theorem exists_disconnectWithin {depth : Nat} (ht : Threads m lists) (hm : Mirrored m)
    (hlt : inst.idx < m.values.size) (hinst : m.operandsOf inst ≠ [] ∨ ∀ w, ¬m.UsedBy inst w)
    (hdepth : m.userCount < depth) :
    ∃ r m', Module.disconnectWithin depth m inst true true = .ok (r, m') := by
  induction depth generalizing m lists inst with
  | zero => cases hdepth
  | succ depth ih =>
    refine exists_turn ht hm hlt fun {m₁ us} hrem hus => ?_
    rcases hinst with hops | hnone
    · refine exists_editEach ih hrem.threads hrem.mirrored (fun u hu => ?_) ?_
      · have hmem := (hus u).1 hu
        exact ⟨lt_of_mem_operandsOf hmem, .inl (List.ne_nil_of_mem hmem)⟩
      · have hlt := hrem.userCount_lt (v := inst) (by simp) hops
        omega
    · have hnil : us = [] := by
        refine List.eq_nil_iff_forall_not_mem.2 fun u hu => hnone u ?_
        exact (hrem.usedBy_iff.1 ((hus u).1 hu)).1
      rw [hnil]
      exact ⟨.ok (), m₁, rfl⟩

/-- A removal ends. -/
theorem exists_disconnect (ht : Threads m lists) (hm : Mirrored m)
    (hlt : inst.idx < m.values.size) (operands users : Bool) :
    ∃ r m', m.disconnect inst operands users = .ok (r, m') := by
  obtain ⟨depth, hdepth⟩ := m.cascadeDepth_eq_succ
  rw [disconnect, hdepth]
  cases users with
  | false => exact exists_alone ht hm hlt
  | true =>
    refine exists_turn ht hm hlt fun {m₁ us} hrem hus => ?_
    cases us with
    | nil => exact ⟨.ok (), m₁, rfl⟩
    | cons u rest =>
      -- someone uses the instruction, so there is a use entry
      have huse : m.UsedBy inst u := (hrem.usedBy_iff.1 ((hus u).1 List.mem_cons_self)).1
      obtain ⟨us', hus'⟩ := exists_users hlt
      have hcount : 1 ≤ m.useCount :=
        (List.length_pos_of_mem ((hm.mem_users hus').2 huse)).trans_le (length_users_le hus')
      refine exists_editEach exists_disconnectWithin hrem.threads hrem.mirrored (fun w hw => ?_) ?_
      · have hmem := (hus w).1 hw
        exact ⟨lt_of_mem_operandsOf hmem, .inl (List.ne_nil_of_mem hmem)⟩
      · have hle := hrem.userCount_le.trans m.userCount_le_size
        have hmul : 2 * (m.values.size + 1) ≤ m.cascadeDepth :=
          Nat.mul_le_mul_right _ (Nat.succ_le_succ hcount)
        omega

/-! ## Exactly what goes -/

/-- A removal without users takes off an instruction that has none. -/
theorem alone {operands : Bool} (ht : Threads m lists) (hm : Mirrored m) (hinst : m.IsInst inst)
    (huses : m.usesOf inst = []) (h : m.disconnect inst operands false = .ok (r, m')) :
    r = .ok () ∧ Removal m lists [inst] (if operands then [inst] else []) m' := by
  obtain ⟨depth, hdepth⟩ := m.cascadeDepth_eq_succ
  rw [disconnect, hdepth] at h
  rcases cases_disconnectWithin ht hm h with
    ⟨-, ⟨hnot, -⟩ | ⟨-, hused, -⟩⟩ | ⟨m₁, -, hrem, ⟨-, -, rfl, rfl⟩ | ⟨htrue, -⟩⟩
  · exact absurd hinst hnot
  · exact absurd huses hused
  · exact ⟨rfl, hrem⟩
  · cases htrue

/-- A removal with users that is not refused takes off the instruction and its transitive users, and
drops the operands of the transitive users, and of the instruction if asked to. An instruction that
is its own transitive user loses them in any case. -/
theorem cascade {operands : Bool} (ht : Threads m lists) (hm : Mirrored m)
    (h : m.disconnect inst operands true = .ok (.ok (), m')) :
    ∃ gone severed, Removal m lists gone severed m' ∧
      (∀ v, v ∈ gone ↔ Relation.ReflTransGen m.UsedBy inst v) ∧
      ∀ v, v ∈ severed ↔ (operands = true ∧ v = inst) ∨ Relation.TransGen m.UsedBy inst v := by
  obtain ⟨depth, hdepth⟩ := m.cascadeDepth_eq_succ
  rw [disconnect, hdepth] at h
  rcases cases_disconnectWithin ht hm h with
    ⟨-, ⟨-, he⟩ | ⟨-, -, he⟩⟩ | ⟨m₁, -, hrem₁, ⟨hfalse, -⟩ | ⟨-, us, hus, h⟩⟩
  · cases he
  · cases he
  · cases hfalse
  obtain ⟨gone, hrem, hcas⟩ := disconnectEach hrem₁.threads hrem₁.mirrored h
  have husers {u : ValueId} : u ∈ us ↔ m₁.UsedBy inst u := hrem₁.mirrored.mem_users hus
  have hself {v : ValueId} :
      v ∈ (if operands then [inst] else []) ↔ operands = true ∧ v = inst := by
    cases operands <;> simp
  have hsound {v : ValueId} (hv : v ∈ gone) : Relation.TransGen m.UsedBy inst v := by
    obtain ⟨-, u, hu, hreach⟩ := hcas.sound hv
    exact .head' (hrem₁.usedBy_iff.1 (husers.1 hu)).1 (hrem₁.reaches hreach)
  -- an edge that the first turn did not cut is walked on by one of the later turns
  have hstep {x v : ValueId} (hx : x = inst ∨ x ∈ gone) (huse : m.UsedBy x v) :
      (operands = true ∧ v = inst) ∨ v ∈ gone := by
    by_cases hv : v ∈ (if operands then [inst] else [])
    · exact .inl (hself.1 hv)
    have huse₁ : m₁.UsedBy x v := hrem₁.usedBy_iff.2 ⟨huse, hv⟩
    rcases hx with rfl | hx
    · exact .inr (hcas.complete rfl (husers.2 huse₁) .refl)
    · obtain ⟨-, u, hu, hreach⟩ := hcas.sound hx
      exact .inr (hcas.complete rfl hu (hreach.tail huse₁))
  have hcomplete {v : ValueId} (hv : Relation.TransGen m.UsedBy inst v) :
      (operands = true ∧ v = inst) ∨ v ∈ gone := by
    induction hv with
    | single huse => exact hstep (.inl rfl) huse
    | tail _ huse ih => exact hstep (ih.imp And.right id) huse
  refine ⟨_, _, hrem₁.trans hrem, fun v => ?_, fun v => ?_⟩
  · rw [List.mem_append, List.mem_singleton, Relation.reflTransGen_iff_eq_or_transGen]
    exact ⟨Or.imp id hsound, fun hv => hv.elim .inl fun hv => (hcomplete hv).imp And.right id⟩
  · rw [List.mem_append, hself]
    exact ⟨Or.imp id hsound, fun hv => hv.elim .inl hcomplete⟩

end Removal

/-! ## The order of the uses -/

theorem usesOf_sublist_removeUsesFrom {operands : List ValueId} {index : Nat}
    (h : m.removeUsesFrom u index operands = .ok m') (w : ValueId) :
    (m'.usesOf w).Sublist (m.usesOf w) := by
  induction operands generalizing m index with
  | nil =>
    cases h
    exact .refl _
  | cons v rest ih =>
    obtain ⟨m₁, h₁, h⟩ := bind_eq_ok.1 h
    refine (ih h).trans ?_
    rw [(usesOf_removeUse h₁).2]
    split
    · exact List.erase_sublist
    · exact .refl _

/-- A removal only takes entries off use lists. -/
theorem usesOf_sublist_disconnect {operands users : Bool}
    (h : m.disconnect inst operands users = .ok (r, m')) (w : ValueId) :
    (m'.usesOf w).Sublist (m.usesOf w) := by
  refine disconnectWithin_chain (R := fun m m' => (m'.usesOf w).Sublist (m.usesOf w))
    (fun _ => .refl _) (fun h h' => h'.trans h) (fun {m m' v} h => ?_) (fun {m m' v} h => ?_) h
  · rw [usesOf, valueField_unlink (fun _ _ => rfl) h]
  · obtain ⟨x, hx, h⟩ := bind_eq_ok.1 h
    rw [← usesOf_setOperands (valueSlot_eq_ok.1 hx) []]
    exact usesOf_sublist_removeUsesFrom h w

/-- The use lists after a removal: the uses by values that have lost their operands are gone, and
the others are in the same order. -/
theorem Removal.usesOf_eq (h : Removal m lists gone severed m') (hm : Mirrored m)
    (hsub : ∀ w, (m'.usesOf w).Sublist (m.usesOf w)) (w : ValueId) :
    m'.usesOf w = (m.usesOf w).filter (·.user ∉ severed) := by
  have hmem (use : Use) : use ∈ m'.usesOf w ↔ use ∈ m.usesOf w ∧ use.user ∉ severed := by
    rw [h.mirrored.mem, hm.mem, h.operands]
    by_cases huser : use.user ∈ severed
    · simp [huser]
    · simp [huser]
  have hkept : (m'.usesOf w).filter (·.user ∉ severed) = m'.usesOf w :=
    List.filter_eq_self.2 fun use huse => decide_eq_true ((hmem use).1 huse).2
  have hle := (hsub w).filter (·.user ∉ severed)
  rw [hkept] at hle
  refine hle.eq_of_length (List.Perm.length_eq ?_)
  refine (List.perm_ext_iff_of_nodup (h.mirrored.nodup w) ((hm.nodup w).filter _)).2 fun use => ?_
  rw [hmem, List.mem_filter, decide_eq_true_iff]

end Module

end SsaCodegen
