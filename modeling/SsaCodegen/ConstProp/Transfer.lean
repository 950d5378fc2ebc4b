import SsaCodegen.Module.Basic

/-!
# What an instruction's operands tell about it

`Module.transfer` works out what is known of an instruction from what is known of its operands
and, for a phi, from which of its incoming blocks have been found reachable. `Module.propagate`
stores it, and only ever moves down.

## Main definitions

* `Module.transfer` — what the operands tell
* `Module.propagate` — record it, and whether anything changed
-/

namespace SsaCodegen.Module

/-- The meet of what is known of the incoming values of a phi whose blocks are reachable. -/
def transferPhi (m : Module) (phi : ValueId) (acc : Constness) :
    List ValueId → Except Fault Constness
  | [] => return acc
  | [_] => throw (.oddPhi phi)
  | value :: label :: rest => do
    match (← m.kind label).asBlock with
    | none => throw (.phiIncomingNotBlock phi)
    | some pred =>
      if (← m.block pred).reachable then m.transferPhi phi (acc.meet (← m.known value)) rest
      else m.transferPhi phi acc rest

/-- What is known of a two-operand instruction. -/
def transferPair (m : Module) (inst : ValueId) (eval : Int64 → Int64 → Option Int64) :
    Except Fault Constness := do
  let l ← m.known (← m.operand inst 0)
  let r ← m.known (← m.operand inst 1)
  return Constness.combine eval l r

/-- What the operands of an instruction tell about it. Of a value that is no instruction it is
what is known already. -/
def transfer (m : Module) (inst : ValueId) : Except Fault Constness := do
  let x ← m.value inst
  match x.kind.asInst with
  | none => return x.known
  | some .phi => m.transferPhi inst .top x.operands
  | some .sext | some .cast => m.known (← m.operand inst 0)
  | some (.binary op) => m.transferPair inst op.eval
  | some (.compare op) => m.transferPair inst fun a b => some (if op.eval a b then 1 else 0)
  | some .load | some (.call _) | some (.alloca _) | some (.gep _)
  | some .br | some .ret | some .store => return .varying

/-- Record what the operands of an instruction tell about it, on top of what was known, and say
whether that changed anything. -/
def propagate (m : Module) (inst : ValueId) : Except Fault (Bool × Module) := do
  let x ← m.value inst
  let known := x.known.meet (← m.transfer inst)
  if known = x.known then return (false, m)
  else return (true, m.setValue inst { x with known })

theorem propagate_cases {m m' : Module} {inst : ValueId} {changed : Bool}
    (h : m.propagate inst = .ok (changed, m')) :
    ∃ x t, m.values[inst.idx]? = some x ∧ m.transfer inst = .ok t ∧
      (x.known.meet t = x.known ∧ changed = false ∧ m' = m ∨
        x.known.meet t ≠ x.known ∧ changed = true ∧
          m' = m.setValue inst { x with known := x.known.meet t }) := by
  obtain ⟨x, hx, h⟩ := bind_eq_ok.1 h
  obtain ⟨t, ht, h⟩ := bind_eq_ok.1 h
  refine ⟨x, t, lookupOr_eq_ok.1 hx, ht, ?_⟩
  by_cases hsame : x.known.meet t = x.known
  · rw [if_pos hsame] at h
    cases h
    exact .inl ⟨hsame, rfl, rfl⟩
  · rw [if_neg hsame] at h
    cases h
    exact .inr ⟨hsame, rfl, rfl⟩

end SsaCodegen.Module
