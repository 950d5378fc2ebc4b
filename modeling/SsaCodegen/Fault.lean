import SsaCodegen.Id

/-!
# Faults

A *fault* is a broken contract: an id that names nothing, an operand list of the wrong shape, a
byte count that does not fit. It stops the computation that meets it, and nothing the computation
did is kept. It is apart from the errors with which an operation refuses a request (`GraphError`,
`VerifyError`, `SelectError`), which leave a module to go on with.

Most faults carry a text. Those that come before `unknownType` below carry none.
-/

namespace SsaCodegen

/-- The contract whose breach stopped a computation. -/
inductive Fault where
  /-- A position past the end of a table, or a key that a map lacks. -/
  | outOfRange
  /-- A byte count that does not fit 32 bits. -/
  | overflow
  /-- A walk that does not come to an end: a cyclic instruction list or a cascade that feeds
  itself. -/
  | endless
  /-- All uses of a value were redirected, and some are left: its use list names a use twice, or
  one that is none. -/
  | usesLeft (value : ValueId)
  /-- A stack argument outside the part of the frame that is kept for them. -/
  | argumentOutsideFrame (index : Nat)
  | unknownType (ty : TypeId)
  | unknownValue (value : ValueId)
  | unknownBlock (block : BlockId)
  | unknownFunc (func : FuncId)
  | missingUse (value : ValueId) (use : Use)
  | notUnlinked (inst : ValueId)
  | insertBeforeUnlinked (anchor : ValueId)
  | loadFromNonPointer (ptr : ValueId)
  | fieldOfNonClass (ty : TypeId)
  | oddPhi (phi : ValueId)
  | phiIncomingNotBlock (phi : ValueId)
  | malformedBranch (inst : ValueId)
  | targetNotBlock (target : ValueId)
  | notInstruction (value : ValueId)
  | listedNonInstruction (value : ValueId)
  /-- The control-flow graph of a function was asked about a block that is not its own. -/
  | foreignBlock (block : BlockId)
  | noDominatorYet (node : Nat)
  | selectingNonInstruction (value : ValueId)
  | selectingOddPhi (phi : ValueId)
  | selectingPhiIncomingNotBlock (phi : ValueId)
  | selectingMalformedBranch (inst : ValueId)
  | selectingBranchToNonBlock (inst : ValueId)
  | slotlessAlloca (inst : ValueId)
  | unknownGlobal (global : GlobalId)
deriving DecidableEq

/-- The text of a fault, for those that have one. -/
def Fault.message : Fault → Option String
  | outOfRange | overflow | endless | usesLeft _ | argumentOutsideFrame _ => none
  | unknownType t => s!"ir: unknown type {t}"
  | unknownValue v => s!"ir: unknown value {v}"
  | unknownBlock b => s!"ir: unknown block {b}"
  | unknownFunc f => s!"ir: unknown function {f}"
  | missingUse v u => s!"ir: {v} missing use {u}"
  | notUnlinked v => s!"ir: {v} is not an unlinked instruction"
  | insertBeforeUnlinked v => s!"ir: insert before unlinked {v}"
  | loadFromNonPointer v => s!"ir: load from non-pointer {v}"
  | fieldOfNonClass t => s!"ir: field access on non-class {t}"
  | oddPhi v => s!"ir: phi {v} has an odd operand count"
  | phiIncomingNotBlock v => s!"ir: phi {v} incoming is not a block"
  | malformedBranch v => s!"ir: malformed branch {v}"
  | targetNotBlock v => s!"ir: branch target {v} is not a block"
  | notInstruction v => s!"ir: {v} is not an instruction"
  | listedNonInstruction v => s!"ir: non-instruction {v} on block list"
  | foreignBlock b => s!"cfg missing block {b}"
  | noDominatorYet n => s!"cfg: block {n} has no dominator yet"
  | selectingNonInstruction v => s!"backend codegen: {v} is not an instruction"
  | selectingOddPhi v => s!"backend codegen: phi {v} has an odd operand count"
  | selectingPhiIncomingNotBlock v => s!"backend codegen: phi {v} incoming is not a block"
  | selectingMalformedBranch v => s!"backend codegen: malformed branch {v}"
  | selectingBranchToNonBlock v => s!"backend codegen: branch {v} to non-block"
  | slotlessAlloca v => s!"backend codegen: alloca {v} has no frame slot"
  | unknownGlobal g => s!"backend codegen: unknown global {g}"

/-- The value at a position of a table, or a fault when the position is past its end. -/
def lookupOr (fault : Fault) (x : Option α) : Except Fault α :=
  match x with
  | some a => .ok a
  | none => .error fault

theorem lookupOr_eq_ok {fault : Fault} {x : Option α} {a : α} :
    lookupOr fault x = .ok a ↔ x = some a := by
  cases x <;> simp [lookupOr]

/-- A computation that ends without a fault is made of parts that do. -/
theorem bind_eq_ok {x : Except Fault α} {f : α → Except Fault β} {b : β} :
    (x >>= f) = .ok b ↔ ∃ a, x = .ok a ∧ f a = .ok b := by
  cases x <;> simp [bind, Except.bind]

/-- A computation that is seen to end with a property ends with it. -/
theorem exists_eq_ok {x : Except Fault α} {p : α → Prop} [DecidablePred p]
    (h : x.toOption.any (fun a => p a) = true) : ∃ a, x = .ok a ∧ p a := by
  cases x with
  | error e => cases h
  | ok a => exact ⟨a, rfl, of_decide_eq_true h⟩

end SsaCodegen
