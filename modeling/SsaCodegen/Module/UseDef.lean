import SsaCodegen.Module.Basic

/-!
# Operands and uses

Every operand has an entry in the use list of the value it refers to. The operations here change
an operand and its entry together.

## Main definitions

* `Module.addOperand` — a further operand
* `Module.removeUse` — take an entry off a use list
* `Module.severOperands` — drop all operands of a value
* `Module.createInst` — a new instruction with its operands, outside every block
-/

namespace SsaCodegen.Module

/-- Append an operand to a value and record the use. -/
def addOperand (m : Module) (user value : ValueId) : Except Fault Module := do
  let index := (← m.valueSlot user).operands.length
  let m ← m.modifyValue user fun x => { x with operands := x.operands ++ [value] }
  m.modifyValue value fun x => { x with uses := x.uses ++ [⟨user, index⟩] }

/-- Take the first entry equal to `use` off the use list of a value, which must have one. -/
def removeUse (m : Module) (value : ValueId) (use : Use) : Except Fault Module := do
  let x ← m.valueSlot value
  if x.uses.contains use then return m.setValue value { x with uses := x.uses.erase use }
  else throw (.missingUse value use)

/-- Take the uses by `user` off the values in a list, where the head is the operand at position
`index`. -/
def removeUsesFrom (m : Module) (user : ValueId) (index : Nat) :
    List ValueId → Except Fault Module
  | [] => return m
  | v :: rest => do (← m.removeUse v ⟨user, index⟩).removeUsesFrom user (index + 1) rest

/-- Drop all operands of a value and their entries. -/
def severOperands (m : Module) (user : ValueId) : Except Fault Module := do
  let x ← m.valueSlot user
  (m.setValue user { x with operands := [] }).removeUsesFrom user 0 x.operands

/-- A new instruction with the given operands, outside every block. -/
def createInst (m : Module) (kind : InstKind) (ty : Ty) (operands : List ValueId)
    (name : Option String) : Except Fault (ValueId × Module) := do
  let inst := m.nextValue
  let m := m.addValue ty name (.inst kind)
  return (inst, ← operands.foldlM (fun m v => m.addOperand inst v) m)

end SsaCodegen.Module
