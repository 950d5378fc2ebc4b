import SsaCodegen.Module.Chain
import SsaCodegen.Module.UseDef

/-!
# Edits of the use-def graph

Redirecting operands and removing instructions. An edit can be *refused* with a `GraphError`; the
module that comes back then holds whatever was changed before the refusal.

## Main definitions

* `Module.replaceOperand` — let one operand refer to another value
* `Module.disconnect` — remove an instruction, with its users if asked to
* `Module.replaceAllUses` — let every use of a value refer to another
-/

namespace SsaCodegen

/-- Why an edit is refused. -/
inductive GraphError where
  | selfReplacement (value : ValueId)
  | stillInUse (value : ValueId) (uses : Nat)
  | notAnInstruction (value : ValueId)
  | operandOutOfRange (user : ValueId) (index len : Nat)
deriving DecidableEq

/-- The text of a refusal. -/
def GraphError.message : GraphError → String
  | selfReplacement v => s!"cannot replace {v} with itself"
  | stillInUse v n => s!"{v} still has {n} use(s)"
  | notAnInstruction v => s!"{v} is not an instruction"
  | operandOutOfRange user index len =>
    s!"operand {index} out of range for {user} ({len} operands)"

/-- What an edit leaves: the module, and its result or why it was refused. -/
abbrev Edited (α : Type) := Except GraphError α × Module

namespace Module

/-- Edits for the items of a list in turn, up to the first that is refused. Their results are
gathered from the left. -/
def editFold (edit : Module → α → Except Fault (Edited β)) (gather : γ → β → γ) (acc : γ)
    (m : Module) : List α → Except Fault (Edited γ)
  | [] => return (.ok acc, m)
  | a :: rest => do
    match ← edit m a with
    | (.error e, m) => return (.error e, m)
    | (.ok b, m) => editFold edit gather (gather acc b) m rest

/-- Edits without a result for the items of a list in turn, up to the first that is refused. -/
def editEach (edit : Module → α → Except Fault (Edited Unit)) (m : Module) (items : List α) :
    Except Fault (Edited Unit) :=
  editFold edit (fun _ _ => ()) () m items

/-- Let the operand of `user` at `index` refer to `value`, and move its use entry. -/
def replaceOperand (m : Module) (user : ValueId) (index : Nat) (value : ValueId) :
    Except Fault (Edited Unit) := do
  let operands := (← m.valueSlot user).operands
  match operands[index]? with
  | none => return (.error (.operandOutOfRange user index operands.length), m)
  | some old =>
    if old = value then return (.ok (), m)
    let m ← m.removeUse old ⟨user, index⟩
    let m ← m.modifyValue user fun x => { x with operands := x.operands.set index value }
    let m ← m.modifyValue value fun x => { x with uses := x.uses ++ [⟨user, index⟩] }
    return (.ok (), m)

/-- Remove an instruction from its block, and with `users` every user of it, users of users and
so on, along chains of at most `depth` instructions. -/
def disconnectWithin : (depth : Nat) → Module → ValueId → (operands users : Bool) →
    Except Fault (Edited Unit)
  | 0, _, _, _, _ => throw .endless
  | depth + 1, m, inst, operands, users => do
    if (← m.instKind inst).isNone then return (.error (.notAnInstruction inst), m)
    let uses ← m.uses inst
    if !users && !uses.isEmpty then return (.error (.stillInUse inst uses.length), m)
    let m ← m.unlink inst
    let m ← if operands then m.severOperands inst else pure m
    if users then
      m.editEach (fun m user => disconnectWithin depth m user true true) (← m.users inst)
    else return (.ok (), m)

/-- A bound on the chains of users that a removal follows. Each removed user takes at least one
entry off the use lists, and between two such steps no instruction is met twice. -/
def cascadeDepth (m : Module) : Nat := (m.useCount + 1) * (m.values.size + 1)

/-- Remove an instruction from its block. With `operands` its operands are dropped too. With
`users` every instruction that uses it is removed likewise, operands included; without, it must
have no uses. -/
def disconnect (m : Module) (inst : ValueId) (operands users : Bool) :
    Except Fault (Edited Unit) :=
  disconnectWithin m.cascadeDepth m inst operands users

/-- Let every use of `old` refer to `new`, then remove `old` if it is an instruction. It is a fault
if uses are left after that, as when an entry stands twice in the use list. -/
def replaceAllUses (m : Module) (old new : ValueId) : Except Fault (Edited Unit) := do
  if old = new then return (.error (.selfReplacement old), m)
  match ← m.editEach (fun m u => m.replaceOperand u.user u.index new) (← m.uses old) with
  | (.error e, m) => return (.error e, m)
  | (.ok (), m) =>
    unless (← m.uses old).isEmpty do throw (.usesLeft old)
    if (← m.instKind old).isSome then m.disconnect old true false
    else return (.ok (), m)

end Module

end SsaCodegen
