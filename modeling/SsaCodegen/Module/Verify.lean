import SsaCodegen.Module.Chain

/-!
# The verifier

A module is sound for code generation when operands and uses agree, and when every block of every
function is a well-linked chain of well-formed instructions, phis first and one terminator at the
end. The verifier names the first defect it finds: operands and uses are checked before blocks,
and within a block each instruction in turn.

## Main definitions

* `Defect` — what can be wrong
* `Module.verify` — the first defect of a module and where it is
-/

namespace SsaCodegen

/-- What can be wrong with the operands of an instruction. -/
inductive ShapeDefect where
  | branch
  | phi
  | returnArity
  | pair
  | store
  | single
  | callArity
  | alloca
deriving DecidableEq

/-- The text of a defect of an operand list. -/
def ShapeDefect.message : ShapeDefect → String
  | branch => "malformed branch operands"
  | phi => "phi operands must be (value, block) pairs"
  | returnArity => "return arity does not match the function type"
  | pair => "expected two operands"
  | store => "store expects value and pointer"
  | single => "expected one operand"
  | callArity => "call argument count mismatch"
  | alloca => "alloca takes no operands"

/-- The defect, unless a condition holds. -/
def ShapeDefect.absentIf (d : ShapeDefect) (ok : Bool) : Option ShapeDefect :=
  if ok then none else some d

/-- What can be wrong with a module. -/
inductive Defect where
  | missingUse (index : Nat) (operand : ValueId)
  | danglingUse (use : Use) (value : ValueId)
  | emptyBlock
  | brokenList (inst : ValueId)
  | misplacedTerminator (inst : ValueId)
  | latePhi (inst : ValueId)
  | shape (inst : ValueId) (what : ShapeDefect)
deriving DecidableEq

/-- The text of a defect. -/
def Defect.message : Defect → String
  | missingUse index v => s!"operand {index} ({v}) is missing its use entry"
  | danglingUse u v => s!"dangling use {u} of {v}"
  | emptyBlock => "empty block"
  | brokenList v => s!"broken instruction list at {v}"
  | misplacedTerminator v => s!"{v} terminator must be the last instruction"
  | latePhi v => s!"phi {v} after non-phi instruction"
  | shape v what => s!"{v}: {what.message}"

/-- A defect and where it is: a function and a block of it, or the module as a whole. -/
structure VerifyError where
  location : String
  defect : Defect
deriving DecidableEq

/-- The text of a verifier's finding. -/
def VerifyError.message (e : VerifyError) : String := s!"{e.location}: {e.defect.message}"

/-- The first finding of a check over the items of a list. -/
def firstFinding (check : α → Except Fault (Option ε)) : List α → Except Fault (Option ε)
  | [] => return none
  | a :: rest => do
    match ← check a with
    | some e => return some e
    | none => firstFinding check rest

namespace Module

/-! ## Operands and uses -/

/-- The defect of one operand: its value has no entry for it. -/
def operandDefect (m : Module) (user : ValueId) (index : Nat) (operand : ValueId) :
    Except Fault (Option Defect) := do
  if (← m.uses operand).contains ⟨user, index⟩ then return none
  else return some (.missingUse index operand)

/-- The defect of one use entry: the operand it stands for is not the value. -/
def useDefect (m : Module) (value : ValueId) (use : Use) : Except Fault (Option Defect) := do
  if (← m.operands use.user)[use.index]? = some value then return none
  else return some (.danglingUse use value)

/-- The first defect of the operands and uses of a value. -/
def valueDefect (m : Module) (v : ValueId) : Except Fault (Option Defect) := do
  let x ← m.value v
  match ← firstFinding (fun (o, i) => m.operandDefect v i o) x.operands.zipIdx with
  | some d => return some d
  | none => firstFinding (m.useDefect v) x.uses

/-- Where a value is: the function and block that hold it, or the module. -/
def locationOf (m : Module) (v : ValueId) : Except Fault String := do
  match (← m.value v).link.block with
  | none => return "<module>"
  | some b =>
    let x ← m.block b
    return (← m.func x.func).name ++ ":" ++ x.name

/-- The first disagreement of operands and uses in a module. -/
def verifyUses (m : Module) : Except Fault (Option VerifyError) :=
  firstFinding (fun i => do
    match ← m.valueDefect ⟨i⟩ with
    | none => return none
    | some d => return some ⟨← m.locationOf ⟨i⟩, d⟩) (List.range m.values.size)

/-! ## Blocks -/

/-- The block that a value is the label of. -/
def blockOf? (m : Module) (v : ValueId) : Option BlockId := do (← m.values[v.idx]?).kind.asBlock

/-- Whether a value is the label of a block of a function. -/
def isLocalLabel (m : Module) (f : FuncId) (v : ValueId) : Bool :=
  (m.blockOf? v).any fun b => m.blocks[b.idx]?.any fun x => x.func = f

/-- Whether a list is made of pairs of a value that is no label and a label of a function. -/
def arePhiPairs (m : Module) (f : FuncId) : List ValueId → Bool
  | [] => true
  | [_] => false
  | v :: label :: rest =>
    (m.blockOf? v).isNone && m.isLocalLabel f label && m.arePhiPairs f rest

/-- Whether the operands of a branch are a label, or a condition and two labels. -/
def areBranchOperands (m : Module) (f : FuncId) : List ValueId → Bool
  | [dest] => m.isLocalLabel f dest
  | [cond, thenLabel, elseLabel] =>
    (m.blockOf? cond).isNone && m.isLocalLabel f thenLabel && m.isLocalLabel f elseLabel
  | _ => false

/-- What is wrong with the operands of an instruction of a function. -/
def shapeDefect (m : Module) (f : FuncId) (kind : InstKind) (operands : List ValueId) :
    Except Fault (Option ShapeDefect) := do
  match kind with
  | .br => return ShapeDefect.branch.absentIf (m.areBranchOperands f operands)
  | .phi => return ShapeDefect.phi.absentIf (m.arePhiPairs f operands)
  | .ret =>
    let arity := if (← m.func f).ret = .void then 0 else 1
    return ShapeDefect.returnArity.absentIf (operands.length = arity)
  | .binary _ | .compare _ | .gep _ => return ShapeDefect.pair.absentIf (operands.length = 2)
  | .store => return ShapeDefect.store.absentIf (operands.length = 2)
  | .load | .sext | .cast => return ShapeDefect.single.absentIf (operands.length = 1)
  | .call callee =>
    let arity := (← m.func callee).params.length
    return ShapeDefect.callArity.absentIf (operands.length = arity)
  | .alloca _ => return ShapeDefect.alloca.absentIf operands.isEmpty

/-- The first defect of the instructions of a block. `prev` stands before them, `inBody` says
whether an instruction that is no phi does, and `last` is the block's last instruction. -/
def chainDefect (m : Module) (f : FuncId) (b : BlockId) (last : ValueId) (prev : Option ValueId)
    (inBody : Bool) : List ValueId → Except Fault (Option Defect)
  | [] => return none
  | inst :: rest => do
    let x ← m.value inst
    if x.link.block ≠ some b ∨ x.link.prev ≠ prev then return some (.brokenList inst)
    match x.kind.asInst with
    | none => throw (.listedNonInstruction inst)
    | some kind =>
      if kind.isTerminator ≠ decide (inst = last) then return some (.misplacedTerminator inst)
      if kind = .phi ∧ inBody then return some (.latePhi inst)
      match ← m.shapeDefect f kind x.operands with
      | some d => return some (.shape inst d)
      | none => m.chainDefect f b last (some inst) (inBody || kind ≠ .phi) rest

/-- The first defect that shows on a walk along a block whose last instruction is `last`. How the
walk ends shows after its instructions. -/
def walkDefect (m : Module) (f : FuncId) (b : BlockId) (last : ValueId) (c : Chain) :
    Except Fault (Option Defect) := do
  match ← m.chainDefect f b last none false c.insts with
  | some d => return some d
  | none =>
    c.ending.check
    return none

/-- The first defect of a block of a function. An instruction that is met twice is a defect, so
one step more than there are values is enough. -/
def blockDefect (m : Module) (f : FuncId) (b : BlockId) : Except Fault (Option Defect) := do
  let x ← m.block b
  match x.last with
  | none => return some .emptyBlock
  | some last => m.walkDefect f b last (m.walk (m.values.size + 1) x.first)

/-- The first defect of the blocks of a function. -/
def verifyFunc (m : Module) (f : FuncId) : Except Fault (Option VerifyError) := do
  let x ← m.func f
  firstFinding (fun b => do
    match ← m.blockDefect f b with
    | none => return none
    | some d => return some ⟨x.name ++ ":" ++ (← m.block b).name, d⟩) x.blocks

/-- The first defect of a module, if it has one. -/
def verify (m : Module) : Except Fault (Option VerifyError) := do
  match ← m.verifyUses with
  | some e => return some e
  | none => firstFinding m.verifyFunc m.funcIds

end Module

end SsaCodegen
