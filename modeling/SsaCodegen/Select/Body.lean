import SsaCodegen.Select.Control
import SsaCodegen.Select.Convention

/-!
# The body of a block

The machine instructions of one instruction of the intermediate language. A phi has none: its value
arrives by the copies on its edges. A comparison that a branch takes over has none either.
-/

namespace SsaCodegen

/-- The machine operation of a binary operator. -/
def BinOp.opcode : BinOp → Target.Opcode
  | add => .add
  | sub => .sub
  | mul => .mul
  | div => .div
  | rem => .rem
  | shl => .sll
  | ashr => .sra
  | and => .and
  | or => .or
  | xor => .xor

/-- The machine operation of a comparison, and the one that makes 0 or 1 of its result where it
does not give that itself. Equality tests a difference against zero; `sge` and `sle` invert the
opposite strict order. -/
def CmpOp.opcodes : CmpOp → Target.Opcode × Option Target.Opcode
  | eq => (.sub, some .seqz)
  | ne => (.xor, some .snez)
  | slt => (.slt, none)
  | sgt => (.sgt, none)
  | sge => (.slt, some .xori)
  | sle => (.sgt, some .xori)

namespace Scope

open SelectM

/-- The registers of the two operands of an instruction. -/
def operandPair (sc : Scope) (inst : ValueId) :
    SelectM (Target.Reg × Target.Reg × Code) := do
  let (l, lCode) ← sc.regOf inst (← sc.module.operand inst 0)
  let (r, rCode) ← sc.regOf inst (← sc.module.operand inst 1)
  return (l, r, lCode ++ rCode)

/-- A binary operator. -/
def lowerBinary (sc : Scope) (inst : ValueId) (op : BinOp) : SelectM Code := do
  let (l, r, code) ← sc.operandPair inst
  let dst ← sc.valueReg inst
  return code ++ [.onRegs op.opcode dst [l, r]]

/-- A comparison, whose result is 0 or 1. -/
def lowerCompare (sc : Scope) (inst : ValueId) (op : CmpOp) : SelectM Code := do
  let (l, r, code) ← sc.operandPair inst
  let dst ← sc.valueReg inst
  match op.opcodes with
  | (first, none) => return code ++ [.onRegs first dst [l, r]]
  | (first, some finish) =>
    let tmp ← fresh
    let flip : List Target.Operand := if finish = .xori then [.imm 1] else []
    return code ++ [.onRegs first tmp [l, r], ⟨finish, some dst, .reg tmp :: flip⟩]

/-- A sign extension or a change of type. All registers hold a word, so it is a move. -/
def lowerMove (sc : Scope) (inst : ValueId) : SelectM Code := do
  let (src, code) ← sc.regOf inst (← sc.module.operand inst 0)
  let dst ← sc.valueReg inst
  return code ++ [.mv dst src]

/-- The address of a variable in the frame. -/
def lowerAlloca (sc : Scope) (inst : ValueId) : SelectM Code := do
  match sc.frame.slotOffset? inst with
  | none => halt (.slotlessAlloca inst)
  | some offset =>
    let dst ← sc.valueReg inst
    sc.target.addOffset dst (.phys sc.target.stackPointer) (Int64.ofNat offset)

/-- An instruction in block `b`. -/
def lowerInst (sc : Scope) (saves : Saves) (edges : EdgeBlocks) (b : BlockId) (inst : ValueId) :
    SelectM Code := do
  match ← sc.module.instKind inst with
  | none => halt (.selectingNonInstruction inst)
  | some .phi => return []
  | some .sext | some .cast => sc.lowerMove inst
  | some .br => sc.lowerBr edges b inst
  | some (.gep needsZero) => sc.lowerGep inst needsZero
  | some .ret => sc.lowerReturn saves inst
  | some .load => sc.lowerLoad inst
  | some .store => sc.lowerStore inst
  | some (.call callee) => sc.lowerCall inst callee
  | some (.alloca _) => sc.lowerAlloca inst
  | some (.binary op) => sc.lowerBinary inst op
  | some (.compare op) =>
    if (← fusedBranch sc.module inst).isSome then return [] else sc.lowerCompare inst op

/-- The instructions of block `b` in turn. -/
def lowerInsts (sc : Scope) (saves : Saves) (edges : EdgeBlocks) (b : BlockId) :
    List ValueId → SelectM Code
  | [] => return []
  | inst :: rest => do
    let code ← sc.lowerInst saves edges b inst
    return code ++ (← sc.lowerInsts saves edges b rest)

end Scope

end SsaCodegen
