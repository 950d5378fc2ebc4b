import SsaCodegen.Select.Scope

/-!
# Branches

A branch on a comparison that nothing else uses is one machine instruction; any other condition is
tested against zero. A branch over an edge that has a block of its own goes to that block.
-/

namespace SsaCodegen

/-- The blocks that stand on edges, by the edge's source and destination. -/
abbrev EdgeBlocks := List ((BlockId × BlockId) × Nat)

/-- The branch on a comparison. -/
def CmpOp.branchOp : CmpOp → Target.Opcode
  | eq => .beq
  | ne => .bne
  | slt => .blt
  | sgt => .bgt
  | sge => .bge
  | sle => .ble

namespace Scope

open SelectM

/-- The branch that a comparison becomes part of: its only use is as the condition of that
branch. -/
def fusedBranch (m : Module) (cmp : ValueId) : Except Fault (Option ValueId) := do
  match ← m.uses cmp with
  | [use] =>
    let user ← m.value use.user
    return if use.index = 0 ∧ user.kind = .inst .br ∧ user.operands.length = 3 then some use.user
      else none
  | _ => return none

/-- The number of the block to go to on the edge from `pred` to a label. -/
def branchTarget (sc : Scope) (edges : EdgeBlocks) (pred : BlockId) (inst label : ValueId) :
    SelectM Nat := do
  match (← sc.module.kind label).asBlock with
  | none => halt (.selectingBranchToNonBlock inst)
  | some succ =>
    let plain ← sc.blockNumber succ
    return (edges.lookup (pred, succ)).getD plain

/-- The comparison that a branch takes over, if its condition is one that it can. -/
def fusedCompare (sc : Scope) (inst cond : ValueId) : Except Fault (Option CmpOp) := do
  match (← sc.module.kind cond).asInst with
  | some (.compare op) =>
    return if (← fusedBranch sc.module cond) = some inst then some op else none
  | _ => return none

/-- The test of a branch, which goes to block `dest` if it holds. -/
def lowerTest (sc : Scope) (inst cond : ValueId) (dest : Nat) : SelectM Code := do
  match ← sc.fusedCompare inst cond with
  | some op =>
    let (l, lCode) ← sc.regOf cond (← sc.module.operand cond 0)
    let (r, rCode) ← sc.regOf cond (← sc.module.operand cond 1)
    return lCode ++ rCode ++ [⟨op.branchOp, none, [.reg l, .reg r, .block dest]⟩]
  | none =>
    let (c, code) ← sc.regOf inst cond
    return code ++ [⟨.bnez, none, [.reg c, .block dest]⟩]

/-- A branch at the end of block `pred`. -/
def lowerBr (sc : Scope) (edges : EdgeBlocks) (pred : BlockId) (inst : ValueId) :
    SelectM Code := do
  match ← sc.module.operands inst with
  | [dest] => return [.jump (← sc.branchTarget edges pred inst dest)]
  | [cond, thenLabel, elseLabel] =>
    let thenBlock ← sc.branchTarget edges pred inst thenLabel
    let elseBlock ← sc.branchTarget edges pred inst elseLabel
    return (← sc.lowerTest inst cond thenBlock) ++ [.jump elseBlock]
  | _ => halt (.selectingMalformedBranch inst)

end Scope

end SsaCodegen
