import SsaCodegen.ConstProp.Solver
import SsaCodegen.Module.Edit

/-!
# Folding

After propagation, every pure instruction in a reachable block that is known to be a constant is
replaced by that constant.

## Main definitions

* `Module.foldConstants` — fold a function, and count the instructions folded
* `Module.foldFunction` — propagate and fold, and say whether anything changed
-/

namespace SsaCodegen.Module

/-- Replace an instruction by the constant that it is known to be, if it is pure and known to be
one. The result counts the instructions folded. -/
def foldInst (m : Module) (inst : ValueId) : Except Fault (Edited Nat) := do
  let x ← m.value inst
  match x.known.asConst with
  | none => return (.ok 0, m)
  | some n =>
    if x.kind.asInst.any InstKind.isPure then
      let (c, m) := m.addConst (.int n) x.ty
      match ← m.replaceAllUses inst c with
      | (.error e, m) => return (.error e, m)
      | (.ok (), m) => return (.ok 1, m)
    else return (.ok 0, m)

/-- Fold the instructions of a block, if the block has been found reachable. -/
def foldBlock (m : Module) (b : BlockId) : Except Fault (Edited Nat) := do
  if (← m.block b).reachable then editFold foldInst (· + ·) 0 m (← m.insts b)
  else return (.ok 0, m)

/-- Fold the reachable blocks of a function, and count the instructions folded. -/
def foldConstants (m : Module) (f : FuncId) : Except Fault (Edited Nat) := do
  editFold foldBlock (· + ·) 0 m (← m.func f).blocks

/-- Propagate constants over a function and fold it, and say whether anything was folded. -/
def foldFunction (m : Module) (f : FuncId) : Except Fault (Edited Bool) := do
  let (_, m) ← m.solve f
  match ← m.foldConstants f with
  | (.error e, m) => return (.error e, m)
  | (.ok n, m) => return (.ok (n > 0), m)

end SsaCodegen.Module
