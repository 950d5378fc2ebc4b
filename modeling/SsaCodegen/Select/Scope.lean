import SsaCodegen.Module.Basic
import SsaCodegen.Select.Frame
import SsaCodegen.Select.Immediate

/-!
# Operands in registers

A parameter or an instruction has one register for the whole function, given on first mention. A
constant or the address of a global variable is brought into a new register where it is needed. Each
piece of code is returned with the register that it fills.

## Main definitions

* `Scope` — what the selection of a function refers to
* `Scope.regOf` — the register of an operand, and the instructions that fill it
-/

namespace SsaCodegen

/-- What the selection of a function refers to: the module, the machine, the frame and the blocks
of the function, which are numbered by position. -/
structure Scope where
  module : Module
  target : Target.Spec
  frame : Frame
  blocks : List BlockId

namespace Scope

open SelectM

/-- The number of a block of the function. -/
def blockNumber (sc : Scope) (b : BlockId) : Except Fault Nat :=
  lookupOr .outOfRange (sc.blocks.idxOf? b)

/-- The number of a global variable in the target program. -/
def globalNumber (sc : Scope) (g : GlobalId) : Except Fault Nat :=
  if g.idx < sc.module.globals.size then .ok g.idx else .error (.unknownGlobal g)

/-- The register of a parameter or instruction. -/
def valueReg (sc : Scope) (v : ValueId) : SelectM Target.Reg := do
  match (← get).held.lookup v with
  | some r => return r
  | none =>
    let r ← newReg (← sc.module.value v).name
    modify fun s => { s with held := (v, r) :: s.held }
    return r

/-- Bring the address of a global variable into a register. -/
def globalAddr (global : Nat) : SelectM (Target.Reg × Code) := do
  let hi ← fresh
  let addr ← fresh
  return (addr, [⟨.lui, some hi, [.globalHi global]⟩,
    ⟨.addi, some addr, [.reg hi, .globalLo global]⟩])

/-- The register of an operand of `user`, and the instructions that fill it. A string and a block
label have none. -/
def regOf (sc : Scope) (user value : ValueId) : SelectM (Target.Reg × Code) := do
  match ← sc.module.kind value with
  | .global g => globalAddr (← sc.globalNumber g)
  | .const c =>
    match c.asInt with
    | some n => sc.target.loadImm n
    | none => refuse (.unsupportedOperand user value)
  | .param _ _ | .inst _ => return (← sc.valueReg value, [])
  | .block b =>
    let _ ← sc.blockNumber b
    refuse (.unsupportedOperand user value)

end Scope

end SsaCodegen
