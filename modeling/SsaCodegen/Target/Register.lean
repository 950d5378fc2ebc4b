/-!
# Registers and calling convention

Code is selected over an unbounded supply of virtual registers and the physical registers that the
calling convention names. `Target.Spec` gathers what the selector needs to know of a machine, and
`Target.riscv32` is RV32I with its standard integer calling convention.
-/

namespace SsaCodegen.Target

/-- A physical register, by number. -/
structure PhysReg where
  num : Nat
deriving DecidableEq

/-- A register: one of a function's virtual registers, or one of the machine's. -/
inductive Reg where
  | virt (num : Nat)
  | phys (reg : PhysReg)
deriving DecidableEq

/-- The conventional names of the physical registers, by number. -/
def regNames : List String :=
  ["zero", "ra", "sp", "gp", "tp", "t0", "t1", "t2", "s0", "s1", "a0", "a1", "a2", "a3", "a4",
    "a5", "a6", "a7", "s2", "s3", "s4", "s5", "s6", "s7", "s8", "s9", "s10", "s11", "t3", "t4",
    "t5", "t6"]

/-- The name of a physical register. -/
def PhysReg.name (r : PhysReg) : String := regNames[r.num]?.getD "x?"

/-- Register file and calling convention of a machine. -/
structure Spec where
  /-- Argument registers, in argument order. Further arguments go through the stack. -/
  paramRegs : List PhysReg
  calleeSaved : List PhysReg
  returnAddr : PhysReg
  result : PhysReg
  stackPointer : PhysReg
  zero : PhysReg
  /-- The bytes of a machine word. -/
  word : Nat
  /-- The least immediate of an instruction such as `addi`. -/
  immMin : Int64
  /-- The greatest immediate of an instruction such as `addi`. -/
  immMax : Int64
deriving DecidableEq

/-- Whether a number can stand as an immediate. -/
def Spec.fitsImm (t : Spec) (n : Int64) : Bool := t.immMin ≤ n && n ≤ t.immMax

/-- RV32I with the standard integer calling convention: arguments in `a0` to `a7`, the result in
`a0`, and `s0` to `s11` kept by the callee. -/
def riscv32 : Spec where
  paramRegs := [⟨10⟩, ⟨11⟩, ⟨12⟩, ⟨13⟩, ⟨14⟩, ⟨15⟩, ⟨16⟩, ⟨17⟩]
  calleeSaved := [⟨8⟩, ⟨9⟩, ⟨18⟩, ⟨19⟩, ⟨20⟩, ⟨21⟩, ⟨22⟩, ⟨23⟩, ⟨24⟩, ⟨25⟩, ⟨26⟩, ⟨27⟩]
  returnAddr := ⟨1⟩
  result := ⟨10⟩
  stackPointer := ⟨2⟩
  zero := ⟨0⟩
  word := 4
  immMin := -2048
  immMax := 2047

end SsaCodegen.Target
