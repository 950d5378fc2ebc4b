import SsaCodegen.Select.Registers

/-!
# Numbers in instructions

A number that fits an immediate is part of the instruction that uses it. Any other 32-bit number is
put together in a register from an upper and a lower part.

## Main definitions

* `splitImm` — the two parts of a number
* `Target.Spec.loadImm` — bring a number into a register
* `Target.Spec.addOffset`, `adjustStack`, `stackSlot` — what is done with one
-/

namespace SsaCodegen

/-- The low 32 bits of a number, as a signed number. -/
def signExtend32 (n : Int64) : Int64 := n.toInt32.toInt64

/-- A 32-bit number in two parts, of which the second is a signed 12-bit number: the first,
shifted left by 12, and the second add up to it. -/
def splitImm (n : Int64) : Int64 × Int64 :=
  let n := signExtend32 n
  let lo := ((n &&& 0xfff) ^^^ 0x800) - 0x800
  let hi := ((n - lo) >>> 12) &&& 0xfffff
  (hi, lo)

namespace Target.Spec

open SelectM

/-- Bring a number into a register: from zero if it fits an immediate, otherwise in two parts. -/
def loadImmInto (t : Spec) (dst : Reg) (n : Int64) : SelectM Code := do
  let n := signExtend32 n
  if t.fitsImm n then return [.addi dst (.phys t.zero) n]
  else
    let (hi, lo) := splitImm n
    let upper ← fresh
    return [⟨.lui, some upper, [.imm hi]⟩, .addi dst upper lo]

/-- Bring a number into a new register. -/
def loadImm (t : Spec) (n : Int64) : SelectM (Reg × Code) := do
  let dst ← fresh
  return (dst, ← t.loadImmInto dst n)

/-- The sum of a register and a number. -/
def addOffset (t : Spec) (dst base : Reg) (offset : Int64) : SelectM Code := do
  if offset = 0 then return [.mv dst base]
  else if t.fitsImm offset then return [.addi dst base offset]
  else
    let (reg, code) ← t.loadImm offset
    return code ++ [.onRegs .add dst [base, reg]]

/-- Move the stack pointer. -/
def adjustStack (t : Spec) (delta : Int64) : SelectM Code := do
  let sp := .phys t.stackPointer
  if t.fitsImm delta then return [.addi sp sp delta]
  else
    let (reg, code) ← t.loadImm delta
    return code ++ [.onRegs .add sp [sp, reg]]

/-- The address at an offset from the stack pointer. -/
def stackSlot (t : Spec) (offset : Int64) : SelectM (Mem × Code) := do
  let sp := .phys t.stackPointer
  if t.fitsImm offset then return (⟨sp, .imm offset.toInt32⟩, [])
  else
    let base ← fresh
    return (⟨base, .imm 0⟩, ← t.addOffset base sp offset)

end Target.Spec

end SsaCodegen
