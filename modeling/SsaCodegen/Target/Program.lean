import SsaCodegen.Copies
import SsaCodegen.Module.Value
import SsaCodegen.Target.Register

/-!
# Target programs

A target program is what instruction selection produces: functions of blocks of machine
instructions over virtual and physical registers, and the global variables they refer to. Blocks,
functions and global variables are referred to by position.

## Main definitions

* `Target.Inst`, `Block`, `Func`, `Program`
* `Target.Block.exitStart` — where the control transfers that end a block begin
* `Target.Block.insertBeforeExit` — put instructions before them
-/

namespace SsaCodegen.Target

/-- The displacement of a memory operand: a number, or the low bits of the address of a global
variable. -/
inductive Disp where
  | imm (value : Int32)
  | globalLo (global : Nat)
deriving DecidableEq

/-- The address `disp(base)`. -/
structure Mem where
  base : Reg
  disp : Disp
deriving DecidableEq

/-- A source operand of an instruction. -/
inductive Operand where
  | reg (reg : Reg)
  | imm (value : Int64)
  | mem (mem : Mem)
  /-- A global variable itself. -/
  | global (global : Nat)
  /-- The upper 20 bits of the address of a global variable. -/
  | globalHi (global : Nat)
  /-- The lower 12 bits of the address of a global variable. -/
  | globalLo (global : Nat)
  | block (block : Nat)
  | func (func : Nat)
deriving DecidableEq

/-- The register that an operand is, if it is one. -/
def Operand.asReg : Operand → Option Reg
  | reg r => some r
  | _ => none

/-- A machine operation. -/
inductive Opcode where
  | add | sub | mul | div | rem | sll | sra | and | or | xor | slt | sgt
  | addi | xori | seqz | snez | lui
  | lb | lh | lw | sb | sh | sw
  | mv | j | bnez | beq | bne | blt | bgt | bge | ble | call | ret
deriving DecidableEq

namespace Opcode

/-- Every machine operation. -/
def all : List Opcode :=
  [add, sub, mul, div, rem, sll, sra, and, or, xor, slt, sgt, addi, xori, seqz, snez, lui, lb, lh,
    lw, sb, sh, sw, mv, j, bnez, beq, bne, blt, bgt, bge, ble, call, ret]

/-- The name of an operation in a listing. -/
def mnemonic : Opcode → String
  | add => "add"
  | sub => "sub"
  | mul => "mul"
  | div => "div"
  | rem => "rem"
  | sll => "sll"
  | sra => "sra"
  | and => "and"
  | or => "or"
  | xor => "xor"
  | slt => "slt"
  | sgt => "sgt"
  | addi => "addi"
  | xori => "xori"
  | seqz => "seqz"
  | snez => "snez"
  | lui => "lui"
  | lb => "lb"
  | lh => "lh"
  | lw => "lw"
  | sb => "sb"
  | sh => "sh"
  | sw => "sw"
  | mv => "mv"
  | j => "j"
  | bnez => "bnez"
  | beq => "beq"
  | bne => "bne"
  | blt => "blt"
  | bgt => "bgt"
  | bge => "bge"
  | ble => "ble"
  | call => "call"
  | ret => "ret"

/-- The operations that pass control on and so close a block. A call comes back. -/
def isControl : Opcode → Bool
  | j | bnez | beq | bne | blt | bgt | bge | ble | ret => true
  | _ => false

end Opcode

/-- A machine instruction. -/
structure Inst where
  op : Opcode
  dst : Option Reg
  srcs : List Operand
deriving DecidableEq

namespace Inst

/-- An operation on registers with a result. -/
def onRegs (op : Opcode) (dst : Reg) (srcs : List Reg) : Inst :=
  ⟨op, some dst, srcs.map Operand.reg⟩

/-- A move between registers. -/
def mv (dst src : Reg) : Inst := onRegs .mv dst [src]

/-- The sum of a register and a number. -/
def addi (dst src : Reg) (n : Int64) : Inst := ⟨.addi, some dst, [.reg src, .imm n]⟩

/-- A jump to a block. -/
def jump (block : Nat) : Inst := ⟨.j, none, [.block block]⟩

/-- The first source, if it is a register. -/
def firstSrcReg (i : Inst) : Option Reg := do (← i.srcs.head?).asReg

end Inst

/-- A block of machine instructions. -/
structure Block where
  name : String
  /-- The number of loops around the block. -/
  depth : Nat
  insts : List Inst := []
  /-- Copies that have to happen together before the block passes control on. -/
  pending : List (Copy Reg) := []
deriving DecidableEq

namespace Block

/-- The number of control transfers that a list of instructions ends with. -/
def exitLength (insts : List Inst) : Nat := (insts.reverse.takeWhile (·.op.isControl)).length

/-- The position of the first of the control transfers that end a block. -/
def exitStart (b : Block) : Nat := b.insts.length - exitLength b.insts

/-- The block with instructions put before the control transfers that end it. -/
def insertBeforeExit (b : Block) (code : List Inst) : Block :=
  { b with insts := b.insts.take b.exitStart ++ code ++ b.insts.drop b.exitStart }

end Block

/-- A function. Without a body it is one that is defined elsewhere. -/
structure Func where
  name : String
  isExternal : Bool
  frameSize : Nat := 0
  /-- The names of the virtual registers, by number. -/
  vregNames : List (Option String) := []
  blocks : List Block := []
deriving DecidableEq

/-- The name of a virtual register, if it has one. -/
def Func.vregName? (f : Func) (num : Nat) : Option String := f.vregNames[num]?.join

/-- The first block with a name. -/
def Func.blockByName? (f : Func) (name : String) : Option Block :=
  f.blocks.find? fun b => b.name = name

/-- A global variable: its size in bytes and its first contents. -/
structure Global where
  name : String
  size : Nat
  init : Option ConstValue
deriving DecidableEq

/-- A target program. -/
structure Program where
  functions : List Func := []
  globals : List Global := []
deriving DecidableEq

/-- The first function with a name. -/
def Program.funcByName? (p : Program) (name : String) : Option Func :=
  p.functions.find? fun f => f.name = name

end SsaCodegen.Target
