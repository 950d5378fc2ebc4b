/-!
# Operators on constants

The binary and comparison operators of the intermediate language and their value on two 64-bit
constants. Arithmetic wraps around; a shift uses the low six bits of its count; division goes
toward zero. Division and remainder by zero have no value: they are left to the running program.

## Main definitions

* `BinOp.eval` — the value of a binary operator on two constants, if it has one
* `CmpOp.eval` — the verdict of a comparison of two constants, which is signed
-/

namespace SsaCodegen

/-- A binary operator. -/
inductive BinOp where
  | add | sub | mul | div | rem | shl | ashr | and | or | xor
deriving DecidableEq

namespace BinOp

/-- Every binary operator. -/
def all : List BinOp := [add, sub, mul, div, rem, shl, ashr, and, or, xor]

/-- The name of an operator in program text. -/
def mnemonic : BinOp → String
  | add => "add"
  | sub => "sub"
  | mul => "mul"
  | div => "sdiv"
  | rem => "srem"
  | shl => "shl"
  | ashr => "ashr"
  | and => "and"
  | or => "or"
  | xor => "xor"

/-- The value of an operator on two constants. Division and remainder by zero have none, and `or`
keeps the low 32 bits only. -/
def eval (op : BinOp) (l r : Int64) : Option Int64 :=
  match op with
  | add => some (l + r)
  | sub => some (l - r)
  | mul => some (l * r)
  | div => if r = 0 then none else some (l / r)
  | rem => if r = 0 then none else some (l % r)
  | shl => some (l <<< r)
  | ashr => some (l >>> r)
  | and => some (l &&& r)
  | or => some ((l ||| r) &&& 0xffffffff)
  | xor => some (l ^^^ r)

end BinOp

/-- A comparison. The orders are signed. -/
inductive CmpOp where
  | eq | ne | sgt | sge | slt | sle
deriving DecidableEq

namespace CmpOp

/-- Every comparison. -/
def all : List CmpOp := [eq, ne, sgt, sge, slt, sle]

/-- The name of a comparison in program text. -/
def mnemonic : CmpOp → String
  | eq => "eq"
  | ne => "ne"
  | sgt => "sgt"
  | sge => "sge"
  | slt => "slt"
  | sle => "sle"

/-- The verdict of a comparison on two constants. -/
def eval (op : CmpOp) (l r : Int64) : Bool :=
  match op with
  | eq => l = r
  | ne => l ≠ r
  | sgt => r < l
  | sge => r ≤ l
  | slt => l < r
  | sle => l ≤ r

end CmpOp

end SsaCodegen
