import SsaCodegen.Constness
import SsaCodegen.Id
import SsaCodegen.Op
import SsaCodegen.Ty.Basic

/-!
# Values

Every entity that an instruction can take as an operand is a *value*: a constant, the address of a
global variable, a parameter, a block label, or an instruction, which stands for its result.

The operands of an instruction are listed by kind:

* `phi`: `[value, block, value, block, …]`
* `sext`, `cast`: `[value]`
* `br`: `[dest]` or `[cond, then, else]`
* `gep`: `[base, index]`
* `ret`: `[]` or `[value]`
* `load`: `[ptr]`; `store`: `[value, ptr]`
* `call`: the arguments; `alloca`: `[]`
* `binary`, `compare`: `[lhs, rhs]`

## Main definitions

* `Value` — a value with its operands, its uses, its place in a block and what is known of it
* `ValueKind.initial` — what is known of a value when it is created
-/

namespace SsaCodegen

/-- A constant of program text. -/
inductive ConstValue where
  | int (value : Int64)
  | null
  | str (text : String)
deriving DecidableEq

/-- The number that an integer or null constant stands for. -/
def ConstValue.asInt : ConstValue → Option Int64
  | int n => some n
  | null => some 0
  | str _ => none

/-- What an instruction does. -/
inductive InstKind where
  | phi
  | sext
  | cast
  | br
  /-- The address of an element of an array, or, with `needsZero`, of a field of a class. -/
  | gep (needsZero : Bool)
  | ret
  | load
  | store
  | call (callee : FuncId)
  | alloca (slot : Ty)
  | binary (op : BinOp)
  | compare (op : CmpOp)
deriving DecidableEq

namespace InstKind

/-- The instructions that end a block. -/
def isTerminator : InstKind → Bool
  | br | ret => true
  | _ => false

/-- The instructions whose result depends on their operands only. -/
def isPure : InstKind → Bool
  | phi | sext | cast | binary _ | compare _ => true
  | _ => false

/-- The name of an instruction in program text. -/
def mnemonic : InstKind → String
  | phi => "phi"
  | sext => "sext"
  | cast => "bitcast"
  | br => "br"
  | gep _ => "getelementptr"
  | ret => "ret"
  | load => "load"
  | store => "store"
  | call _ => "call"
  | alloca _ => "alloca"
  | binary op => op.mnemonic
  | compare _ => "icmp"

end InstKind

/-- What a value is. -/
inductive ValueKind where
  | const (c : ConstValue)
  | global (id : GlobalId)
  | param (func : FuncId) (index : Nat)
  | block (id : BlockId)
  | inst (kind : InstKind)
deriving DecidableEq

namespace ValueKind

/-- What a value of this kind does, when it is an instruction. -/
def asInst : ValueKind → Option InstKind
  | inst k => some k
  | _ => none

/-- The block of a label. -/
def asBlock : ValueKind → Option BlockId
  | block b => some b
  | _ => none

/-- The global variable whose address a value is. -/
def asGlobal : ValueKind → Option GlobalId
  | global g => some g
  | _ => none

/-- The number that a constant stands for. -/
def asConstInt : ValueKind → Option Int64
  | const c => c.asInt
  | _ => none

/-- What is known of a value when it is created: constants are known, instructions that
propagation can work out are not looked at yet, and everything else varies. -/
def initial : ValueKind → Constness
  | const c =>
    match c.asInt with
    | some n => .const n
    | none => .varying
  | global _ | param _ _ | block _ => .varying
  | inst (.load) | inst (.call _) | inst (.alloca _) | inst (.gep _) => .varying
  | inst _ => .top

end ValueKind

/-- The place of an instruction in a block: the block and the neighbours in it. An instruction
outside every block has no block. -/
structure Link where
  block : Option BlockId := none
  prev : Option ValueId := none
  next : Option ValueId := none
deriving DecidableEq

/-- A value with its operands, the operand positions that use it, its place in a block and what
is known of it. -/
structure Value where
  ty : Ty
  name : Option String
  kind : ValueKind
  operands : List ValueId := []
  uses : List Use := []
  link : Link := {}
  known : Constness
deriving DecidableEq

end SsaCodegen
