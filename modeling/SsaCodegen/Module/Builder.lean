import SsaCodegen.Module.Chain
import SsaCodegen.Module.UseDef

/-!
# Building code

A builder stands at a block and appends instructions to it, working out the type of each from its
operands.

## Main definitions

* `Builder` — a module and the block at which instructions are appended
* `BuildM` — a computation that builds
-/

namespace SsaCodegen

/-- A module under construction and the block to which instructions are appended. -/
structure Builder where
  module : Module := {}
  block : BlockId := ⟨0⟩

/-- A computation that builds. -/
abbrev BuildM := StateT Builder (Except Fault)

namespace Builder

/-- Read something of the module. -/
def query (f : Module → Except Fault α) : BuildM α := do f (← get).module

/-- Change the module. -/
def update (f : Module → Except Fault (α × Module)) : BuildM α := do
  let s ← get
  let (a, m) ← f s.module
  set { s with module := m }
  return a

/-- Append to another block from now on. -/
def positionAt (b : BlockId) : BuildM Unit := modify fun s => { s with block := b }

/-- Mention a type. -/
def mention (ty : Ty) : BuildM Unit := modify fun s => { s with module := s.module.mention ty }

/-- Append a new instruction to the current block. -/
def push (kind : InstKind) (ty : Ty) (operands : List ValueId) : BuildM ValueId := do
  let b := (← get).block
  update fun m => do
    let (inst, m) ← m.createInst kind ty operands none
    return (inst, ← m.append b inst)

/-- A constant. -/
def const (n : Int64) (ty : Ty) : BuildM ValueId := update fun m => return m.addConst (.int n) ty

/-- A constant of the type of machine words. -/
def i32 (n : Int64) : BuildM ValueId := do
  mention .i32
  const n .i32

/-- A binary operator. The result has the type of the left operand. -/
def binary (op : BinOp) (l r : ValueId) : BuildM ValueId := do
  push (.binary op) (← query (·.ty l)) [l, r]

/-- A comparison. -/
def compare (op : CmpOp) (l r : ValueId) : BuildM ValueId := do
  mention .bool
  push (.compare op) .bool [l, r]

/-- A sign extension. -/
def sext (v : ValueId) (ty : Ty) : BuildM ValueId := push .sext ty [v]

/-- A change of type that keeps the bits. -/
def cast (v : ValueId) (ty : Ty) : BuildM ValueId := push .cast ty [v]

/-- A jump. -/
def br (dest : BlockId) : BuildM ValueId := do
  let dest ← query (·.labelOf dest)
  mention .void
  push .br .void [dest]

/-- A branch on a condition. -/
def condBr (cond : ValueId) (thenBlock elseBlock : BlockId) : BuildM ValueId := do
  let thenLabel ← query (·.labelOf thenBlock)
  let elseLabel ← query (·.labelOf elseBlock)
  mention .void
  push .br .void [cond, thenLabel, elseLabel]

/-- A return, with or without a value. -/
def ret (v : Option ValueId) : BuildM ValueId := do
  mention .void
  push .ret .void v.toList

/-- A load through a pointer. -/
def load (ptr : ValueId) : BuildM ValueId := do
  match (← query (·.ty ptr)).pointee with
  | some elem => push .load elem [ptr]
  | none => throw (.loadFromNonPointer ptr)

/-- A store through a pointer. -/
def store (v ptr : ValueId) : BuildM ValueId := do
  mention .void
  push .store .void [v, ptr]

/-- The address of an element of the array that `base` points into. -/
def elementAddr (base index : ValueId) : BuildM ValueId := do
  push (.gep false) (← query (·.ty base)) [base, index]

/-- The type of a field of the class that a pointer type points to. -/
def fieldType (m : Module) (base : Ty) (index : Nat) : Except Fault Ty :=
  match m.types.pointeeLayout base with
  | none => .error (.fieldOfNonClass (m.types.idOf base))
  | some layout => lookupOr .outOfRange (layout.fields[index]?.map Field.ty)

/-- The address of a field of the class instance that `base` points to. -/
def fieldAddr (base : ValueId) (index : Nat) : BuildM ValueId := do
  let baseTy ← query (·.ty base)
  let ty ← query fun m => fieldType m baseTy index
  mention (.ptr ty)
  let index ← i32 (Int64.ofNat index)
  push (.gep true) (.ptr ty) [base, index]

/-- A call. -/
def call (callee : FuncId) (args : List ValueId) : BuildM ValueId := do
  push (.call callee) (← query (·.func callee)).ret args

/-- A variable in the frame. -/
def alloca (slot : Ty) : BuildM ValueId := do
  mention (.ptr slot)
  push (.alloca slot) (.ptr slot) []

/-- A phi without incoming values. -/
def phi (ty : Ty) : BuildM ValueId := push .phi ty []

/-- A further incoming value of a phi. -/
def addIncoming (phi value : ValueId) (pred : BlockId) : BuildM Unit := do
  let label ← query (·.labelOf pred)
  update fun m => do return ((), ← (← m.addOperand phi value).addOperand phi label)

end Builder

end SsaCodegen
