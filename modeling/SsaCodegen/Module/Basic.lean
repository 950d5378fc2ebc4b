import SsaCodegen.Module.Value
import SsaCodegen.Total
import SsaCodegen.Ty.Table

/-!
# Modules

A module is a table of types with tables of values, blocks, functions and global variables. An
entity is named by its position in its table, and creating one puts it last.

There are two ways to look an id up. `value`, `block` and `func` are for readers and fault with a
text that names the id. `valueSlot`, `blockSlot` and `funcSlot` are for writers and fault without
one.

## Main definitions

* `Module` — the tables
* `Module.addFunction`, `addBlock`, `addGlobal`, `addConst` — the entities of a module
* `Module.users` — the distinct users of a value
-/

namespace SsaCodegen

/-- A basic block. Its instructions are chained from `first` to `last`. -/
structure Block where
  name : String
  func : FuncId
  label : ValueId
  /-- Whether constant propagation has found a way to the block. -/
  reachable : Bool := false
  first : Option ValueId := none
  last : Option ValueId := none
deriving DecidableEq

/-- A function. Its first block is the entry; without blocks it is a declaration. -/
structure Func where
  name : String
  ret : Ty
  params : List ValueId
  blocks : List BlockId := []
deriving DecidableEq

/-- The block at which a function starts. -/
def Func.entry (f : Func) : Option BlockId := f.blocks.head?

/-- A function that is defined elsewhere. -/
def Func.isDeclaration (f : Func) : Bool := f.blocks.isEmpty

/-- A global variable that holds a value of type `elem`. `value` is its address. -/
structure Global where
  name : String
  value : ValueId
  elem : Ty
  init : Option ConstValue
deriving DecidableEq

/-- A program in the intermediate language. -/
structure Module where
  types : TypeTable := {}
  values : Array Value := #[]
  blocks : Array Block := #[]
  funcs : Array Func := #[]
  globals : Array Global := #[]

namespace Module

/-! ## Looking up -/

/-- A value, for a reader. -/
def value (m : Module) (v : ValueId) : Except Fault Value :=
  lookupOr (.unknownValue v) m.values[v.idx]?

/-- A block, for a reader. -/
def block (m : Module) (b : BlockId) : Except Fault Block :=
  lookupOr (.unknownBlock b) m.blocks[b.idx]?

/-- A function, for a reader. -/
def func (m : Module) (f : FuncId) : Except Fault Func :=
  lookupOr (.unknownFunc f) m.funcs[f.idx]?

/-- A value, for a writer. -/
def valueSlot (m : Module) (v : ValueId) : Except Fault Value :=
  lookupOr .outOfRange m.values[v.idx]?

/-- A block, for a writer. -/
def blockSlot (m : Module) (b : BlockId) : Except Fault Block :=
  lookupOr .outOfRange m.blocks[b.idx]?

/-- A function, for a writer. -/
def funcSlot (m : Module) (f : FuncId) : Except Fault Func :=
  lookupOr .outOfRange m.funcs[f.idx]?

/-- A global variable. -/
def global (m : Module) (g : GlobalId) : Except Fault Global :=
  lookupOr .outOfRange m.globals[g.idx]?

/-- The functions of a module, in order. -/
def funcIds (m : Module) : List FuncId := (List.range m.funcs.size).map FuncId.mk

/-- The first function with a name. -/
def funcByName? (m : Module) (name : String) : Option FuncId :=
  (m.funcs.findIdx? fun f => f.name = name).map FuncId.mk

/-- The type of a value. -/
def ty (m : Module) (v : ValueId) : Except Fault Ty := return (← m.value v).ty

/-- The kind of a value. -/
def kind (m : Module) (v : ValueId) : Except Fault ValueKind := return (← m.value v).kind

/-- What a value does, when it is an instruction. -/
def instKind (m : Module) (v : ValueId) : Except Fault (Option InstKind) :=
  return (← m.kind v).asInst

/-- The operands of a value. -/
def operands (m : Module) (v : ValueId) : Except Fault (List ValueId) :=
  return (← m.value v).operands

/-- One operand of a value. -/
def operand (m : Module) (v : ValueId) (index : Nat) : Except Fault ValueId := do
  lookupOr .outOfRange (← m.operands v)[index]?

/-- The operand positions that use a value. -/
def uses (m : Module) (v : ValueId) : Except Fault (List Use) := return (← m.valueSlot v).uses

/-- The distinct users of a value, in the order of their first use. -/
def users (m : Module) (v : ValueId) : Except Fault (List ValueId) :=
  return ((← m.uses v).map Use.user).eraseDups

/-- The number of use entries in a module. -/
def useCount (m : Module) : Nat := total (fun x => x.uses.length) m.values.toList

/-- What is known of a value. -/
def known (m : Module) (v : ValueId) : Except Fault Constness := return (← m.value v).known

/-- The label of a block. -/
def labelOf (m : Module) (b : BlockId) : Except Fault ValueId := return (← m.block b).label

/-! ## Writing -/

/-- Put a value in place of the one with the same id. -/
def setValue (m : Module) (v : ValueId) (x : Value) : Module :=
  { m with values := m.values.setIfInBounds v.idx x }

/-- Put a block in place of the one with the same id. -/
def setBlock (m : Module) (b : BlockId) (x : Block) : Module :=
  { m with blocks := m.blocks.setIfInBounds b.idx x }

/-- Change a value. -/
def modifyValue (m : Module) (v : ValueId) (f : Value → Value) : Except Fault Module :=
  return m.setValue v (f (← m.valueSlot v))

/-- Change a block. -/
def modifyBlock (m : Module) (b : BlockId) (f : Block → Block) : Except Fault Module :=
  return m.setBlock b (f (← m.blockSlot b))

/-- Give a value a name. -/
def setName (m : Module) (v : ValueId) (name : String) : Except Fault Module :=
  m.modifyValue v fun x => { x with name := some name }

/-- Record whether a block has been found reachable. -/
def setReachable (m : Module) (b : BlockId) (reachable : Bool) : Except Fault Module :=
  m.modifyBlock b fun x => { x with reachable }

/-- Forget which blocks of a function have been found reachable. -/
def resetReachability (m : Module) (f : FuncId) : Except Fault Module := do
  (← m.funcSlot f).blocks.foldlM (fun m b => m.setReachable b false) m

/-- Mention a type. -/
def mention (m : Module) (ty : Ty) : Module := { m with types := m.types.intern ty }

/-! ## Creating -/

/-- The id that the next value gets. -/
def nextValue (m : Module) : ValueId := ⟨m.values.size⟩

/-- A new value without operands, uses or a place. -/
def addValue (m : Module) (ty : Ty) (name : Option String) (kind : ValueKind) : Module :=
  { m with values := m.values.push { ty, name, kind, known := kind.initial } }

/-- A new constant. -/
def addConst (m : Module) (c : ConstValue) (ty : Ty) : ValueId × Module :=
  (m.nextValue, m.addValue ty none (.const c))

/-- The parameters of a function, one value each, numbered from `index`. -/
def addParams (m : Module) (f : FuncId) (index : Nat) : List (String × Ty) → List ValueId × Module
  | [] => ([], m)
  | (name, ty) :: rest =>
    let (ids, m') := (m.addValue ty (some name) (.param f index)).addParams f (index + 1) rest
    (m.nextValue :: ids, m')

/-- A new function with named parameters and no blocks. -/
def addFunction (m : Module) (name : String) (ret : Ty) (params : List (String × Ty)) :
    FuncId × Module :=
  let f : FuncId := ⟨m.funcs.size⟩
  let (ids, m) := m.addParams f 0 params
  (f, { m with funcs := m.funcs.push { name, ret, params := ids } })

/-- A new empty block at the end of a function, with its label. -/
def addBlock (m : Module) (f : FuncId) (name : String) : Except Fault (BlockId × Module) := do
  let b : BlockId := ⟨m.blocks.size⟩
  let m := m.mention .label
  let label := m.nextValue
  let m := m.addValue .label (some name) (.block b)
  let m := { m with blocks := m.blocks.push { name, func := f, label } }
  let x ← m.funcSlot f
  return (b, { m with funcs := m.funcs.setIfInBounds f.idx { x with blocks := x.blocks ++ [b] } })

/-- A new global variable that holds a value of type `elem`, with its address. -/
def addGlobal (m : Module) (name : String) (elem : Ty) (init : Option ConstValue) :
    GlobalId × Module :=
  let m := m.mention (.ptr elem)
  let value := m.nextValue
  let m := m.addValue (.ptr elem) (some name) (.global ⟨m.globals.size⟩)
  (⟨m.globals.size⟩, { m with globals := m.globals.push { name, value, elem, init } })

end Module

end SsaCodegen
