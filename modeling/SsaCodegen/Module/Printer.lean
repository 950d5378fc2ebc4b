import SsaCodegen.Module.Chain
import SsaCodegen.Text.Quoted

/-!
# Program text

A module as text: its global variables, then its functions, with a blank line before each
function that does not come first. A value without a name is called by a number if it is an
instruction with a result, counted in program order within its function, and by its id otherwise.

## Main definitions

* `Module.render` — a whole module
* `Module.renderFunc` — one function
-/

namespace SsaCodegen

/-- A constant in program text. -/
def ConstValue.render : ConstValue → String
  | int n => toString n
  | null => "null"
  | str text => "c" ++ Text.quoted text

namespace Module

/-- The numbers of the instructions without a name that have a result. -/
abbrev Slots := List (ValueId × Nat)

/-- Give an instruction the next number. One that has a number already gets the next number in its
place. -/
def Slots.put (slots : Slots) (v : ValueId) : Slots :=
  let next := slots.length
  if slots.any (·.1 = v) then slots.map fun s => if s.1 = v then (v, next) else s
  else slots ++ [(v, next)]

/-- The number of an instruction. -/
def Slots.get? (slots : Slots) (v : ValueId) : Option Nat := slots.lookup v

/-- Number the instructions of a list that have a result and no name. -/
def numberInsts (m : Module) (slots : Slots) : List ValueId → Except Fault Slots
  | [] => return slots
  | v :: rest => do
    let x ← m.value v
    if x.name.isNone && x.ty ≠ .void then m.numberInsts (slots.put v) rest
    else m.numberInsts slots rest

/-- The numbers of the instructions of a function, in program order. -/
def slots (m : Module) (f : FuncId) : Except Fault Slots := do
  (← m.func f).blocks.foldlM (fun slots b => do m.numberInsts slots (← m.insts b)) []

/-- A value where it is used. -/
def renderName (m : Module) (slots : Slots) (v : ValueId) : Except Fault String := do
  let x ← m.value v
  match x.kind with
  | .const c => return c.render
  | .global g => return "@" ++ (← m.global g).name
  | _ =>
    match x.name, slots.get? v with
    | some name, _ => return "%" ++ name
    | none, some slot => return s!"%{slot}"
    | none, none => return s!"%v{v.idx}"

/-- A value with its type. -/
def renderTyped (m : Module) (slots : Slots) (v : ValueId) : Except Fault String := do
  let ty ← m.ty v
  return ty.render ++ " " ++ (← m.renderName slots v)

/-- The incoming values of a phi. -/
def renderIncoming (m : Module) (slots : Slots) : List ValueId → Except Fault (List String)
  | [] => return []
  | [v] => do
    let _ ← m.renderName slots v
    throw .outOfRange
  | v :: label :: rest => do
    let v ← m.renderName slots v
    let label ← m.renderName slots label
    return s!"[ {v}, {label} ]" :: (← m.renderIncoming slots rest)

/-- What an instruction does, as text. -/
def renderBody (m : Module) (slots : Slots) (inst : ValueId) (x : Value) (kind : InstKind) :
    Except Fault String := do
  let typed (i : Nat) : Except Fault String := do m.renderTyped slots (← m.operand inst i)
  let name (i : Nat) : Except Fault String := do m.renderName slots (← m.operand inst i)
  let all : Except Fault String := do
    return ", ".intercalate (← x.operands.mapM (m.renderTyped slots))
  let ty := x.ty.render
  match kind with
  | .phi => return s!"phi {ty} " ++ ", ".intercalate (← m.renderIncoming slots x.operands)
  | .sext | .cast => return kind.mnemonic ++ " " ++ (← typed 0) ++ " to " ++ ty
  | .br => return "br " ++ (← all)
  | .gep needsZero =>
    let elem := ((← m.ty (← m.operand inst 0)).pointee.map Ty.render).getD "?"
    let zero := if needsZero then ", i32 0" else ""
    return s!"getelementptr {elem}, " ++ (← typed 0) ++ zero ++ ", " ++ (← typed 1)
  | .ret => if x.operands.isEmpty then return "ret void" else return "ret " ++ (← typed 0)
  | .load => return s!"load {ty}, " ++ (← typed 0)
  | .store => return "store " ++ (← typed 0) ++ ", " ++ (← typed 1)
  | .call callee =>
    let args ← all
    return s!"call {ty} @" ++ (← m.func callee).name ++ s!"({args})"
  | .alloca slot => return "alloca " ++ slot.render
  | .binary op => return s!"{op.mnemonic} {ty} " ++ (← name 0) ++ ", " ++ (← name 1)
  | .compare op => return s!"icmp {op.mnemonic} " ++ (← typed 0) ++ ", " ++ (← name 1)

/-- An instruction, with the name of its result if it has one. -/
def renderInst (m : Module) (slots : Slots) (inst : ValueId) : Except Fault String := do
  let x ← m.value inst
  match x.kind.asInst with
  | none => throw (.notInstruction inst)
  | some kind =>
    let body ← m.renderBody slots inst x kind
    if x.ty = .void then return body
    else return (← m.renderName slots inst) ++ " = " ++ body

/-- A block: its name and its instructions, one a line. -/
def renderBlock (m : Module) (slots : Slots) (b : BlockId) : Except Fault String := do
  let name := (← m.block b).name
  let lines ← (← m.insts b).mapM (m.renderInst slots)
  return name ++ ":\n" ++ String.join (lines.map fun l => "  " ++ l ++ "\n")

/-- A function. -/
def renderFunc (m : Module) (f : FuncId) : Except Fault String := do
  let slots ← m.slots f
  let x ← m.func f
  let params ← x.params.mapM (m.renderTyped slots)
  let head := s!"{x.ret.render} @{x.name}(" ++ ", ".intercalate params ++ ")"
  if x.isDeclaration then return "declare " ++ head ++ "\n"
  else
    let blocks ← x.blocks.mapM (m.renderBlock slots)
    return "define " ++ head ++ " \x7b\n" ++ String.join blocks ++ "\x7d\n"

/-- A global variable. -/
def renderGlobal (g : Global) : String :=
  let init := (g.init.map ConstValue.render).getD "zeroinitializer"
  s!"@{g.name} = global {g.elem.render} {init}\n"

/-- A whole module. -/
def render (m : Module) : Except Fault String :=
  let globals := String.join (m.globals.toList.map renderGlobal)
  m.funcIds.foldlM (fun out f => do
    let text ← m.renderFunc f
    return if out.isEmpty then text else out ++ "\n" ++ text) globals

end Module

end SsaCodegen
