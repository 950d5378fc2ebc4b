import SsaCodegen.Fault
import SsaCodegen.Target.Program
import SsaCodegen.Text.Quoted

/-!
# Listings

A target program as text. A virtual register prints as its name, or by its number as `v7` without
one. A name that several registers share, or that could be taken for the text of another register
(`v7`, `x.3`), is followed by the register's number, so that no two registers print alike.

## Main definitions

* `Target.Func.isAmbiguous` — the names that need a number
* `Target.Program.listing` — a whole program
-/

namespace SsaCodegen.Target

/-- One or more decimal digits. -/
def isNumber (cs : List Char) : Bool := !cs.isEmpty && cs.all Char.isDigit

/-- A name that looks like the text of a register without a name: a `v` and a number. -/
def looksUnnamed (name : String) : Bool :=
  match name.toList with
  | c :: rest => c = 'v' && isNumber rest
  | [] => false

/-- A name that looks like the text of a register with a number: what follows the last point is a
number. -/
def looksNumbered (name : String) : Bool :=
  name.toList.contains '.' && isNumber (name.toList.reverse.takeWhile (· ≠ '.'))

namespace Func

/-- Whether a register's name alone could be taken for another register. -/
def isAmbiguous (f : Func) (name : String) : Bool :=
  f.vregNames.count (some name) > 1 || looksUnnamed name || looksNumbered name

/-- A register in a listing. -/
def renderReg (f : Func) : Reg → String
  | .phys r => r.name
  | .virt n =>
    match f.vregName? n with
    | none => s!"%v{n}"
    | some name => if f.isAmbiguous name then s!"%{name}.{n}" else s!"%{name}"

end Func

namespace Program

/-- The name of a global variable. -/
def globalName (p : Program) (g : Nat) : Except Fault String :=
  lookupOr .outOfRange (p.globals[g]?.map Global.name)

/-- The low bits of the address of a global variable. -/
def globalLo (p : Program) (g : Nat) : Except Fault String :=
  return "%lo(" ++ (← p.globalName g) ++ ")"

/-- An address in a listing. -/
def renderMem (p : Program) (f : Func) (m : Mem) : Except Fault String := do
  let disp ← match m.disp with
    | .imm n => pure (toString n)
    | .globalLo g => p.globalLo g
  return disp ++ "(" ++ f.renderReg m.base ++ ")"

/-- An operand in a listing. -/
def renderOperand (p : Program) (f : Func) : Operand → Except Fault String
  | .reg r => return f.renderReg r
  | .imm n => return toString n
  | .mem m => p.renderMem f m
  | .global g => p.globalName g
  | .globalHi g => return "%hi(" ++ (← p.globalName g) ++ ")"
  | .globalLo g => p.globalLo g
  | .block b => return "." ++ (← lookupOr .outOfRange f.blocks[b]?).name
  | .func g => return (← lookupOr .outOfRange p.functions[g]?).name

/-- An instruction in a listing: its name, its destination and its sources. -/
def renderInst (p : Program) (f : Func) (i : Inst) : Except Fault String := do
  let parts := i.dst.toList.map f.renderReg ++ (← i.srcs.mapM (p.renderOperand f))
  return if parts.isEmpty then i.op.mnemonic
    else i.op.mnemonic ++ " " ++ ", ".intercalate parts

/-- A block in a listing. -/
def renderBlock (p : Program) (f : Func) (b : Block) : Except Fault String := do
  let lines ← b.insts.mapM (p.renderInst f)
  return s!".{b.name}:\n" ++ String.join (lines.map fun l => s!"  {l}\n")

/-- A function in a listing. -/
def renderFunc (p : Program) (f : Func) : Except Fault String := do
  let blocks ← f.blocks.mapM (p.renderBlock f)
  return s!"{f.name}:  # frame {f.frameSize}\n" ++ String.join blocks

/-- A global variable in a listing. -/
def renderGlobal (g : Global) : String :=
  let data := match g.init with
    | some (.int n) => s!".word {n}"
    | some .null => ".word 0"
    | some (.str text) => ".asciz " ++ Text.quoted text
    | none => s!".zero {g.size}"
  s!"{g.name}: {data}\n"

/-- A whole program: its global variables, then its functions that are not external, with a blank
line before each that does not come first. -/
def listing (p : Program) : Except Fault String :=
  let globals := String.join (p.globals.map renderGlobal)
  (p.functions.filter fun f => !f.isExternal).foldlM (fun out f => do
    let text ← p.renderFunc f
    return if out.isEmpty then text else out ++ "\n" ++ text) globals

end Program

end SsaCodegen.Target
