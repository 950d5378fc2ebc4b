import SsaCodegen.Select.Error
import SsaCodegen.Target.Program

/-!
# Handing out registers

Selection hands out virtual registers as it goes, in order, and remembers which of them hold a value
of the program.

## Main definitions

* `Registers` — the registers handed out so far
* `SelectM` — a computation that hands out registers
-/

namespace SsaCodegen

/-- The virtual registers of a function so far: their names by number, and which values they
hold. -/
structure Registers where
  names : List (Option String) := []
  held : List (ValueId × Target.Reg) := []

/-- A computation that hands out registers. -/
abbrev SelectM := StateT Registers (Except Stop)

/-- A sequence of machine instructions. -/
abbrev Code := List Target.Inst

namespace SelectM

/-- Refuse the program. -/
def refuse (e : SelectError) : SelectM α := throw (.refused e)

/-- Stop because a contract is broken. -/
def halt (f : Fault) : SelectM α := throw (.fault f)

/-- A new virtual register. -/
def newReg (name : Option String) : SelectM Target.Reg := do
  let s ← get
  set { s with names := s.names ++ [name] }
  return .virt s.names.length

/-- A new virtual register without a name. -/
def fresh : SelectM Target.Reg := newReg none

end SelectM

end SsaCodegen
