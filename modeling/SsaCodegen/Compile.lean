import SsaCodegen.Module.Printer
import SsaCodegen.Module.Verify
import SsaCodegen.Pass
import SsaCodegen.Select.Program
import SsaCodegen.Target.Listing

/-!
# Compiling a module

The whole way from a module to a target program: verify, optimize, verify again, select. The module
is optimized in place, and stays so when a later stage refuses it.

## Main definitions

* `CompileOptions` — which stages run and which texts are wanted
* `Module.compile` — the way
-/

namespace SsaCodegen

/-- Which stages run and which texts are wanted. -/
structure CompileOptions where
  foldConstants : Bool := true
  verify : Bool := true
  emitText : Bool := false
  emitListing : Bool := false

/-- A target program and the texts that were wanted. -/
structure CompileOutput where
  program : Target.Program
  text : Option String
  listing : Option String

/-- Why a module was not compiled. -/
inductive CompileError where
  | verify (error : VerifyError)
  | graph (error : GraphError)
  | select (error : SelectError)
deriving DecidableEq

/-- The text of a refusal to compile. -/
def CompileError.message : CompileError → String
  | verify e => e.message
  | graph e => "IR rewrite error: " ++ e.message
  | select e => "instruction selection error: " ++ e.message

/-- What compiling leaves: the module, and the output or why there is none. -/
abbrev Compiled (α : Type) := Except CompileError α × Module

namespace Module

/-- Refuse a module with a defect, if it is to be verified. -/
def checkIf (wanted : Bool) (m : Module) : Except Fault (Compiled Unit) := do
  if wanted then
    match ← m.verify with
    | some e => return (.error (.verify e), m)
    | none => return (.ok (), m)
  else return (.ok (), m)

/-- Optimize a module, if wanted, and verify it again. -/
def optimizeIf (opts : CompileOptions) (m : Module) : Except Fault (Compiled Unit) := do
  if opts.foldConstants then
    match ← m.optimize with
    | (.error e, m) => return (.error (.graph e), m)
    | (.ok _, m) => m.checkIf opts.verify
  else return (.ok (), m)

/-- The target program of a module, with the texts that are wanted. -/
def emit (opts : CompileOptions) (t : Target.Spec) (m : Module) :
    Except Fault (Except CompileError CompileOutput) := do
  let text ← if opts.emitText then some <$> m.render else pure none
  match m.select t with
  | .error (.fault f) => throw f
  | .error (.refused e) => return .error (.select e)
  | .ok program =>
    let listing ← if opts.emitListing then some <$> program.listing else pure none
    return .ok ⟨program, text, listing⟩

/-- Compile a module: verify it, optimize it, verify it again and select its code. -/
def compile (m : Module) (opts : CompileOptions) (t : Target.Spec) :
    Except Fault (Compiled CompileOutput) := do
  match ← m.checkIf opts.verify with
  | (.error e, m) => return (.error e, m)
  | (.ok (), m) =>
    match ← m.optimizeIf opts with
    | (.error e, m) => return (.error e, m)
    | (.ok (), m) => return (← m.emit opts t, m)

end Module

end SsaCodegen
