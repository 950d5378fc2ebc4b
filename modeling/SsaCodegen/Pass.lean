import SsaCodegen.ConstProp.Fold

/-!
# Passes

A pass improves one function at a time. The passes of this library are listed in `Pass.all`, and
`Module.optimize` runs each of them in turn over every function that has a body.
-/

namespace SsaCodegen

/-- A named transformation of one function, which says whether it changed anything. -/
structure Pass where
  name : String
  run : Module → FuncId → Except Fault (Edited Bool)

namespace Pass

/-- Sparse conditional constant propagation with folding. -/
def sccp : Pass := ⟨"ir-sccp", Module.foldFunction⟩

/-- The passes, in the order in which they run. -/
def all : List Pass := [sccp]

end Pass

/-- Run every pass over every function with a body, and say whether any changed anything. -/
def Module.optimize (m : Module) : Except Fault (Edited Bool) :=
  let funcs := m.funcIds.filter fun f => m.funcs[f.idx]?.any fun x => !x.isDeclaration
  Module.editFold (fun m (pass : Pass) => Module.editFold pass.run or false m funcs) or false m
    Pass.all

end SsaCodegen
