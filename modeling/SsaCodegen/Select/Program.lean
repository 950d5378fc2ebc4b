import SsaCodegen.Flow.Loops
import SsaCodegen.Select.Body
import SsaCodegen.Select.Edges

/-!
# Instruction selection

The machine code of a module. Each function with a body is selected on its own: its frame is laid
out, its blocks are set up, the entry block receives the prologue, the copies for its phis are
gathered, the instructions of each block are selected in order, and the copies are put in sequence.

## Main definitions

* `Module.selectFunc` — the code of one function
* `Module.select` — the code of a module
-/

namespace SsaCodegen

namespace Scope

open SelectM

/-- The blocks of the function without code. -/
def emptyBlocks (sc : Scope) (loops : LoopNest) : Except Fault (List Target.Block) :=
  sc.blocks.mapM fun b => do return { name := (← sc.module.block b).name, depth := loops.depth b }

/-- Append the code of each block, where the first has number `i`. -/
def fillBlocks (sc : Scope) (saves : Saves) (d : Draft) (i : Nat) : List BlockId → SelectM Draft
  | [] => return d
  | b :: rest => do
    let code ← sc.lowerInsts saves d.edges b (← sc.module.insts b)
    sc.fillBlocks saves (d.modifyBlock i fun x => { x with insts := x.insts ++ code }) (i + 1) rest

/-- The blocks of the function with their code. -/
def selectBlocks (sc : Scope) (f : Func) (loops : LoopNest) : SelectM (List Target.Block) := do
  let d : Draft := { blocks := ← sc.emptyBlocks loops }
  let (saves, code) ← sc.prologue f.params
  let d := d.modifyBlock 0 fun b => { b with insts := code }
  let d ← sc.recordPhis d
  let d ← sc.fillBlocks saves d 0 sc.blocks
  d.resolve

end Scope

namespace Module

/-- The code of a function with a body. -/
def selectFunc (m : Module) (t : Target.Spec) (f : FuncId) : Except Stop Target.Func := do
  let x ← m.func f
  let frame ← Frame.compute m f t.paramRegs.length t.word
  let loops ← LoopNest.ofFunc m f
  let (blocks, regs) ← (Scope.selectBlocks ⟨m, t, frame, x.blocks⟩ x loops).run {}
  return { name := x.name, isExternal := false, frameSize := frame.size, vregNames := regs.names
           blocks }

/-- A global variable of the target program. A string takes its bytes and a final zero. -/
def selectGlobal (m : Module) (g : Global) : Except Fault Target.Global := do
  let size ← match g.init with
    | some (.str text) => Size.fit (text.utf8ByteSize + 1)
    | _ => pure (m.types.size g.elem)
  return ⟨g.name, size, g.init⟩

/-- The code of a module. A function without a body is external. -/
def select (m : Module) (t : Target.Spec) : Except Stop Target.Program := do
  let globals ← (m.globals.toList.mapM m.selectGlobal : Except Fault _)
  let functions ← m.funcIds.mapM fun f => do
    let x ← m.func f
    if x.isDeclaration then return { name := x.name, isExternal := true }
    else m.selectFunc t f
  return ⟨functions, globals⟩

end Module

end SsaCodegen
