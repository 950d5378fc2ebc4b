import SsaCodegen.Module.Chain

/-!
# The control-flow graph of a function

The nodes of the graph are the positions of the function's blocks, so node `0` is the entry. The
edges come from the labels among the operands of each block's terminator. They are kept in both
directions.

## Main definitions

* `FlowGraph.ofFunc` — the graph of a function
* `FlowGraph.succ`, `pred` — the edges of a node
* `FlowGraph.rpo`, `postorder` — the reachable nodes in the order of a depth-first walk
-/

namespace SsaCodegen

/-- For each node, in order, those nodes of a table of successors that lead to it. -/
def invert (succs : Array (List Nat)) : Array (List Nat) :=
  (Array.range succs.size).map fun i =>
    (List.range succs.size).filter fun j => (succs[j]?.getD []).contains i

/-- The blocks of a function and, for each, the positions of its successors and predecessors. -/
structure FlowGraph where
  blocks : List BlockId
  succs : Array (List Nat)
  preds : Array (List Nat) := invert succs
  preds_eq : preds = invert succs := by rfl

namespace FlowGraph

/-- The number of nodes. -/
def size (g : FlowGraph) : Nat := g.blocks.length

/-- The entry block. A function without blocks is given block 0. -/
def entry (g : FlowGraph) : BlockId := g.blocks.head?.getD ⟨0⟩

/-- The nodes to which control can pass from a node. -/
def succ (g : FlowGraph) (i : Nat) : List Nat := g.succs[i]?.getD []

/-- The nodes from which control can pass to a node, in order. -/
def pred (g : FlowGraph) (i : Nat) : List Nat := g.preds[i]?.getD []

theorem mem_pred {g : FlowGraph} {i j : Nat} :
    j ∈ g.pred i ↔ i < g.succs.size ∧ j < g.succs.size ∧ i ∈ g.succ j := by
  rw [pred, g.preds_eq]
  by_cases h : i < g.succs.size
  · simp [invert, succ, h]
  · simp [invert, h]

/-- The node of a block. -/
def index (g : FlowGraph) (b : BlockId) : Except Fault Nat :=
  lookupOr (.foreignBlock b) (g.blocks.idxOf? b)

/-- The blocks of some nodes. -/
def blocksAt (g : FlowGraph) (nodes : List Nat) : List BlockId :=
  nodes.filterMap fun i => g.blocks[i]?

/-- The graph of a function. Every successor must be a block of the function. -/
def ofFunc (m : Module) (f : FuncId) : Except Fault FlowGraph := do
  let blocks := (← m.func f).blocks
  let succs ← blocks.mapM fun b => do
    (← m.successors b).mapM fun s => lookupOr .outOfRange (blocks.idxOf? s)
  return { blocks, succs := succs.toArray }

/-! ## Depth-first order -/

/-- A depth-first walk under way: the nodes met, and the nodes left again, the latest first. -/
structure Walk where
  met : List Nat := []
  left : List Nat := []

/-- Walk from a node to all nodes that can be reached from it over nodes not met before, along
paths of at most `depth` nodes. -/
def visit (succ : Nat → List Nat) : (depth : Nat) → Walk → Nat → Walk
  | 0, w, _ => w
  | depth + 1, w, i =>
    if w.met.contains i then w
    else
      let w := (succ i).foldl (visit succ depth) { w with met := i :: w.met }
      { w with left := i :: w.left }

/-- The nodes that can be reached from the entry, in reverse postorder: a node is listed before
all nodes that were first met from it. No path of distinct nodes is longer than the graph. -/
def rpo (g : FlowGraph) : List Nat :=
  if g.size = 0 then [] else (visit g.succ g.size {} 0).left

/-- The nodes that can be reached from the entry, in postorder. -/
def postorder (g : FlowGraph) : List Nat := g.rpo.reverse

end FlowGraph

end SsaCodegen
