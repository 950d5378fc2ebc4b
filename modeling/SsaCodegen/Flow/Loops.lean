import SsaCodegen.Flow.Dominators
import SsaCodegen.Total

/-!
# Natural loops

An edge to a node that dominates its source is a *back edge*. Its loop is the header, to which it
leads, with every node from which the source can be reached without going through the header. Back
edges to one header form one loop. The depth of a block is the number of loops that it lies in.

A set of nodes is a table of marks, one for each node.

## Main definitions

* `FlowGraph.gather` — the nodes from which some nodes can be reached
* `LoopNest.ofFunc` — the loops of a function
* `LoopNest.depth` — the number of loops around a block
-/

namespace SsaCodegen

/-- A loop: its header, and for each node whether it is in the loop. -/
structure Loop where
  header : Nat
  body : Array Bool

/-- Whether a node is in a loop. -/
def Loop.contains (l : Loop) (i : Nat) : Bool := l.body[i]?.getD false

/-- The loops of a function, in the order in which their headers are found. -/
structure LoopNest where
  graph : FlowGraph
  loops : List Loop

namespace FlowGraph

/-- The marks of the nodes in a list, among `size` nodes. -/
def marks (size : Nat) (nodes : List Nat) : Array Bool :=
  nodes.foldl (fun table i => table.setIfInBounds i true) (Array.replicate size false)

private theorem getElem?_foldl_setMark (nodes : List Nat) (table : Array Bool) (i : Nat) :
    (nodes.foldl (fun table i => table.setIfInBounds i true) table)[i]? =
      table[i]?.map (· || decide (i ∈ nodes)) := by
  induction nodes generalizing table with
  | nil => simp
  | cons j rest ih =>
    rw [List.foldl_cons, ih]
    by_cases hij : j = i
    · subst hij
      by_cases hj : j < table.size <;> simp [hj]
    · have hji : i ≠ j := fun e => hij e.symm
      simp [Array.getElem?_setIfInBounds_ne hij, hji]

/-- A node has a mark when it is in the list. -/
theorem getElem?_marks (nodes : List Nat) {size i : Nat} (hi : i < size) :
    (marks size nodes)[i]? = some (decide (i ∈ nodes)) := by
  rw [marks, getElem?_foldl_setMark]
  simp [hi]

/-- What is left to do for the nodes without a mark: one step for each and for each edge to it. -/
def unmarkedWork (g : FlowGraph) (body : Array Bool) : Nat :=
  total (fun i => if body[i]? = some false then (g.pred i).length + 1 else 0)
    (List.range body.size)

/-- Marking a node takes the work for it off. -/
theorem unmarkedWork_mark (g : FlowGraph) {body : Array Bool} {i : Nat}
    (h : body[i]? = some false) :
    g.unmarkedWork (body.setIfInBounds i true) + ((g.pred i).length + 1) ≤ g.unmarkedWork body := by
  obtain ⟨hi, hb⟩ := Array.getElem?_eq_some_iff.1 h
  simp only [unmarkedWork, Array.size_setIfInBounds]
  refine total_add_le (List.mem_range.2 hi) (fun x => ?_) ?_
  · by_cases hx : i = x
    · subst hx
      simp [hi]
    · simp [Array.getElem?_setIfInBounds_ne hx]
  · simp [hi, hb]

/-- A body with the nodes of `stack` and, going backwards, all nodes from which one of them can be
reached without going through the body. Only nodes with a mark in `reached` are taken. -/
def gather (g : FlowGraph) (reached body : Array Bool) : (stack : List Nat) → Array Bool
  | [] => body
  | i :: rest =>
    if _h : body[i]? = some false ∧ reached[i]? = some true then
      g.gather reached (body.setIfInBounds i true) (g.pred i ++ rest)
    else g.gather reached body rest
termination_by stack => g.unmarkedWork body + stack.length
decreasing_by
  · have := g.unmarkedWork_mark _h.1
    simp only [List.length_append, List.length_cons]
    omega
  · simp

/-- The back edges of a graph, each as its source and its header, in the order of their
sources. -/
def backEdges (g : FlowGraph) (order : List Nat) (d : Dominators) : List (Nat × Nat) :=
  order.flatMap fun i => ((g.succ i).filter fun j => d.dominates j i).map fun j => (i, j)

/-- Loops with a back edge added: to the loop with its header, or as a new one. -/
def addBackEdge (g : FlowGraph) (reached : Array Bool) (source header : Nat) :
    List Loop → List Loop
  | [] => [⟨header, g.gather reached (marks g.size [header]) [source]⟩]
  | l :: rest =>
    if l.header = header then ⟨header, g.gather reached l.body [source]⟩ :: rest
    else l :: g.addBackEdge reached source header rest

/-- The loops of a graph. -/
def loops (g : FlowGraph) (d : Dominators) : List Loop :=
  let order := g.rpo
  let reached := marks g.size order
  (g.backEdges order d).foldl (fun ls (i, j) => g.addBackEdge reached i j ls) []

end FlowGraph

namespace LoopNest

/-- The loops of a function. -/
def ofFunc (m : Module) (f : FuncId) : Except Fault LoopNest := do
  let g ← FlowGraph.ofFunc m f
  return ⟨g, g.loops (← g.dominators)⟩

/-- The number of loops that a block lies in. A block of another function lies in none. -/
def depth (n : LoopNest) (b : BlockId) : Nat :=
  match n.graph.blocks.idxOf? b with
  | none => 0
  | some i => n.loops.countP fun l => l.contains i

/-- The headers of the loops, in the order in which they are found. -/
def headers (n : LoopNest) : List BlockId := n.graph.blocksAt (n.loops.map Loop.header)

end LoopNest

end SsaCodegen
