import SsaCodegen.Flow.Graph

/-!
# Dominators

A node dominates another when every path from the entry to the other goes through it. The table of
immediate dominators is found by refinement: in reverse postorder, each node gets the nearest
common dominator of those predecessors that have one already, until a pass changes nothing.

The *rank* of a node is its position in that order.

## Main definitions

* `FlowGraph.nearest` — the nearest common dominator of two nodes
* `FlowGraph.dominators` — the table for the nodes that can be reached
* `Dominators.dominates` — the verdict for two nodes
-/

namespace SsaCodegen

/-- For each node its immediate dominator. The entry is its own, and a node that cannot be reached
has none. -/
structure Dominators where
  table : Array (Option Nat)
deriving DecidableEq

namespace Dominators

/-- The immediate dominator of a node. -/
def idom (d : Dominators) (i : Nat) : Option Nat := d.table[i]?.join

/-- The node, its immediate dominator, that one's immediate dominator and so on, over at most
`steps` steps. -/
def ancestorsWithin (d : Dominators) : (steps : Nat) → Nat → List Nat
  | 0, i => [i]
  | steps + 1, i =>
    match d.idom i with
    | none => [i]
    | some j => if j = i then [i] else i :: d.ancestorsWithin steps j

/-- The nodes that dominate a node, from itself up to the entry. -/
def ancestors (d : Dominators) (i : Nat) : List Nat := d.ancestorsWithin d.table.size i

/-- Whether the first node dominates the second. -/
def dominates (d : Dominators) (i j : Nat) : Bool := i ∈ d.ancestors j

/-- The nodes that dominate a node, in ascending order. -/
def dominatorsOf (d : Dominators) (j : Nat) : List Nat := (d.ancestors j).mergeSort

end Dominators

namespace FlowGraph

/-- For each of `size` nodes its position in a list, and the length of the list for a node that is
not in it. -/
def ranks (size : Nat) (order : List Nat) : Array Nat :=
  order.zipIdx.foldl (fun table (i, k) => table.setIfInBounds i k)
    (Array.replicate size order.length)

private theorem getElem?_foldl_setRank {order : List Nat} (h : order.Nodup) (table : Array Nat)
    (n i : Nat) :
    ((order.zipIdx n).foldl (fun table (i, k) => table.setIfInBounds i k) table)[i]? =
      table[i]?.map fun k => if i ∈ order then n + order.idxOf i else k := by
  induction order generalizing table n with
  | nil => simp
  | cons j rest ih =>
    obtain ⟨hj, hrest⟩ := List.nodup_cons.1 h
    rw [List.zipIdx_cons, List.foldl_cons, ih hrest]
    by_cases hij : j = i
    · subst hij
      by_cases hs : j < table.size <;> simp [hj, hs]
    · have hji : i ≠ j := fun e => hij e.symm
      have hidx : (j :: rest).idxOf i = rest.idxOf i + 1 := by
        simp [List.idxOf_cons, beq_eq_false_iff_ne.2 hij]
      simp only [Array.getElem?_setIfInBounds_ne hij, List.mem_cons, hji, false_or, hidx]
      congr 1
      funext k
      split <;> omega

/-- In an order without repetition, the table of ranks holds the position of each node. -/
theorem getElem?_ranks {order : List Nat} (h : order.Nodup) {size i : Nat} (hi : i < size) :
    (ranks size order)[i]? = some (order.idxOf i) := by
  rw [ranks, getElem?_foldl_setRank h]
  by_cases hm : i ∈ order
  · simp [hi, hm]
  · rw [List.idxOf_eq_length hm]
    simp [hi, hm]

/-- The nearest common dominator of two nodes in a partial table: of the two, the one of higher rank
goes up until they meet. -/
def nearest (rank : Nat → Nat) (d : Dominators) (i j : Nat) : Except Fault Nat :=
  if i = j then .ok i
  else if rank j < rank i then
    match d.idom i with
    | none => .error (.noDominatorYet i)
    | some k => if rank k < rank i then nearest rank d k j else .error .endless
  else if rank i < rank j then
    match d.idom j with
    | none => .error (.noDominatorYet j)
    | some k => if rank k < rank j then nearest rank d i k else .error .endless
  else .error .endless
termination_by rank i + rank j

/-- The nearest common dominator of those nodes of a list that have a dominator already. -/
def nearestAmong (rank : Nat → Nat) (d : Dominators) (acc : Option Nat) :
    List Nat → Except Fault (Option Nat)
  | [] => .ok acc
  | i :: rest =>
    match d.idom i, acc with
    | none, _ => nearestAmong rank d acc rest
    | some _, none => nearestAmong rank d (some i) rest
    | some _, some j => do nearestAmong rank d (some (← nearest rank d i j)) rest

/-- One pass over a list of nodes, in order. -/
def refineEach (g : FlowGraph) (rank : Nat → Nat) (d : Dominators) :
    List Nat → Except Fault Dominators
  | [] => .ok d
  | i :: rest => do
    match ← nearestAmong rank d none (g.pred i) with
    | none => g.refineEach rank d rest
    | some j => g.refineEach rank ⟨d.table.setIfInBounds i (some j)⟩ rest

/-- How far the dominators of a table lie from the entry, over all nodes of a list. A refinement
moves them nearer. -/
def distance (order : List Nat) (rank : Nat → Nat) (d : Dominators) : Nat :=
  total (fun i => ((d.idom i).map rank).getD order.length) order

/-- Passes over the nodes after the first, until one changes nothing. -/
def refine (g : FlowGraph) (order : List Nat) (rank : Nat → Nat) (d : Dominators) :
    Except Fault Dominators :=
  match g.refineEach rank d order.tail with
  | .error f => .error f
  | .ok d' =>
    if d' = d then .ok d
    else if distance order rank d' < distance order rank d then g.refine order rank d'
    else .error .endless
termination_by distance order rank d

/-- The dominators of the nodes that can be reached from the entry. -/
def dominators (g : FlowGraph) : Except Fault Dominators :=
  let blank := Array.replicate g.size none
  let order := g.rpo
  let table := ranks g.size order
  match order.head? with
  | none => .ok ⟨blank⟩
  | some entry =>
    g.refine order (fun i => table[i]?.getD order.length)
      ⟨blank.setIfInBounds entry (some entry)⟩

end FlowGraph

end SsaCodegen
