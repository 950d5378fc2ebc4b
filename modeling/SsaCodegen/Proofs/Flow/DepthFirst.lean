import SsaCodegen.Proofs.Flow.Order
import SsaCodegen.Proofs.Module.Built

/-!
# Reverse postorder is a depth-first order

The order of a walk is on nodes, and nodes are positions of blocks. What it is as a list of nodes it
is as a list of blocks too: a node that can be reached is the only one in the order with its block,
and the edges of the graph are the successors of the blocks.

## Main results

* `FlowGraph.leadsTo_blocks` — a path of nodes is a path of their blocks
* `FlowGraph.nodup_blocksAt` — different nodes that can be reached have different blocks
* `FlowGraph.rpo_depthFirst` — the blocks of a function in reverse postorder
-/

namespace SsaCodegen

namespace FlowGraph

variable {g : FlowGraph} {m : Module} {f : FuncId} {b c : BlockId} {i j n : Nat}
  {nodes front back : List Nat}

/-! ## Blocks of nodes -/

theorem mem_blocksAt : b ∈ g.blocksAt nodes ↔ ∃ i ∈ nodes, g.blocks[i]? = some b := by
  rw [blocksAt, List.mem_filterMap]

theorem blocksAt_split (hb : g.blocks[i]? = some b) :
    g.blocksAt (front ++ i :: back) = g.blocksAt front ++ b :: g.blocksAt back := by
  rw [blocksAt, List.filterMap_append, List.filterMap_cons_some hb]
  rfl

/-- Different nodes that can be reached have different blocks. -/
theorem nodup_blocksAt (hofFunc : ofFunc m f = .ok g) (hnodes : nodes.Nodup)
    (hreach : ∀ i ∈ nodes, g.Reachable i) : (g.blocksAt nodes).Nodup := by
  rw [blocksAt, List.Nodup, List.pairwise_filterMap]
  refine hnodes.imp_of_mem fun {i j} hi hj hne b hb c hc heq => hne ?_
  subst heq
  have hib := idxOf?_of_reachable hofFunc (hreach i hi) hb
  have hjb := idxOf?_of_reachable hofFunc (hreach j hj) hc
  exact Option.some.inj (hib.symm.trans hjb)

/-- What a block can go on to has a node, and the edge is in the graph. -/
theorem exists_mem_succ (hofFunc : ofFunc m f = .ok g) (hb : g.blocks[i]? = some b)
    (hc : c ∈ m.succsOf b) : ∃ j ∈ g.succ i, g.blocks[j]? = some c := by
  have hmem : c ∈ g.blocks := by
    have hblocks := (sound_of_ofFunc hofFunc).2
    obtain ⟨succs, hsuccs, hown⟩ :=
      ownSuccessors_of_ofFunc hofFunc b (hblocks ▸ List.mem_of_getElem? hb)
    rw [Module.succsOf, hsuccs] at hc
    exact hblocks ▸ hown c hc
  obtain ⟨j, hj⟩ := Option.isSome_iff_exists.1 (List.isSome_idxOf?.2 hmem)
  exact ⟨j, (mem_succ_iff hofFunc hb).2 ⟨c, hc, hj⟩, getElem?_of_idxOf? hj⟩

theorem mem_succsOf (hofFunc : ofFunc m f = .ok g) (hb : g.blocks[i]? = some b)
    (hc : g.blocks[j]? = some c) (hj : j ∈ g.succ i) : c ∈ m.succsOf b := by
  obtain ⟨d, hd, hidx⟩ := (mem_succ_iff hofFunc hb).1 hj
  cases (getElem?_of_idxOf? hidx).symm.trans hc
  exact hd

theorem PathTo.leadsTo {path : List Nat} (h : g.PathTo n path) : LeadsTo g.succ 0 n := by
  induction h with
  | entry _ => exact .refl
  | step _ hj ih => exact ih.tail hj

/-- A path of nodes is a path of their blocks. -/
theorem leadsTo_blocks (hofFunc : ofFunc m f = .ok g) (h : LeadsTo g.succ i j)
    (hb : g.blocks[i]? = some b) (hc : g.blocks[j]? = some c) : LeadsTo m.succsOf b c := by
  induction h generalizing c with
  | refl =>
    cases hb.symm.trans hc
    exact .refl
  | @tail k j _ hj ih =>
    have hk := List.getElem?_eq_getElem ((sound_of_ofFunc hofFunc).1.lt_of_mem_succ hj)
    exact (ih hk).tail (mem_succsOf hofFunc hk hc hj)

/-! ## The order of the blocks -/

section Ordered

variable (hofFunc : ofFunc m f = .ok g) {order : List Nat} (hs : g.Swept order)

include hs in
theorem head?_blocksAt (hsize : 0 < g.size) : (g.blocksAt order).head? = g.blocks.head? := by
  obtain ⟨rest, rfl⟩ := List.head?_eq_some_iff.1 hs.entry
  have hentry := List.getElem?_eq_getElem hsize
  rw [← List.nil_append (0 :: rest), blocksAt_split hentry, g.blocks.head?_eq_getElem?, hentry]
  rfl

include hofFunc hs

theorem mem_blocksAt_of_succ (hb : b ∈ g.blocksAt order) (hc : c ∈ m.succsOf b) :
    c ∈ g.blocksAt order := by
  obtain ⟨i, hi, hb⟩ := mem_blocksAt.1 hb
  obtain ⟨j, hj, hc⟩ := exists_mem_succ hofFunc hb hc
  exact mem_blocksAt.2 ⟨j, hs.closed i hi j hj, hc⟩

/-- The blocks in the order are those to which the entry leads. -/
theorem mem_blocksAt_iff (hsize : 0 < g.size) (hreach : ∀ i ∈ order, g.Reachable i) :
    b ∈ g.blocksAt order ↔ ∃ e, g.blocks.head? = some e ∧ LeadsTo m.succsOf e b := by
  constructor
  · intro hb
    obtain ⟨i, hi, hb⟩ := mem_blocksAt.1 hb
    obtain ⟨path, hpath⟩ := hreach i hi
    have hentry := List.getElem?_eq_getElem hsize
    exact ⟨_, List.head?_eq_getElem?.trans hentry, leadsTo_blocks hofFunc hpath.leadsTo hentry hb⟩
  · rintro ⟨e, he, hpath⟩
    induction hpath with
    | refl => exact List.mem_of_head? ((head?_blocksAt hs hsize).trans he)
    | tail _ hc ih => exact mem_blocksAt_of_succ hofFunc hs ih hc

section Nodup

variable (hnodup : (g.blocksAt order).Nodup)
include hnodup

/-- An edge goes forward in the order, or its target leads back to its source. -/
theorem idxOf_lt_or_leadsTo (hb : b ∈ g.blocksAt order) (hc : c ∈ m.succsOf b) :
    (g.blocksAt order).idxOf b < (g.blocksAt order).idxOf c ∨ LeadsTo m.succsOf c b := by
  obtain ⟨i, hi, hbi⟩ := mem_blocksAt.1 hb
  obtain ⟨j, hj, hcj⟩ := exists_mem_succ hofFunc hbi hc
  have hmem := hs.closed i hi j hj
  obtain ⟨front, back, rfl⟩ := List.append_of_mem hi
  -- the target stands in front of the source, or is the source, or stands behind it
  rcases List.mem_append.1 hmem with hfront | hrest
  · exact .inr (leadsTo_blocks hofFunc (hs.retreat rfl hfront hj) hcj hbi)
  rcases List.mem_cons.1 hrest with rfl | hback
  · cases hbi.symm.trans hcj
    exact .inr .refl
  · obtain ⟨between, rest, rfl⟩ := List.append_of_mem hback
    rw [← List.cons_append, ← List.append_assoc, blocksAt_split hcj] at hnodup ⊢
    exact .inl (idxOf_lt_idxOf hnodup (mem_blocksAt.2 ⟨i, by simp, hbi⟩))

/-- A block in the order other than the entry has a predecessor before it. -/
theorem exists_idxOf_lt (hc : c ∈ g.blocksAt order) (hne : g.blocks.head? ≠ some c) :
    ∃ b ∈ g.blocksAt order, c ∈ m.succsOf b ∧
      (g.blocksAt order).idxOf b < (g.blocksAt order).idxOf c := by
  obtain ⟨j, hj, hcj⟩ := mem_blocksAt.1 hc
  obtain ⟨front, back, rfl⟩ := List.append_of_mem hj
  rcases hs.parent rfl with rfl | ⟨p, hp, hsucc⟩
  · exact absurd (List.head?_eq_getElem?.trans hcj) hne
  · have hb := List.getElem?_eq_getElem ((sound_of_ofFunc hofFunc).1.lt_of_mem_succ hsucc)
    refine ⟨_, mem_blocksAt.2 ⟨p, by simp [hp], hb⟩, mem_succsOf hofFunc hb hcj hsucc, ?_⟩
    rw [blocksAt_split hcj] at hnodup ⊢
    exact idxOf_lt_idxOf hnodup (mem_blocksAt.2 ⟨p, hp, hb⟩)

end Nodup

end Ordered

/-- The blocks of a function whose terminators go to its own blocks only, in reverse postorder. They
are the blocks to which the entry leads, each once, with the entry first. An edge from one of them
goes to a later one, or to one that leads back to its source, so that it is part of a cycle. And
each of them but the entry has a predecessor before it. -/
theorem rpo_depthFirst (hf : f.idx < m.funcs.size) (hown : m.OwnSuccessors f) :
    ∃ g order, ofFunc m f = .ok g ∧ g.blocks = m.blocksOf f ∧ g.blocksAt g.rpo = order ∧
      order.Nodup ∧ order.head? = (m.blocksOf f).head? ∧
      (∀ b, b ∈ order ↔ ∃ e, (m.blocksOf f).head? = some e ∧ LeadsTo m.succsOf e b) ∧
      (∀ u ∈ order, ∀ v ∈ m.succsOf u,
        order.idxOf u < order.idxOf v ∨ LeadsTo m.succsOf v u) ∧
      ∀ v ∈ order, (m.blocksOf f).head? ≠ some v →
        ∃ u ∈ order, v ∈ m.succsOf u ∧ order.idxOf u < order.idxOf v := by
  obtain ⟨g, hofFunc, hg, hblocks⟩ := exists_ofFunc hf hown
  rw [← hblocks]
  refine ⟨g, _, hofFunc, rfl, rfl, ?_⟩
  by_cases hsize : 0 < g.size
  · have hs := hg.swept hsize
    have hreach : ∀ i ∈ g.rpo, g.Reachable i := fun i hi => (hs.mem_iff hg hsize).1 hi
    have hnodup := nodup_blocksAt hofFunc hs.nodup hreach
    exact ⟨hnodup, head?_blocksAt hs hsize, fun b => mem_blocksAt_iff hofFunc hs hsize hreach,
      fun u hu v hv => idxOf_lt_or_leadsTo hofFunc hs hnodup hu hv,
      fun v hv hne => exists_idxOf_lt hofFunc hs hnodup hv hne⟩
  · have hnil : g.blocks = [] := List.length_eq_zero_iff.1 (Nat.eq_zero_of_not_pos hsize)
    simp [hnil, blocksAt]

/-- Calls that build a branch to two blocks of which the second goes to the first, a loop after the
first, and a block that nothing goes to. -/
def braidActions : List Module.Action := [
  .addFunction "f" .void [("c", .i32)],
  .addBlock ⟨0⟩ "entry", .addBlock ⟨0⟩ "first", .addBlock ⟨0⟩ "second", .addBlock ⟨0⟩ "turn",
  .addBlock ⟨0⟩ "exit", .addBlock ⟨0⟩ "lost",
  .build ⟨0⟩ (.condBr ⟨0⟩ ⟨1⟩ ⟨2⟩), .build ⟨1⟩ (.br ⟨3⟩), .build ⟨2⟩ (.condBr ⟨0⟩ ⟨3⟩ ⟨1⟩),
  .build ⟨3⟩ (.condBr ⟨0⟩ ⟨1⟩ ⟨4⟩), .build ⟨4⟩ (.ret none), .build ⟨5⟩ (.br ⟨2⟩)]

/-- The module that `braidActions` build. -/
def braidModule : Module := (braidActions.foldlM Module.Action.run {}).toOption.getD {}

theorem braidModule_ownSuccessors : braidModule.OwnSuccessors ⟨0⟩ := by
  have hblocks : braidModule.blocksOf ⟨0⟩ = [⟨0⟩, ⟨1⟩, ⟨2⟩, ⟨3⟩, ⟨4⟩, ⟨5⟩] := rfl
  rw [Module.OwnSuccessors, hblocks]
  simp only [List.forall_mem_cons]
  exact ⟨⟨[⟨1⟩, ⟨2⟩], rfl, by decide⟩, ⟨[⟨3⟩], rfl, by decide⟩, ⟨[⟨3⟩, ⟨1⟩], rfl, by decide⟩,
    ⟨[⟨1⟩, ⟨4⟩], rfl, by decide⟩, ⟨[], rfl, by decide⟩, ⟨[⟨2⟩], rfl, by decide⟩,
    List.forall_mem_nil _⟩

/-- The second block comes before the first, to which it goes. The edge that goes back is on a
cycle, and the block that nothing goes to is left out. -/
theorem rpo_depthFirst_braid :
    ∃ g, ofFunc braidModule ⟨0⟩ = .ok g ∧ g.blocksAt g.rpo = [⟨0⟩, ⟨2⟩, ⟨1⟩, ⟨3⟩, ⟨4⟩] ∧
      LeadsTo braidModule.succsOf ⟨0⟩ ⟨4⟩ ∧ ¬ LeadsTo braidModule.succsOf ⟨0⟩ ⟨5⟩ ∧
      LeadsTo braidModule.succsOf ⟨1⟩ ⟨3⟩ := by
  obtain ⟨g, order, hg, -, horder, -, -, hmem, hedge, -⟩ :=
    rpo_depthFirst (m := braidModule) (f := ⟨0⟩) (by decide) braidModule_ownSuccessors
  have heval : (ofFunc braidModule ⟨0⟩).toOption.map (fun g => g.blocksAt g.rpo) =
      some [⟨0⟩, ⟨2⟩, ⟨1⟩, ⟨3⟩, ⟨4⟩] := by decide +kernel
  rw [hg] at heval
  have hlist := horder.symm.trans (Option.some.inj heval)
  subst hlist
  have hentry {b : BlockId} (h : (braidModule.blocksOf ⟨0⟩).head? = some b) : b = ⟨0⟩ :=
    (Option.some.inj h).symm
  refine ⟨g, hg, horder, ?_, fun hlost => ?_, ?_⟩
  · obtain ⟨e, he, hpath⟩ := (hmem ⟨4⟩).1 (by decide)
    exact hentry he ▸ hpath
  · exact absurd ((hmem ⟨5⟩).2 ⟨⟨0⟩, rfl, hlost⟩) (by decide)
  · exact (hedge ⟨3⟩ (by decide) ⟨1⟩ (by decide +kernel)).resolve_left (by decide)

end FlowGraph

end SsaCodegen
