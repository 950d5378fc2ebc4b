import SsaCodegen.Proofs.Flow.Loops

/-!
# Loops nest

Two loops with different headers have no node in common, or one lies inside the other. This needs
nothing of the graph: control may also enter a cycle at several nodes, but such a cycle is no loop.
What makes it true is that a header dominates its loop. Two headers that dominate a common node are
ordered by dominance, and the way from the lower one down to that node does not meet the upper one.
So the lower header, and all that leads back to it, is part of the upper loop.

The loops around a node are therefore a chain, and their number is how deep the node is nested.

## Main definitions

* `Loop.nodes` — the nodes of a loop
* `Loop.Apart` — two loops have no node in common
* `Loop.Inside` — one loop is a part of another

## Main results

* `FlowGraph.InLoop.dominates` — a header dominates its loop
* `FlowGraph.InLoop.nested` — loops that share a node are nested
* `LoopNest.loops_nest` — the loops of a function nest, and depths count them
-/

namespace SsaCodegen

namespace Loop

/-- The nodes of a loop. -/
def nodes (l : Loop) : Set Nat := {x | l.contains x = true}

/-- Two loops have no node in common. -/
def Apart (l l' : Loop) : Prop := ∀ x ∈ l.nodes, x ∉ l'.nodes

/-- A loop lies inside another: the other has its header and all its nodes, and more. -/
structure Inside (inner outer : Loop) : Prop where
  header : inner.header ∈ outer.nodes
  subset : ∀ x ∈ inner.nodes, x ∈ outer.nodes
  proper : ∃ x ∈ outer.nodes, x ∉ inner.nodes

theorem finite_nodes (l : Loop) : l.nodes.Finite := by
  refine (Set.finite_lt_nat l.body.size).subset fun x hx => ?_
  by_contra hle
  have hnone : l.body[x]? = none := Array.getElem?_eq_none (Nat.le_of_not_lt hle)
  simp [nodes, contains, hnone] at hx

theorem Inside.ncard_lt {inner outer : Loop} (h : inner.Inside outer) :
    inner.nodes.ncard < outer.nodes.ncard := by
  obtain ⟨x, hx, hnot⟩ := h.proper
  exact Set.ncard_lt_ncard ⟨h.subset, fun hsup => hnot (hsup hx)⟩ outer.finite_nodes

end Loop

namespace FlowGraph

variable {g : FlowGraph} {ok ok' : Nat → Prop} {a b h i n x y : Nat} {p s path : List Nat}

/-! ## Paths from the entry -/

namespace PathTo

theorem mem_self (hp : g.PathTo n path) : n ∈ path := by
  cases hp with
  | entry _ => exact List.mem_singleton.2 rfl
  | step _ _ => exact List.mem_cons_self

theorem of_cons (hp : g.PathTo n (y :: path)) (hne : path ≠ []) :
    n = y ∧ ∃ i, g.PathTo i path ∧ y ∈ g.succ i := by
  cases hp with
  | entry _ => exact absurd rfl hne
  | step hp hj => exact ⟨rfl, _, hp, hj⟩

/-- The part of a path up to a node on it. -/
theorem upTo (hp : g.PathTo n (p ++ x :: s)) : g.PathTo x (x :: s) := by
  induction p generalizing n with
  | nil =>
    cases hp with
    | entry hsize => exact .entry hsize
    | step hp hj => exact .step hp hj
  | cons y p ih =>
    obtain ⟨-, i, hp, -⟩ := hp.of_cons (by simp)
    exact ih hp

/-- The part of a path from a node on it. -/
theorem within (hp : g.PathTo n (p ++ x :: s)) (hx : ok x) (hok : ∀ y ∈ p, ok y) :
    g.PathWithin ok x n := by
  induction p generalizing n with
  | nil =>
    cases hp with
    | entry _ => exact .refl hx
    | step _ _ => exact .refl hx
  | cons y p ih =>
    obtain ⟨hy, hrest⟩ := List.forall_mem_cons.1 hok
    obtain ⟨rfl, i, hp, hj⟩ := hp.of_cons (by simp)
    exact (ih hp hrest).snoc hj hy

theorem reachable_of_mem (hp : g.PathTo n path) (hx : x ∈ path) : g.Reachable x := by
  obtain ⟨p, s, rfl⟩ := List.append_of_mem hx
  exact ⟨_, hp.upTo⟩

end PathTo

namespace PathWithin

theorem trans (hp : g.PathWithin ok i x) (hq : g.PathWithin ok x n) : g.PathWithin ok i n := by
  induction hp with
  | refl _ => exact hq
  | step hi hj _ ih => exact .step hi hj (ih hq)

/-- What holds of all nodes from which the target can be reached holds along a path to it. -/
theorem imp (hp : g.PathWithin ok i n) (hok : ∀ {x}, g.PathWithin ok x n → ok' x) :
    g.PathWithin ok' i n := by
  induction hp with
  | refl hn => exact .refl (hok (.refl hn))
  | step hi hj hp ih => exact .step (hok (.step hi hj hp)) hj (ih hok)

/-- A path from the entry goes on along another path. -/
theorem prolong (hp : g.PathWithin ok x n) (hs : g.PathTo x s) :
    ∃ p, g.PathTo n (p ++ s) ∧ ∀ y ∈ p, ok y := by
  induction hp generalizing s with
  | refl _ => exact ⟨[], hs, List.forall_mem_nil _⟩
  | @step i j n _ hj hp ih =>
    obtain ⟨p, hpath, hok⟩ := ih (hs.step hj)
    refine ⟨p ++ [j], by simpa using hpath, ?_⟩
    simp only [List.mem_append, List.mem_singleton]
    rintro y (hy | rfl)
    · exact hok y hy
    · exact hp.source

end PathWithin

/-! ## Dominance is an order -/

namespace Dominates

/-- A dominator of the end of a path that does not come after a node on it dominates that node: one
may come to the node in any other way. -/
theorem above (hb : g.Dominates b n) (hp : g.PathTo n (p ++ a :: s)) (hbp : b ∉ p) :
    g.Dominates b a := by
  intro path hpath
  have hrest : g.PathWithin (fun y => y = a ∨ y ∈ p) a n := hp.within (.inl rfl) fun y hy => .inr hy
  obtain ⟨q, hq, hok⟩ := hrest.prolong hpath
  rcases List.mem_append.1 (hb _ hq) with hmem | hmem
  · rcases hok b hmem with rfl | hmem
    · exact hpath.mem_self
    · exact absurd hmem hbp
  · exact hmem

/-- Of two nodes on all paths to a third, one is on all paths to the other. -/
theorem total (ha : g.Dominates a n) (hb : g.Dominates b n) (hn : g.Reachable n) :
    g.Dominates a b ∨ g.Dominates b a := by
  obtain ⟨path, hpath⟩ := hn
  obtain ⟨p, s, rfl, hap⟩ := List.eq_append_cons_of_mem (ha path hpath)
  by_cases hbp : b ∈ p
  · obtain ⟨q, t, rfl⟩ := List.append_of_mem hbp
    rw [List.append_assoc, List.cons_append] at hpath
    exact .inl (ha.above hpath fun haq => hap (List.mem_append_left _ haq))
  · exact .inr (hb.above hpath hbp)

/-- Two nodes that dominate each other are the same: a shortest path to one of them meets the other
on the way, and so the first again. -/
theorem antisymm (hab : g.Dominates a b) (hba : g.Dominates b a) (ha : g.Reachable a) : a = b := by
  obtain ⟨path, hpath⟩ := ha
  induction hlen : path.length using Nat.strongRecOn generalizing path with
  | _ len ih =>
    obtain ⟨p, s, rfl⟩ := List.append_of_mem (hba path hpath)
    rcases List.mem_cons.1 (hab _ hpath.upTo) with heq | hmem
    · exact heq
    · obtain ⟨q, t, rfl⟩ := List.append_of_mem hmem
      rw [← List.cons_append, ← List.append_assoc] at hpath
      exact ih _ (by simp at hlen ⊢; omega) _ hpath.upTo rfl

end Dominates

/-! ## Loops that share a node -/

namespace InLoop

theorem reachable (hh : g.IsHeader h) (hx : g.InLoop h x) : g.Reachable x := by
  rcases hx with rfl | ⟨n, -, hp⟩
  · exact hh.reachable
  · exact hp.source.1

/-- A header dominates its loop. -/
theorem dominates (hx : g.InLoop h x) : g.Dominates h x := by
  rcases hx with rfl | ⟨n, hn, hp⟩
  · exact fun _ hpath => hpath.mem_self
  · intro path hpath
    obtain ⟨q, hq, hok⟩ := hp.prolong hpath
    rcases List.mem_append.1 (hn.2.2 _ hq) with hmem | hmem
    · exact absurd rfl (hok h hmem).2
    · exact hmem

section Nested

variable (hb : g.IsHeader b) (hab : g.Dominates a b) (hne : a ≠ b)
include hb hab hne

/-- A strict dominator of a header is not in its loop. -/
theorem ne_dominator (hx : g.InLoop b x) : x ≠ a := by
  rintro rfl
  exact hne (hab.antisymm hx.dominates (hx.reachable hb))

/-- The way from a header down to a node of its loop does not meet a strict dominator of the
header. -/
theorem descends (hx : g.InLoop b x) : g.PathWithin (fun y => g.Reachable y ∧ y ≠ a) b x := by
  obtain ⟨path, hpath⟩ := hx.reachable hb
  obtain ⟨p, s, rfl, hbp⟩ := List.eq_append_cons_of_mem (hx.dominates path hpath)
  refine hpath.within ⟨hb.reachable, hne.symm⟩ fun y hy => ⟨?_, ?_⟩
  · exact hpath.reachable_of_mem (List.mem_append_left _ hy)
  · rintro rfl
    have hreach : g.Reachable y := hpath.reachable_of_mem (List.mem_append_left _ hy)
    obtain ⟨q, t, rfl⟩ := List.append_of_mem hy
    rw [List.append_assoc, List.cons_append] at hpath
    have hby := hx.dominates.above hpath fun hbq => hbp (List.mem_append_left _ hbq)
    exact hne (hab.antisymm hby hreach)

/-- The way from a node of a loop back to the header does not meet it either. -/
theorem returns (hx : g.InLoop b x) : g.PathWithin (fun y => g.Reachable y ∧ y ≠ a) x b := by
  rcases hx with rfl | ⟨n, hn, hp⟩
  · exact .refl ⟨hb.reachable, hne.symm⟩
  · refine (hp.imp fun {y} hy => ⟨hy.source.1, ?_⟩).snoc hn.2.1 ⟨hb.reachable, hne.symm⟩
    exact ne_dominator hb hab hne (.inr ⟨n, hn, hy⟩)

/-- A loop that shares a node with the loop of a strict dominator of its header is a part of it. -/
theorem absorbed (hxa : g.InLoop a x) (hxb : g.InLoop b x) (hy : g.InLoop b y) : g.InLoop a y := by
  rcases hxa with rfl | ⟨n, hn, hp⟩
  · exact absurd rfl (ne_dominator hb hab hne hxb)
  · exact .inr ⟨n, hn, ((returns hb hab hne hy).trans (descends hb hab hne hxb)).trans hp⟩

end Nested

/-- Of two loops that share a node, one is a part of the other. -/
theorem nested (ha : g.IsHeader a) (hb : g.IsHeader b) (hne : a ≠ b) (hxa : g.InLoop a x)
    (hxb : g.InLoop b x) :
    ((∀ {y}, g.InLoop a y → g.InLoop b y) ∧ ¬ g.InLoop a b) ∨
      ((∀ {y}, g.InLoop b y → g.InLoop a y) ∧ ¬ g.InLoop b a) := by
  rcases hxa.dominates.total hxb.dominates (hxa.reachable ha) with hab | hba
  · exact .inr ⟨fun hy => absorbed hb hab hne hxa hxb hy,
      fun hin => ne_dominator hb hab hne hin rfl⟩
  · exact .inl ⟨fun hy => absorbed ha hba hne.symm hxb hxa hy,
      fun hin => ne_dominator ha hba hne.symm hin rfl⟩

end InLoop

/-- The loops of a graph with different headers are apart, or one lies inside the other. -/
theorem Collected.apart_or_inside {edges : List (Nat × Nat)} {ls : List Loop}
    (hc : g.Collected edges ls) (hedge : ∀ n h, (n, h) ∈ edges ↔ g.BackEdge n h) {l l' : Loop}
    (hl : l ∈ ls) (hl' : l' ∈ ls) (hne : l.header ≠ l'.header) :
    l.Apart l' ∨ l.Inside l' ∨ l'.Inside l := by
  have hheader {l : Loop} (hl : l ∈ ls) : g.IsHeader l.header := by
    obtain ⟨n, hn⟩ := (hc.header l.header).1 (List.mem_map_of_mem hl)
    exact ⟨n, (hedge n _).1 hn⟩
  have hnodes {l : Loop} (hl : l ∈ ls) {x : Nat} : x ∈ l.nodes ↔ g.InLoop l.header x :=
    hc.contains_iff hedge hl
  have hinside {l l' : Loop} (hl : l ∈ ls) (hl' : l' ∈ ls)
      (hsub : ∀ {y}, g.InLoop l.header y → g.InLoop l'.header y)
      (hnot : ¬ g.InLoop l.header l'.header) : l.Inside l' := by
    refine ⟨(hnodes hl').2 (hsub (.inl rfl)), fun y hy => (hnodes hl').2 (hsub ((hnodes hl).1 hy)),
      l'.header, (hnodes hl').2 (.inl rfl), fun hmem => hnot ((hnodes hl).1 hmem)⟩
  by_cases hshare : ∃ x ∈ l.nodes, x ∈ l'.nodes
  · obtain ⟨x, hx, hx'⟩ := hshare
    rcases InLoop.nested (hheader hl) (hheader hl') hne ((hnodes hl).1 hx) ((hnodes hl').1 hx') with
      ⟨hsub, hnot⟩ | ⟨hsub, hnot⟩
    · exact .inr (.inl (hinside hl hl' hsub hnot))
    · exact .inr (.inr (hinside hl' hl hsub hnot))
  · exact .inl fun x hx hx' => hshare ⟨x, hx, hx'⟩

end FlowGraph

namespace LoopNest

open FlowGraph

/-- Loops of which each two lie one inside the other can be put in order, the outermost first. -/
theorem exists_chain {ls : List Loop} (hnodup : (ls.map Loop.header).Nodup)
    (hnested : ∀ l ∈ ls, ∀ l' ∈ ls, l.header ≠ l'.header → l.Inside l' ∨ l'.Inside l) :
    ∃ chain : List Loop, chain.Perm ls ∧ chain.Pairwise fun outer inner => inner.Inside outer := by
  -- an outer loop has more nodes, so the order is by their number
  let larger (l l' : Loop) : Bool := decide (l'.nodes.ncard ≤ l.nodes.ncard)
  have hperm := List.mergeSort_perm ls larger
  have hsorted : (ls.mergeSort larger).Pairwise fun l l' => larger l l' = true := by
    refine List.pairwise_mergeSort (fun l l' l'' hl hl' => ?_) (fun l l' => ?_) ls
    · simp only [larger, decide_eq_true_eq] at hl hl' ⊢
      exact Nat.le_trans hl' hl
    · simpa [larger] using Nat.le_total _ _
  have hheaders : (ls.mergeSort larger).Pairwise fun l l' => l.header ≠ l'.header :=
    List.pairwise_map.1 ((hperm.map Loop.header).nodup_iff.2 hnodup)
  refine ⟨_, hperm, (hsorted.and hheaders).imp_of_mem fun {l l'} hl hl' h => ?_⟩
  rcases hnested l (hperm.mem_iff.1 hl) l' (hperm.mem_iff.1 hl') h.2 with hin | hin
  · exact absurd hin.ncard_lt (Nat.not_lt.2 (of_decide_eq_true h.1))
  · exact hin

/-- The loops of a function whose terminators go to its own blocks only nest. There is one for each
header, with the nodes of that header's loop, and the header dominates them. Loops with different
headers are disjoint, or one is a part of the other, which then has its header too and is larger.
The loops around a block, in the order of inclusion, are a chain as long as the depth of the
block. -/
theorem loops_nest {m : Module} {f : FuncId} (hf : f.idx < m.funcs.size)
    (hown : m.OwnSuccessors f) :
    ∃ n d, ofFunc m f = .ok n ∧ n.graph.dominators = .ok d ∧ n.graph.blocks = m.blocksOf f ∧
      (n.loops.map Loop.header).Nodup ∧
      (∀ h, h ∈ n.loops.map Loop.header ↔ n.graph.IsHeader h) ∧
      (∀ l ∈ n.loops, ∀ x, x ∈ l.nodes ↔ n.graph.InLoop l.header x) ∧
      (∀ l ∈ n.loops, ∀ x ∈ l.nodes, n.graph.Reachable x ∧ n.graph.Dominates l.header x ∧
        d.dominates l.header x = true) ∧
      (∀ l ∈ n.loops, ∀ l' ∈ n.loops, l.header ≠ l'.header →
        l.Apart l' ∨ l.Inside l' ∨ l'.Inside l) ∧
      ∀ b ∈ m.blocksOf f, ∃ i, ∃ chain : List Loop, n.graph.blocks.idxOf? b = some i ∧
        chain.Perm (n.loops.filter fun l => l.contains i) ∧
        chain.Pairwise (fun outer inner => inner.Inside outer) ∧ n.depth b = chain.length := by
  obtain ⟨g, hofFunc, hg, hblocks⟩ := exists_ofFunc hf hown
  obtain ⟨d, hd, hdom⟩ := hg.exists_dominates
  obtain ⟨hc, hedge⟩ := hg.collected hdom
  have hheader (h : Nat) : h ∈ (g.loops d).map Loop.header ↔ g.IsHeader h := by
    rw [hc.header, IsHeader]
    simp only [hedge]
  have hnodes {l : Loop} (hl : l ∈ g.loops d) (x : Nat) : x ∈ l.nodes ↔ g.InLoop l.header x :=
    hc.contains_iff hedge hl
  have hnest {l l' : Loop} (hl : l ∈ g.loops d) (hl' : l' ∈ g.loops d)
      (hne : l.header ≠ l'.header) := hc.apart_or_inside hedge hl hl' hne
  refine ⟨⟨g, g.loops d⟩, d, bind_eq_ok.2 ⟨g, hofFunc, bind_eq_ok.2 ⟨d, hd, rfl⟩⟩, hd, hblocks,
    hc.nodup, hheader, fun l hl => hnodes hl, fun l hl x hx => ?_, fun l hl l' hl' => hnest hl hl',
    fun b hb => ?_⟩
  · have hin := (hnodes hl x).1 hx
    have hreach := hin.reachable ((hheader _).1 (List.mem_map_of_mem hl))
    exact ⟨hreach, hin.dominates, (hdom hreach).2 hin.dominates⟩
  · obtain ⟨i, hi⟩ : ∃ i, g.blocks.idxOf? b = some i :=
      Option.isSome_iff_exists.1 (List.isSome_idxOf?.2 (hblocks ▸ hb))
    have hheaders : (((g.loops d).filter fun l => l.contains i).map Loop.header).Nodup :=
      hc.nodup.sublist (List.filter_sublist.map _)
    obtain ⟨chain, hperm, hchain⟩ := exists_chain hheaders fun l hl l' hl' hne => by
      obtain ⟨hl, hil⟩ := List.mem_filter.1 hl
      obtain ⟨hl', hil'⟩ := List.mem_filter.1 hl'
      exact (hnest hl hl' hne).resolve_left fun hapart => hapart i hil hil'
    refine ⟨i, chain, hi, hperm, hchain, ?_⟩
    rw [depth, hi, hperm.length_eq]
    exact List.countP_eq_length_filter

/-- Calls that build a loop around a cycle of two blocks, which is entered at both and is no loop,
and around a block that is a loop of its own. -/
def tangleActions : List Module.Action := [
  .addFunction "f" .void [("c", .i32)],
  .addBlock ⟨0⟩ "entry", .addBlock ⟨0⟩ "outer", .addBlock ⟨0⟩ "left", .addBlock ⟨0⟩ "right",
  .addBlock ⟨0⟩ "inner", .addBlock ⟨0⟩ "exit",
  .build ⟨0⟩ (.br ⟨1⟩), .build ⟨1⟩ (.condBr ⟨0⟩ ⟨2⟩ ⟨3⟩), .build ⟨2⟩ (.condBr ⟨0⟩ ⟨3⟩ ⟨5⟩),
  .build ⟨3⟩ (.condBr ⟨0⟩ ⟨2⟩ ⟨4⟩), .build ⟨4⟩ (.condBr ⟨0⟩ ⟨4⟩ ⟨1⟩), .build ⟨5⟩ (.ret none)]

/-- The module that `tangleActions` build. -/
def tangleModule : Module := (tangleActions.foldlM Module.Action.run {}).toOption.getD {}

theorem tangleModule_ownSuccessors : tangleModule.OwnSuccessors ⟨0⟩ := by
  have hblocks : tangleModule.blocksOf ⟨0⟩ = [⟨0⟩, ⟨1⟩, ⟨2⟩, ⟨3⟩, ⟨4⟩, ⟨5⟩] := rfl
  rw [Module.OwnSuccessors, hblocks]
  simp only [List.forall_mem_cons]
  exact ⟨⟨[⟨1⟩], rfl, by decide⟩, ⟨[⟨2⟩, ⟨3⟩], rfl, by decide⟩, ⟨[⟨3⟩, ⟨5⟩], rfl, by decide⟩,
    ⟨[⟨2⟩, ⟨4⟩], rfl, by decide⟩, ⟨[⟨4⟩, ⟨1⟩], rfl, by decide⟩, ⟨[], rfl, by decide⟩,
    List.forall_mem_nil _⟩

/-- The block that is a loop of its own lies inside the outer loop, whose header dominates the two
blocks of the cycle, and is two loops deep. -/
theorem loops_nest_tangle :
    ∃ n inner outer, ofFunc tangleModule ⟨0⟩ = .ok n ∧ n.loops = [inner, outer] ∧
      inner.header = 4 ∧ outer.header = 1 ∧ n.graph.Dominates 1 2 ∧ n.graph.Dominates 1 3 ∧
      inner.Inside outer ∧ n.depth ⟨4⟩ = 2 ∧
      ∃ chain : List Loop, chain.Perm [inner, outer] ∧ chain.length = 2 ∧
        chain.Pairwise fun outer inner => inner.Inside outer := by
  obtain ⟨n, d, hn, -, hblocks, -, -, -, hdom, hnest, hchain⟩ :=
    loops_nest (m := tangleModule) (f := ⟨0⟩) (by decide) tangleModule_ownSuccessors
  have heval : (ofFunc tangleModule ⟨0⟩).toOption.map
      (fun n => (n.loops.map fun l => (l.header, l.body), n.depth ⟨4⟩)) =
        some ([(4, #[false, false, false, false, true, false]),
          (1, #[false, true, true, true, true, false])], 2) := by decide +kernel
  rw [hn] at heval
  obtain ⟨hloops, hdepth⟩ := Prod.mk.inj (Option.some.inj heval)
  have hlist : n.loops = [⟨4, #[false, false, false, false, true, false]⟩,
      ⟨1, #[false, true, true, true, true, false]⟩] := by
    have hmap := congrArg (List.map fun p : Nat × Array Bool => Loop.mk p.1 p.2) hloops
    rw [List.map_map] at hmap
    exact (List.map_id n.loops).symm.trans hmap
  have hinner : (⟨4, #[false, false, false, false, true, false]⟩ : Loop) ∈ n.loops := by
    rw [hlist]
    exact List.mem_cons_self
  have houter : (⟨1, #[false, true, true, true, true, false]⟩ : Loop) ∈ n.loops := by
    rw [hlist]
    exact List.mem_cons_of_mem _ (List.mem_singleton.2 rfl)
  have hleft := (hdom _ houter 2 rfl).2.1
  have hright := (hdom _ houter 3 rfl).2.1
  obtain ⟨i, chain, hi, hperm, hpairs, hlen⟩ := hchain ⟨4⟩ (by decide)
  have hfour : (tangleModule.blocksOf ⟨0⟩).idxOf? ⟨4⟩ = some 4 := rfl
  rw [hblocks, hfour] at hi
  cases hi
  rw [hlist] at hperm
  refine ⟨n, _, _, hn, hlist, rfl, rfl, hleft, hright, ?_, hdepth, chain, hperm,
    hlen.symm.trans hdepth, hpairs⟩
  rcases hnest _ hinner _ houter (by decide) with hapart | hin | hin
  · exact absurd rfl (hapart 4 rfl)
  · exact hin
  · exact absurd hin.header (by simp [Loop.nodes, Loop.contains])

end LoopNest

end SsaCodegen
