import Mathlib.Data.Set.Card
import SsaCodegen.Flow.Loops
import SsaCodegen.Proofs.Flow.Dominators

/-!
# Loop depths are exact

The body of a loop is gathered backwards from the sources of its back edges. One walk stops at the
header and at everything that earlier walks for the same header have marked. That loses nothing: a
marked node other than the header reaches an earlier source around the header, and so does every node
from which the marked one can be reached in that way.

## Main definitions

* `FlowGraph.BackEdge`, `IsHeader` — an edge to a dominator of its source, and where it leads
* `FlowGraph.PathWithin` — a path all nodes of which have a property
* `FlowGraph.InLoop` — the nodes of the loop of a header
* `FlowGraph.Gathered`, `Collected` — what holds of a body, and of the loops, after some back edges

## Main results

* `FlowGraph.Sound.gather_iff` — what one walk marks
* `FlowGraph.Gathered.gather` — a body after one more back edge
* `FlowGraph.Sound.collected` — the loops after all of them
* `LoopNest.depth_exact` — headers and depths of a function
-/

namespace SsaCodegen

namespace FlowGraph

/-- An edge from a node that can be reached to one that dominates it. -/
def BackEdge (g : FlowGraph) (n h : Nat) : Prop := g.Reachable n ∧ h ∈ g.succ n ∧ g.Dominates h n

/-- A back edge leads to the node. -/
def IsHeader (g : FlowGraph) (h : Nat) : Prop := ∃ n, g.BackEdge n h

/-- A path from a node to another on which all nodes, the two ends among them, have a property. -/
inductive PathWithin (g : FlowGraph) (ok : Nat → Prop) : Nat → Nat → Prop
  | refl {n} (hn : ok n) : PathWithin g ok n n
  | step {i j n} (hi : ok i) (hj : j ∈ g.succ i) (hp : PathWithin g ok j n) : PathWithin g ok i n

/-- The header, and the nodes that reach the source of one of its back edges over nodes that can be
reached, without passing through the header. -/
def InLoop (g : FlowGraph) (h x : Nat) : Prop :=
  x = h ∨ ∃ n, g.BackEdge n h ∧ g.PathWithin (fun y => g.Reachable y ∧ y ≠ h) x n

variable {g : FlowGraph} {reached body : Array Bool} {ls : List Loop}
  {ok ok' latch : Nat → Prop} {h i j n s x : Nat}

theorem Sound.lt_of_reachable (hg : g.Sound) (hx : g.Reachable x) : x < g.size := by
  obtain ⟨path, hpath⟩ := hx
  exact hpath.lt hg

/-! ## Paths -/

namespace PathWithin

theorem mono (hp : g.PathWithin ok i n) (hle : ∀ x, ok x → ok' x) : g.PathWithin ok' i n := by
  induction hp with
  | refl hn => exact .refl (hle _ hn)
  | step hi hj _ ih => exact .step (hle _ hi) hj ih

theorem source (hp : g.PathWithin ok i n) : ok i := by
  cases hp with
  | refl hn => exact hn
  | step hi _ _ => exact hi

theorem target (hp : g.PathWithin ok i n) : ok n := by
  induction hp with
  | refl hn => exact hn
  | step _ _ _ ih => exact ih

/-- One more edge at the end of a path. -/
theorem snoc (hp : g.PathWithin ok i n) (hj : j ∈ g.succ n) (hok : ok j) : g.PathWithin ok i j := by
  induction hp with
  | refl hn => exact .step hn hj (.refl hok)
  | step hi hj' _ ih => exact .step hi hj' (ih hj)

/-- A path starts at a given node, or has a part before it that leads to a predecessor of it, or does
not meet it. -/
theorem split_at (hp : g.PathWithin ok i n) (x : Nat) :
    i = x ∨ (∃ p, x ∈ g.succ p ∧ g.PathWithin (fun y => ok y ∧ y ≠ x) i p) ∨
      g.PathWithin (fun y => ok y ∧ y ≠ x) i n := by
  induction hp with
  | @refl n hn =>
    by_cases hx : n = x
    · exact .inl hx
    · exact .inr (.inr (.refl ⟨hn, hx⟩))
  | @step i j n hi hj _ ih =>
    by_cases hx : i = x
    · exact .inl hx
    · rcases ih with rfl | ⟨p, hsucc, hp⟩ | hp
      · exact .inr (.inl ⟨i, hj, .refl ⟨hi, hx⟩⟩)
      · exact .inr (.inl ⟨p, hsucc, .step ⟨hi, hx⟩ hj hp⟩)
      · exact .inr (.inr (.step ⟨hi, hx⟩ hj hp))

end PathWithin

/-! ## One walk -/

/-- The nodes that a walk can still mark. -/
def Unmarked (reached body : Array Bool) (x : Nat) : Prop :=
  body[x]? = some false ∧ reached[x]? = some true

theorem mark_eq_true (hi : body[i]? = some false) :
    (body.setIfInBounds i true)[x]? = some true ↔ x = i ∨ body[x]? = some true := by
  obtain ⟨hlt, -⟩ := Array.getElem?_eq_some_iff.1 hi
  by_cases hx : i = x
  · subst hx
    simp [hlt]
  · simp [Array.getElem?_setIfInBounds_ne hx, Ne.symm hx]

theorem unmarked_mark (hi : body[i]? = some false) :
    Unmarked reached (body.setIfInBounds i true) x ↔ Unmarked reached body x ∧ x ≠ i := by
  obtain ⟨hlt, -⟩ := Array.getElem?_eq_some_iff.1 hi
  by_cases hx : i = x
  · subst hx
    simp [Unmarked, hlt]
  · simp [Unmarked, Array.getElem?_setIfInBounds_ne hx, Ne.symm hx]

/-- A walk marks the nodes that reach the stack over nodes that had no mark. -/
theorem Sound.gather_iff (hg : g.Sound) (reached body : Array Bool) (stack : List Nat) :
    (g.gather reached body stack)[x]? = some true ↔
      body[x]? = some true ∨ ∃ s ∈ stack, g.PathWithin (Unmarked reached body) x s := by
  fun_induction gather g reached body stack with
  | case1 body => simp
  | case2 body i rest hi ih =>
    have hmono {y : Nat} (hy : Unmarked reached (body.setIfInBounds i true) y) :
        Unmarked reached body y := ((unmarked_mark hi.1).1 hy).1
    rw [ih, mark_eq_true hi.1]
    constructor
    · rintro ((rfl | hx) | ⟨s, hs, hp⟩)
      · exact .inr ⟨x, by simp, .refl hi⟩
      · exact .inl hx
      · have hp' := hp.mono fun y hy => hmono hy
        rcases List.mem_append.1 hs with hs | hs
        · exact .inr ⟨i, by simp, hp'.snoc (hg.mem_pred_iff.1 hs) hi⟩
        · exact .inr ⟨s, by simp [hs], hp'⟩
    · rintro (hx | ⟨s, hs, hp⟩)
      · exact .inl (.inr hx)
      · -- the part of the path before the node just marked meets only nodes without a mark
        have hle : ∀ y, Unmarked reached body y ∧ y ≠ i →
            Unmarked reached (body.setIfInBounds i true) y := fun y => (unmarked_mark hi.1).2
        rcases hp.split_at i with rfl | ⟨p, hsucc, hp⟩ | hp
        · exact .inl (.inl rfl)
        · exact .inr ⟨p, by simp [hg.mem_pred_iff.2 hsucc], hp.mono hle⟩
        · have hsi : s ≠ i := hp.target.2
          have hrest : s ∈ rest := (List.mem_cons.1 hs).resolve_left hsi
          exact .inr ⟨s, by simp [hrest], hp.mono hle⟩
  | case3 body i rest hi ih =>
    rw [ih]
    refine or_congr_right ⟨fun ⟨s, hs, hp⟩ => ⟨s, by simp [hs], hp⟩, fun ⟨s, hs, hp⟩ => ?_⟩
    rcases List.mem_cons.1 hs with rfl | hs
    · exact absurd hp.target hi
    · exact ⟨s, hs, hp⟩

theorem size_gather (g : FlowGraph) (reached body : Array Bool) (stack : List Nat) :
    (g.gather reached body stack).size = body.size := by
  fun_induction gather g reached body stack with
  | case1 body => rfl
  | case2 body i rest hi ih => rw [ih, Array.size_setIfInBounds]
  | case3 body i rest hi ih => exact ih

theorem size_marks (size : Nat) (nodes : List Nat) : (marks size nodes).size = size := by
  rw [marks]
  exact List.foldlRecOn (motive := fun table : Array Bool => table.size = size) _ _
    Array.size_replicate fun _ htable _ _ => Array.size_setIfInBounds.trans htable

/-- Exactly the nodes of a list have a mark. -/
theorem marks_eq_true {size : Nat} {nodes : List Nat} (hlt : ∀ x ∈ nodes, x < size) :
    (marks size nodes)[x]? = some true ↔ x ∈ nodes := by
  by_cases hx : x < size
  · simp [getElem?_marks nodes hx]
  · have hnone : (marks size nodes)[x]? = none := by
      rw [Array.getElem?_eq_none]
      rw [size_marks]
      omega
    simp only [hnone, reduceCtorEq, false_iff]
    exact fun hmem => hx (hlt x hmem)

/-! ## The body of a loop -/

/-- What a body holds after the back edges from some nodes: the header, and the nodes that reach one
of them around the header. -/
structure Gathered (g : FlowGraph) (h : Nat) (latch : Nat → Prop) (body : Array Bool) : Prop where
  size : body.size = g.size
  mem : ∀ x, body[x]? = some true ↔
    x = h ∨ ∃ n, latch n ∧ g.PathWithin (fun y => g.Reachable y ∧ y ≠ h) x n

theorem Gathered.start (hh : h < g.size) :
    g.Gathered h (fun _ => False) (marks g.size [h]) where
  size := size_marks _ _
  mem x := by
    rw [marks_eq_true (by simpa using hh)]
    simp

/-- A body after one more back edge. -/
theorem Gathered.gather (hb : g.Gathered h latch body) (hg : g.Sound)
    (hreached : ∀ x, reached[x]? = some true ↔ g.Reachable x) (n : Nat) :
    g.Gathered h (fun y => latch y ∨ y = n) (g.gather reached body [n]) where
  size := (size_gather g reached body [n]).trans hb.size
  mem x := by
    have hheader : body[h]? = some true := (hb.mem h).2 (.inl rfl)
    rw [hg.gather_iff]
    simp only [List.mem_singleton, exists_eq_left]
    constructor
    · rintro (hx | hp)
      · rcases (hb.mem x).1 hx with hx | ⟨y, hy, hp⟩
        · exact .inl hx
        · exact .inr ⟨y, .inl hy, hp⟩
      · refine .inr ⟨n, .inr rfl, hp.mono fun y hy => ⟨(hreached y).1 hy.2, ?_⟩⟩
        rintro rfl
        have hfalse := hy.1
        rw [hheader] at hfalse
        cases hfalse
    · rintro (rfl | ⟨y, hy | rfl, hp⟩)
      · exact .inl hheader
      · exact .inl ((hb.mem x).2 (.inr ⟨y, hy, hp⟩))
      · induction hp with
        | @refl y hy =>
          cases hmark : body[y]? with
          | none =>
            have hlt : y < body.size := hb.size ▸ hg.lt_of_reachable hy.1
            simp [hlt] at hmark
          | some b =>
            cases b with
            | true => exact .inl rfl
            | false => exact .inr (.refl ⟨hmark, (hreached y).2 hy.1⟩)
        | @step i j y hi hj hp ih =>
          by_cases hmark : body[i]? = some true
          · exact .inl hmark
          · have hfree : body[i]? = some false := by
              have hlt : i < body.size := hb.size ▸ hg.lt_of_reachable hi.1
              simpa [hlt] using hmark
            rcases ih with hj' | hp'
            · -- the next node was marked for an earlier back edge, so this one was as well
              rcases (hb.mem j).1 hj' with hjh | ⟨z, hz, hpz⟩
              · exact absurd hjh hp.source.2
              · exact .inl ((hb.mem i).2 (.inr ⟨z, hz, .step hi hj hpz⟩))
            · exact .inr (.step ⟨hfree, (hreached i).2 hi.1⟩ hj hp')

/-! ## All loops of a graph -/

/-- What holds of the loops after some back edges: one for each header, with what the back edges to
it have gathered. -/
structure Collected (g : FlowGraph) (edges : List (Nat × Nat)) (ls : List Loop) : Prop where
  nodup : (ls.map Loop.header).Nodup
  header : ∀ h, h ∈ ls.map Loop.header ↔ ∃ n, (n, h) ∈ edges
  body : ∀ l ∈ ls, g.Gathered l.header (fun n => (n, l.header) ∈ edges) l.body

theorem header_addBackEdge (g : FlowGraph) (reached : Array Bool) (n h : Nat) (ls : List Loop) :
    (g.addBackEdge reached n h ls).map Loop.header =
      if h ∈ ls.map Loop.header then ls.map Loop.header else ls.map Loop.header ++ [h] := by
  induction ls with
  | nil => simp [addBackEdge]
  | cons l rest ih =>
    by_cases hl : l.header = h
    · simp [addBackEdge, hl]
    · rw [addBackEdge, if_neg hl, List.map_cons, ih]
      simp only [List.map_cons, List.mem_cons, Ne.symm hl, false_or]
      split <;> simp

/-- A loop with another header stays as it is, and the one with the header of the back edge, or a new
one, is gathered further. -/
theorem mem_addBackEdge (hnodup : (ls.map Loop.header).Nodup) {l : Loop}
    (hl : l ∈ g.addBackEdge reached n h ls) :
    (l ∈ ls ∧ l.header ≠ h) ∨ ∃ body, l = ⟨h, g.gather reached body [n]⟩ ∧
      (⟨h, body⟩ ∈ ls ∨ (h ∉ ls.map Loop.header ∧ body = marks g.size [h])) := by
  induction ls with
  | nil =>
    rw [addBackEdge, List.mem_singleton] at hl
    exact .inr ⟨_, hl, .inr ⟨by simp, rfl⟩⟩
  | cons k rest ih =>
    rw [List.map_cons, List.nodup_cons] at hnodup
    rw [addBackEdge] at hl
    split at hl
    · rename_i hk
      subst hk
      rcases List.mem_cons.1 hl with rfl | hl
      · exact .inr ⟨k.body, rfl, .inl (by simp)⟩
      · refine .inl ⟨List.mem_cons_of_mem _ hl, fun heq => hnodup.1 ?_⟩
        exact heq ▸ List.mem_map_of_mem hl
    · rename_i hk
      rcases List.mem_cons.1 hl with rfl | hl
      · exact .inl ⟨by simp, hk⟩
      · rcases ih hnodup.2 hl with ⟨hl, hne⟩ | ⟨body, rfl, hbody | ⟨hnot, hbody⟩⟩
        · exact .inl ⟨by simp [hl], hne⟩
        · exact .inr ⟨body, rfl, .inl (by simp [hbody])⟩
        · exact .inr ⟨body, rfl, .inr ⟨by simpa [Ne.symm hk] using hnot, hbody⟩⟩

namespace Collected

variable {edges : List (Nat × Nat)}

/-- The loops after one more back edge. -/
theorem addBackEdge (hc : g.Collected edges ls) (hg : g.Sound)
    (hreached : ∀ x, reached[x]? = some true ↔ g.Reachable x) (hh : h < g.size) (n : Nat) :
    g.Collected (edges ++ [(n, h)]) (g.addBackEdge reached n h ls) where
  nodup := by
    rw [header_addBackEdge]
    split
    · exact hc.nodup
    · rename_i hnot
      simpa using hc.nodup.concat hnot
  header k := by
    have hk : k ∈ (g.addBackEdge reached n h ls).map Loop.header ↔
        k ∈ ls.map Loop.header ∨ k = h := by
      rw [header_addBackEdge]
      split
      · rename_i hmem
        exact ⟨.inl, fun hk => hk.elim id fun heq => heq ▸ hmem⟩
      · simp
    rw [hk, hc.header]
    simp only [List.mem_append, List.mem_singleton, Prod.mk.injEq, exists_or, exists_eq_left]
  body l hl := by
    rcases mem_addBackEdge hc.nodup hl with ⟨hl, hne⟩ | ⟨body, rfl, hbody⟩
    · have hb := hc.body l hl
      simpa [hne] using hb
    · have hb : g.Gathered h (fun y => (y, h) ∈ edges) body := by
        rcases hbody with hmem | ⟨hnot, rfl⟩
        · exact hc.body _ hmem
        · have hnone : (fun y => (y, h) ∈ edges) = fun _ => False := by
            funext y
            exact eq_false fun hy => hnot ((hc.header h).2 ⟨y, hy⟩)
          rw [hnone]
          exact .start hh
      simpa using hb.gather hg hreached n

/-- The loops after a list of back edges. -/
theorem foldl (hg : g.Sound) (hreached : ∀ x, reached[x]? = some true ↔ g.Reachable x)
    {done : List (Nat × Nat)} (hc : g.Collected done ls) (hlt : ∀ e ∈ edges, e.2 < g.size) :
    g.Collected (done ++ edges)
      (edges.foldl (fun ls (e : Nat × Nat) => g.addBackEdge reached e.1 e.2 ls) ls) := by
  induction edges generalizing done ls with
  | nil => simpa using hc
  | cons e rest ih =>
    obtain ⟨he, hrest⟩ := List.forall_mem_cons.1 hlt
    have hnext := ih (hc.addBackEdge hg hreached he e.1) hrest
    rwa [List.append_assoc, List.singleton_append] at hnext

end Collected

/-- A sound graph has a table of dominators that is right about the nodes that can be reached. -/
theorem Sound.exists_dominates (hg : g.Sound) : ∃ d, g.dominators = .ok d ∧
    ∀ {a n}, g.Reachable n → (d.dominates a n = true ↔ g.Dominates a n) := by
  by_cases hsize : 0 < g.size
  · have hs := hg.swept hsize
    obtain ⟨d, hd, hr, hstable⟩ := exists_dominators hg hsize
    refine ⟨d, hd, fun {a n} hn => ?_⟩
    have hmem := (hs.mem_iff hg hsize).2 hn
    have hsome := hr.done hmem (List.idxOf_lt_length_of_mem hmem)
    rw [Dominators.dominates, decide_eq_true_iff, hr.mem_ancestors hg hs hsize]
    exact ⟨hr.dominates_of_ancestor hg hs hsize hstable, hr.ancestor_of_dominates hsize hsome⟩
  · refine ⟨⟨Array.replicate g.size none⟩, ?_, fun hn => ?_⟩
    · rw [dominators, rpo, if_pos (by omega)]
      rfl
    · have hlt := hg.lt_of_reachable hn
      omega

/-- The nodes in reverse postorder, also of a graph without nodes. -/
theorem Sound.mem_rpo (hg : g.Sound) : x ∈ g.rpo ↔ g.Reachable x := by
  by_cases hsize : 0 < g.size
  · exact (hg.swept hsize).mem_iff hg hsize
  · have hrpo : g.rpo = [] := by rw [rpo, if_pos (by omega)]
    simp only [hrpo, List.not_mem_nil, false_iff]
    intro hx
    have hlt := hg.lt_of_reachable hx
    omega

/-- The loops of a graph are those of its back edges. -/
theorem Sound.collected (hg : g.Sound) {d : Dominators}
    (hd : ∀ {a n}, g.Reachable n → (d.dominates a n = true ↔ g.Dominates a n)) :
    g.Collected (g.backEdges g.rpo d) (g.loops d) ∧
      ∀ n h, (n, h) ∈ g.backEdges g.rpo d ↔ g.BackEdge n h := by
  have hedge (n h : Nat) : (n, h) ∈ g.backEdges g.rpo d ↔ g.BackEdge n h := by
    simp only [backEdges, BackEdge, List.mem_flatMap, List.mem_map, List.mem_filter, Prod.mk.injEq,
      hg.mem_rpo]
    constructor
    · rintro ⟨i, hi, j, ⟨hj, hdom⟩, rfl, rfl⟩
      exact ⟨hi, hj, (hd hi).1 hdom⟩
    · rintro ⟨hn, hh, hdom⟩
      exact ⟨n, hn, h, ⟨hh, (hd hn).2 hdom⟩, rfl, rfl⟩
  have hreached (x : Nat) : (marks g.size g.rpo)[x]? = some true ↔ g.Reachable x := by
    rw [marks_eq_true fun y hy => hg.lt_of_reachable (hg.mem_rpo.1 hy), hg.mem_rpo]
  have hnone : g.Collected [] [] := ⟨.nil, by simp, by simp⟩
  have hlt : ∀ e ∈ g.backEdges g.rpo d, e.2 < g.size := fun e he =>
    hg.succ_lt ((hedge e.1 e.2).1 he).2.1
  exact ⟨by simpa [loops] using hnone.foldl hg hreached hlt, hedge⟩

/-- The loops that all back edges give hold what they should. -/
theorem Collected.contains_iff {edges : List (Nat × Nat)} (hc : g.Collected edges ls)
    (hedge : ∀ n h, (n, h) ∈ edges ↔ g.BackEdge n h) {l : Loop} (hl : l ∈ ls) :
    l.contains x = true ↔ g.InLoop l.header x := by
  have hmem := (hc.body l hl).mem x
  simp only [hedge] at hmem
  rw [InLoop, ← hmem, Loop.contains]
  cases l.body[x]? <;> simp

/-- The number of loops around a node, by their headers. -/
theorem Collected.countP_eq {edges : List (Nat × Nat)} (hc : g.Collected edges ls)
    (hedge : ∀ n h, (n, h) ∈ edges ↔ g.BackEdge n h) (x : Nat) :
    (ls.countP fun l => l.contains x) = {h | g.IsHeader h ∧ g.InLoop h x}.ncard := by
  have hbody {l : Loop} (hl : l ∈ ls) : l.contains x = true ↔ g.InLoop l.header x :=
    hc.contains_iff hedge hl
  have hnodup : ((ls.filter fun l => l.contains x).map Loop.header).Nodup :=
    hc.nodup.sublist (List.filter_sublist.map _)
  have hset : {h | g.IsHeader h ∧ g.InLoop h x} =
      ↑((ls.filter fun l => l.contains x).map Loop.header).toFinset := by
    ext h
    simp only [Set.mem_ofPred_eq, List.coe_toFinset, List.mem_map, List.mem_filter]
    constructor
    · rintro ⟨⟨n, hn⟩, hin⟩
      obtain ⟨l, hl, rfl⟩ := List.mem_map.1 ((hc.header h).2 ⟨n, (hedge n h).2 hn⟩)
      exact ⟨l, ⟨hl, (hbody hl).2 hin⟩, rfl⟩
    · rintro ⟨l, ⟨hl, hin⟩, rfl⟩
      obtain ⟨n, hn⟩ := (hc.header l.header).1 (List.mem_map_of_mem hl)
      exact ⟨⟨n, (hedge n _).1 hn⟩, (hbody hl).1 hin⟩
  rw [hset, Set.ncard_coe_finset, List.toFinset_card_of_nodup hnodup, List.length_map,
    List.countP_eq_length_filter]

theorem IsHeader.reachable (hh : g.IsHeader h) : g.Reachable h := by
  obtain ⟨n, ⟨path, hpath⟩, hsucc, -⟩ := hh
  exact ⟨_, hpath.step hsucc⟩

end FlowGraph

namespace LoopNest

open FlowGraph

/-- A function whose terminators go to its own blocks only has loops, and they are exact. The headers
are the blocks to which a back edge leads, each once. The depth of a block that can be reached is the
number of headers in whose loop it is, and any other block has depth zero. -/
theorem depth_exact {m : Module} {f : FuncId} (hf : f.idx < m.funcs.size)
    (hown : m.OwnSuccessors f) :
    ∃ n, ofFunc m f = .ok n ∧ FlowGraph.ofFunc m f = .ok n.graph ∧ n.graph.blocks = m.blocksOf f ∧
      n.headers.Nodup ∧
      (∀ b, b ∈ n.headers ↔ ∃ h, n.graph.blocks[h]? = some b ∧ n.graph.IsHeader h) ∧
      (∀ b i, n.graph.blocks[i]? = some b → n.graph.Reachable i →
        n.depth b = {h | n.graph.IsHeader h ∧ n.graph.InLoop h i}.ncard) ∧
      ∀ b, (∀ i, n.graph.blocks[i]? = some b → ¬ n.graph.Reachable i) → n.depth b = 0 := by
  obtain ⟨g, hofFunc, hg, hblocks⟩ := exists_ofFunc hf hown
  obtain ⟨d, hd, hdom⟩ := hg.exists_dominates
  obtain ⟨hc, hedge⟩ := hg.collected hdom
  have hheader (h : Nat) : h ∈ (g.loops d).map Loop.header ↔ g.IsHeader h := by
    rw [hc.header, IsHeader]
    simp only [hedge]
  refine ⟨⟨g, g.loops d⟩, bind_eq_ok.2 ⟨g, hofFunc, bind_eq_ok.2 ⟨d, hd, rfl⟩⟩, hofFunc, hblocks,
    ?_, ?_, ?_, ?_⟩
  · rw [headers, blocksAt, List.Nodup, List.pairwise_filterMap]
    refine hc.nodup.imp_of_mem fun {a a'} ha ha' hne b hb b' hb' heq => hne ?_
    subst heq
    have hi := idxOf?_of_reachable hofFunc ((hheader a).1 ha).reachable hb
    have hi' := idxOf?_of_reachable hofFunc ((hheader a').1 ha').reachable hb'
    exact Option.some.inj (hi.symm.trans hi')
  · intro b
    simp only [headers, blocksAt, List.mem_filterMap, hheader]
    exact exists_congr fun h => and_comm
  · intro b i hb hi
    rw [depth, idxOf?_of_reachable hofFunc hi hb]
    exact hc.countP_eq hedge i
  · intro b hb
    rw [depth]
    split
    · rfl
    · rename_i i hi
      obtain ⟨hlt, heq, -⟩ := List.findIdx?_eq_some_iff_getElem.1 hi
      have hnot : ¬ g.Reachable i := hb i ((List.getElem?_eq_getElem hlt).trans
        (congrArg some (beq_iff_eq.1 heq)))
      refine List.countP_eq_zero.2 fun l hl hin => hnot ?_
      -- a body holds its header and nodes on paths over nodes that can be reached
      have hmark : l.body[i]? = some true := by
        rw [Loop.contains] at hin
        cases hmark : l.body[i]? <;> simp_all
      rcases ((hc.body l hl).mem i).1 hmark with rfl | ⟨n, -, hp⟩
      · exact ((hheader l.header).1 (List.mem_map_of_mem hl)).reachable
      · exact hp.source.1

/-- Calls that build a loop with two back edges around a block that is a loop of its own. A block that
nothing goes to leads into the outer loop. -/
def nestActions : List Module.Action := [
  .addFunction "f" .void [("c", .i32)],
  .addBlock ⟨0⟩ "entry", .addBlock ⟨0⟩ "outer", .addBlock ⟨0⟩ "inner", .addBlock ⟨0⟩ "turn",
  .addBlock ⟨0⟩ "late", .addBlock ⟨0⟩ "exit", .addBlock ⟨0⟩ "lost",
  .build ⟨0⟩ (.br ⟨1⟩), .build ⟨1⟩ (.condBr ⟨0⟩ ⟨2⟩ ⟨5⟩), .build ⟨2⟩ (.condBr ⟨0⟩ ⟨2⟩ ⟨3⟩),
  .build ⟨3⟩ (.condBr ⟨0⟩ ⟨1⟩ ⟨4⟩), .build ⟨4⟩ (.br ⟨1⟩), .build ⟨5⟩ (.ret none),
  .build ⟨6⟩ (.br ⟨3⟩)]

/-- The module that `nestActions` build. -/
def nestModule : Module := (nestActions.foldlM Module.Action.run {}).toOption.getD {}

theorem nestModule_ownSuccessors : nestModule.OwnSuccessors ⟨0⟩ := by
  have hblocks : nestModule.blocksOf ⟨0⟩ = [⟨0⟩, ⟨1⟩, ⟨2⟩, ⟨3⟩, ⟨4⟩, ⟨5⟩, ⟨6⟩] := rfl
  rw [Module.OwnSuccessors, hblocks]
  simp only [List.forall_mem_cons]
  exact ⟨⟨[⟨1⟩], rfl, by decide⟩, ⟨[⟨2⟩, ⟨5⟩], rfl, by decide⟩, ⟨[⟨2⟩, ⟨3⟩], rfl, by decide⟩,
    ⟨[⟨1⟩, ⟨4⟩], rfl, by decide⟩, ⟨[⟨1⟩], rfl, by decide⟩, ⟨[], rfl, by decide⟩,
    ⟨[⟨3⟩], rfl, by decide⟩, List.forall_mem_nil _⟩

/-- The inner block is in two loops, its own and the outer one, and the block that nothing goes to is
in none. -/
theorem depth_exact_nest :
    ∃ n, ofFunc nestModule ⟨0⟩ = .ok n ∧ n.headers = [⟨2⟩, ⟨1⟩] ∧
      (∃ h, n.graph.blocks[h]? = some ⟨2⟩ ∧ n.graph.IsHeader h) ∧ n.graph.Reachable 2 ∧
      {h | n.graph.IsHeader h ∧ n.graph.InLoop h 2}.ncard = 2 ∧
      ¬ n.graph.Reachable 6 ∧ n.depth ⟨6⟩ = 0 := by
  obtain ⟨n, hn, hgraph, hblocks, -, hheaders, hdepth, hzero⟩ :=
    depth_exact (m := nestModule) (f := ⟨0⟩) (by decide) nestModule_ownSuccessors
  have heval : (ofFunc nestModule ⟨0⟩).toOption.map
      (fun n => (n.graph.succs, n.headers, n.depth ⟨2⟩)) =
        some (#[[1], [2, 5], [2, 3], [1, 4], [1], [], [3]], [⟨2⟩, ⟨1⟩], 2) := by decide +kernel
  rw [hn] at heval
  obtain ⟨hsuccs, heval⟩ := Prod.mk.inj (Option.some.inj heval)
  obtain ⟨hlist, htwo⟩ := Prod.mk.inj heval
  have hsucc (i : Nat) :
      n.graph.succ i = #[[1], [2, 5], [2, 3], [1, 4], [1], [], [3]][i]?.getD [] := by
    rw [succ, hsuccs]
  have hsize : 0 < n.graph.size := by
    rw [size, hblocks]
    decide
  have hreach : n.graph.Reachable 2 := by
    have h₁ : n.graph.PathTo 1 [1, 0] := .step (.entry hsize) (by rw [hsucc]; decide)
    exact ⟨_, h₁.step (by rw [hsucc]; decide)⟩
  have hlost : ¬ n.graph.Reachable 6 := by
    rintro ⟨path, hpath⟩
    cases hpath with
    | @step i _ _ _ hj =>
      rw [hsucc] at hj
      rcases i with _ | _ | _ | _ | _ | _ | _ | i <;> simp at hj
  refine ⟨n, hn, hlist, (hheaders ⟨2⟩).1 (by rw [hlist]; decide), hreach, ?_, hlost, ?_⟩
  · rw [← hdepth ⟨2⟩ 2 (by rw [hblocks]; rfl) hreach]
    exact htwo
  · refine hzero ⟨6⟩ fun i hi hreach => hlost ?_
    have hsix : (nestModule.blocksOf ⟨0⟩).idxOf? ⟨6⟩ = some 6 := rfl
    have hidx := idxOf?_of_reachable hgraph hreach hi
    rw [hblocks, hsix] at hidx
    exact Option.some.inj hidx ▸ hreach

end LoopNest

end SsaCodegen
