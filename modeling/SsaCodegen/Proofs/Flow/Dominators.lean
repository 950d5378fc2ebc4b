import SsaCodegen.Proofs.Flow.Chain
import SsaCodegen.Proofs.Flow.Order
import SsaCodegen.Proofs.Module.Built

/-!
# Dominators are exact

Along the refinement of a table of immediate dominators, the true dominators of a node are always
among its ancestors: a strict dominator of a node dominates its entry in the table. At a fixpoint, an
ancestor of a node is an ancestor of every predecessor that can be reached, so it is on every path.

That refinement ends needs an argument of its own. An entry only ever moves up the chain on which it
is, although a step moves the chains of other nodes with it. This holds because the chain of each node
is tied to that of a predecessor before it in the order, which a pass has not touched below the node
that it is at.

## Main definitions

* `FlowGraph.Refining` — what holds of the table during a pass

## Main results

* `FlowGraph.Refining.put` — what one step of a pass keeps
* `FlowGraph.Refining.refineEach_ok`, `refine_ok` — passes meet no fault and end
* `FlowGraph.dominators_exact` — the table is that of the immediate dominators
-/

namespace SsaCodegen

namespace FlowGraph

open Dominators

variable {g : FlowGraph} {order : List Nat} {d : Dominators} {a c i j k n x : Nat}

/-! ## A pass -/

/-- What holds of the table during a pass, when the nodes before a position have been looked at.
Strict dominators of a node dominate its entry. The entry that a node would get next is on the chain
of the one it has. And the chain of each node is tied to that of a predecessor before it: to all of it
if the node has been looked at, else to what has not been. -/
structure Refining (g : FlowGraph) (order : List Nat) (pos : Nat) (d : Dominators) : Prop where
  size : d.table.size = g.size
  falling : d.Falling order.idxOf
  mem : ∀ {i j}, d.idom i = some j → i ∈ order
  done : ∀ {i}, i ∈ order → order.idxOf i < pos → (d.idom i).isSome = true
  dominated : ∀ {i j a}, d.idom i = some j → g.Dominates a i → a ≠ i → g.Dominates a j
  rises : ∀ {i j x}, d.idom i = some j → i ≠ 0 →
    (∀ p ∈ g.pred i, (d.idom p).isSome = true → d.Ancestor x p) → d.Ancestor x j
  tied : ∀ {i j}, d.idom i = some j → i ≠ 0 → ∃ p ∈ g.pred i, (d.idom p).isSome = true ∧
    order.idxOf p < order.idxOf i ∧
    ∀ x, order.idxOf i < pos ∨ pos ≤ order.idxOf x → d.Ancestor x j → d.Ancestor x p

theorem Swept.idxOf_entry (hs : g.Swept order) : order.idxOf 0 = 0 := by
  cases order with
  | nil => cases hs.entry
  | cons x rest =>
    cases hs.entry
    simp

namespace Refining

variable {pos : Nat}

theorem idxOf_inj (h : Refining g order pos d) (hi : (d.idom i).isSome = true)
    (hij : order.idxOf i = order.idxOf j) : i = j := by
  obtain ⟨k, hk⟩ := Option.isSome_iff_exists.1 hi
  exact (List.idxOf_inj (h.mem hk)).1 hij

/-- The dominators of a node are among its ancestors. -/
theorem ancestor_of_dominates (h : Refining g order pos d) (hsize : 0 < g.size)
    (hi : (d.idom i).isSome = true) (ha : g.Dominates a i) : d.Ancestor a i := by
  induction hk : order.idxOf i using Nat.strongRecOn generalizing i with
  | _ k ih =>
    by_cases hai : a = i
    · exact hai ▸ .refl
    obtain ⟨j, hj⟩ := Option.isSome_iff_exists.1 hi
    by_cases h0 : i = 0
    · subst h0
      have hmem := ha _ (.entry hsize)
      exact absurd (List.mem_singleton.1 hmem) hai
    · refine .up hj (ih _ (hk ▸ h.falling.falls hj h0) (h.falling.closed hj) ?_ rfl)
      exact h.dominated hj ha hai

/-- Dominators of a node dominate those of its ancestors that they are above. -/
theorem dominates_ancestor (h : Refining g order pos d) (hci : d.Ancestor c i)
    (hac : d.Ancestor a c) (ha : g.Dominates a i) : g.Dominates a c := by
  induction hci with
  | refl => exact ha
  | @up i j hi hcj ih =>
    refine ih ?_
    by_cases hai : a = i
    · -- only the entry has itself above it
      subst hai
      have heq := h.falling.antisymm (hac.trans hcj) (.up hi .refl)
      exact heq ▸ ha
    · exact h.dominated hi ha hai

/-- The nearest common ancestor of the predecessors of a node that have entries. -/
theorem nearestAmong_ok (h : Refining g order pos d) (hg : g.Sound) (hs : g.Swept order)
    (hk : k ∈ order) (hpos : order.idxOf k = pos) (hk0 : k ≠ 0) :
    ∃ c, nearestAmong order.idxOf d none (g.pred k) = .ok (some c) ∧
      ∀ a, d.Ancestor a c ↔ ∀ p ∈ g.pred k, (d.idom p).isSome = true → d.Ancestor a p := by
  obtain ⟨p, hp, hpred, hlt⟩ := hs.exists_pred hg hk hk0
  obtain ⟨c, hc, hiff⟩ := FlowGraph.nearestAmong_ok (l := g.pred k) h.falling
    hs.idxOf_entry (fun hi _ hij => h.idxOf_inj hi hij) none nofun (.inr ⟨p, hpred, h.done hp (hpos ▸ hlt)⟩)
  exact ⟨c, hc, fun a => by simpa using hiff a⟩

section Put

variable (h : Refining g order pos d) (hg : g.Sound) (hs : g.Swept order) (hsize : 0 < g.size)
  (hk : k ∈ order) (hpos : order.idxOf k = pos) (hk0 : k ≠ 0)
  (hc : ∀ a, d.Ancestor a c ↔ ∀ p ∈ g.pred k, (d.idom p).isSome = true → d.Ancestor a p)
include h hc

/-- A node moves up its chain. -/
theorem ancestor_entry (hk0 : k ≠ 0) (hj : d.idom k = some j) : d.Ancestor c j :=
  h.rises hj hk0 ((hc c).1 .refl)

include hg hs hk hpos hk0

/-- The new entry of a node is above a predecessor before the node. -/
theorem exists_tie : ∃ p ∈ g.pred k, (d.idom p).isSome = true ∧
    order.idxOf p < order.idxOf k ∧ d.Ancestor c p := by
  obtain ⟨p, hp, hpred, hlt⟩ := hs.exists_pred hg hk hk0
  have hsome := h.done hp (hpos ▸ hlt)
  exact ⟨p, hpred, hsome, hlt, (hc c).1 .refl p hpred hsome⟩

theorem rank_lt : order.idxOf c < order.idxOf k := by
  obtain ⟨p, -, -, hlt, hcp⟩ := exists_tie h hg hs hk hpos hk0 hc
  exact Nat.lt_of_le_of_lt (h.falling.rank_le hcp) hlt

theorem entry_isSome : (d.idom c).isSome = true := by
  obtain ⟨p, -, hsome, -, hcp⟩ := exists_tie h hg hs hk hpos hk0 hc
  exact h.falling.isSome hcp hsome

theorem falling_put (hlt : k < d.table.size) : (d.put k c).Falling order.idxOf where
  entry := by rw [idom_put hlt, if_neg (Ne.symm hk0), h.falling.entry]
  falls {i j} hi h0 := by
    rw [idom_put hlt] at hi
    split at hi
    · rename_i hik
      cases hi
      exact hik ▸ rank_lt h hg hs hk hpos hk0 hc
    · exact h.falling.falls hi h0
  closed {i j} hi := by
    have hj : (d.idom j).isSome = true := by
      rw [idom_put hlt] at hi
      split at hi
      · cases hi
        exact entry_isSome h hg hs hk hpos hk0 hc
      · exact h.falling.closed hi
    exact isSome_put hlt hj

/-- Ancestors only get fewer. -/
theorem ancestor_of_put (hlt : k < d.table.size) {y : Nat} (hy : (d.idom y).isSome = true)
    (hx : (d.put k c).Ancestor x y) : d.Ancestor x y := by
  have hrank := rank_lt h hg hs hk hpos hk0 hc
  rcases (ancestor_put_iff h.falling hlt hrank).1 hx with ⟨hx, -⟩ | ⟨hky, hxc⟩
  · exact hx
  · obtain ⟨j, hj⟩ := Option.isSome_iff_exists.1 (h.falling.isSome hky hy)
    exact (hxc.trans ((ancestor_entry h hc hk0 hj).up hj)).trans hky

/-- Strict dominators of a node dominate its new entry. -/
theorem dominates_entry (hsize : 0 < g.size) (ha : g.Dominates a k) (hak : a ≠ k) :
    g.Dominates a c := by
  have hpred {p : Nat} (hp : p ∈ g.pred k) : g.Dominates a p := by
    intro path hpath
    have hmem := ha _ (hpath.step (mem_pred.1 hp).2.2)
    exact (List.mem_cons.1 hmem).resolve_left hak
  obtain ⟨p, hp, hsome, -, hcp⟩ := exists_tie h hg hs hk hpos hk0 hc
  refine h.dominates_ancestor hcp ((hc a).2 fun q hq hqsome => ?_) (hpred hp)
  exact h.ancestor_of_dominates hsize hqsome (hpred hq)

/-- The entry that a node would get next is still on the chain of the one it has. -/
theorem rises_put (hlt : k < d.table.size) (hi : (d.put k c).idom i = some j) (h0 : i ≠ 0)
    (hcommon : ∀ p ∈ g.pred i, ((d.put k c).idom p).isSome = true → (d.put k c).Ancestor x p) :
    (d.put k c).Ancestor x j := by
  have hrank := rank_lt h hg hs hk hpos hk0 hc
  -- what is above all predecessors now was so before
  have hbefore : ∀ p ∈ g.pred i, (d.idom p).isSome = true → d.Ancestor x p := fun p hp hsome =>
    ancestor_of_put h hg hs hk hpos hk0 hc hlt hsome (hcommon p hp (isSome_put hlt hsome))
  rw [idom_put hlt] at hi
  split at hi
  · rename_i hik
    cases hi
    subst hik
    exact (ancestor_put_of_rank_lt h.falling hlt hrank hrank).2 ((hc x).2 hbefore)
  have hxj := h.rises hi h0 hbefore
  by_cases hkj : d.Ancestor k j
  · -- the chain of the node moves, and that of the predecessor to which it is tied with it
    obtain ⟨p, hp, hsome, -, htie⟩ := h.tied hi h0
    have hkp := htie k (.inr (Nat.le_of_eq hpos.symm)) hkj
    have hxp := hcommon p hp (isSome_put hlt hsome)
    refine (ancestor_put_iff h.falling hlt hrank).2 ?_
    rcases (ancestor_put_iff h.falling hlt hrank).1 hxp with ⟨-, hkx⟩ | ⟨-, hxc⟩
    · exact .inl ⟨hxj, .inl (hkx.resolve_right (not_not_intro hkp))⟩
    · exact .inr ⟨hkj, hxc⟩
  · exact (ancestor_put_of_not h.falling hlt hrank hkj).2 hxj

/-- What has not been looked at of a chain that is tied to another stays on that one. -/
theorem ancestor_put_of_tie (hlt : k < d.table.size) {p : Nat} (hx : pos < order.idxOf x)
    (htie : d.Ancestor x j → d.Ancestor x p) (hxj : (d.put k c).Ancestor x j) :
    (d.put k c).Ancestor x p := by
  have hrank := rank_lt h hg hs hk hpos hk0 hc
  have hxp : d.Ancestor x p := by
    rcases (ancestor_put_iff h.falling hlt hrank).1 hxj with ⟨hxj, -⟩ | ⟨-, hxc⟩
    · exact htie hxj
    · have := h.falling.rank_le hxc
      omega
  refine (ancestor_put_iff h.falling hlt hrank).2 (.inl ⟨hxp, ?_⟩)
  by_cases hkp : d.Ancestor k p
  · refine .inl ((hxp.total hkp).resolve_left fun hxk => ?_)
    have := h.falling.rank_le hxk
    omega
  · exact .inr hkp

/-- The chain of each node is still tied to that of a predecessor, and that of the node which has
moved is tied to all of one. -/
theorem tied_put (hlt : k < d.table.size) (hi : (d.put k c).idom i = some j) (h0 : i ≠ 0) :
    ∃ p ∈ g.pred i, ((d.put k c).idom p).isSome = true ∧ order.idxOf p < order.idxOf i ∧
      ∀ x, order.idxOf i < pos + 1 ∨ pos + 1 ≤ order.idxOf x →
        (d.put k c).Ancestor x j → (d.put k c).Ancestor x p := by
  have hrank := rank_lt h hg hs hk hpos hk0 hc
  have hkeep {x y : Nat} (hy : order.idxOf y < order.idxOf k) :
      (d.put k c).Ancestor x y ↔ d.Ancestor x y := ancestor_put_of_rank_lt h.falling hlt hrank hy
  rw [idom_put hlt] at hi
  split at hi
  · rename_i hik
    cases hi
    subst hik
    obtain ⟨p, hp, hsome, hplt, hcp⟩ := exists_tie h hg hs hk hpos hk0 hc
    refine ⟨p, hp, isSome_put hlt hsome, hplt, fun x _ hx => ?_⟩
    exact (hkeep hplt).2 (((hkeep hrank).1 hx).trans hcp)
  · rename_i hik
    obtain ⟨p, hp, hsome, hplt, htie⟩ := h.tied hi h0
    refine ⟨p, hp, isSome_put hlt hsome, hplt, fun x hx hxj => ?_⟩
    have hij := h.falling.falls hi h0
    have hne : order.idxOf i ≠ order.idxOf k := fun heq =>
      hik ((List.idxOf_inj (h.mem hi)).1 heq)
    rcases hx with hx | hx
    · -- both chains are below the node that moves
      have hx := (hkeep (by omega)).1 hxj
      exact (hkeep (by omega)).2 (htie x (.inl (by omega)) hx)
    · exact ancestor_put_of_tie h hg hs hk hpos hk0 hc hlt hx (htie x (.inr (by omega))) hxj

/-- What one step of a pass keeps. -/
theorem put (hsize : 0 < g.size) : Refining g order (pos + 1) (d.put k c) := by
  have hlt : k < d.table.size := h.size ▸ hs.lt hg hsize hk
  refine ⟨?_, falling_put h hg hs hk hpos hk0 hc hlt, fun {i j} hi => ?_, fun {i} hi hlt' => ?_,
    fun {i j a} hi => ?_, rises_put h hg hs hk hpos hk0 hc hlt, tied_put h hg hs hk hpos hk0 hc hlt⟩
  · rw [Dominators.put, Array.size_setIfInBounds]
    exact h.size
  · rw [idom_put hlt] at hi
    split at hi
    · rename_i hik
      exact hik ▸ hk
    · exact h.mem hi
  · by_cases hik : i = k
    · rw [idom_put hlt, if_pos hik]
      rfl
    · refine isSome_put hlt (h.done hi (Nat.lt_of_le_of_ne (Nat.le_of_lt_succ hlt') fun heq => hik ?_))
      exact (List.idxOf_inj hi).1 (heq.trans hpos.symm)
  · rw [idom_put hlt] at hi
    split at hi
    · rename_i hik
      cases hi
      subst hik
      exact dominates_entry h hg hs hk hpos hk0 hc hsize
    · exact h.dominated hi

end Put

/-- The entries of a table that one more pass leaves as they are. -/
def Stable (g : FlowGraph) (order : List Nat) (d : Dominators) (l : List Nat) : Prop :=
  ∀ k ∈ l, ∃ c, nearestAmong order.idxOf d none (g.pred k) = .ok (some c) ∧ d.idom k = some c

/-- Moving a node lowers the distance, unless it stays where it is. -/
theorem distance_put (h : Refining g order pos d) (hg : g.Sound) (hs : g.Swept order)
    (hsize : 0 < g.size) (hk : k ∈ order) (hpos : order.idxOf k = pos) (hk0 : k ≠ 0)
    (hc : ∀ a, d.Ancestor a c ↔ ∀ p ∈ g.pred k, (d.idom p).isSome = true → d.Ancestor a p) :
    d.idom k = some c ∨
      distance order order.idxOf (d.put k c) < distance order order.idxOf d := by
  have hlt : k < d.table.size := h.size ▸ hs.lt hg hsize hk
  have hrank := rank_lt h hg hs hk hpos hk0 hc
  by_cases hsame : d.idom k = some c
  · exact .inl hsame
  right
  -- the rank of the entry of the node falls
  have hfall : order.idxOf c < ((d.idom k).map order.idxOf).getD order.length := by
    cases hj : d.idom k with
    | none => exact Nat.lt_trans hrank (List.idxOf_lt_length_of_mem hk)
    | some j =>
      have hcj := ancestor_entry h hc hk0 hj
      refine Nat.lt_of_not_le fun hle => hsame ?_
      rw [hj, h.falling.eq_of_rank_le hcj hle]
  refine total_add_le (a := k) (w := 1) hk (fun i => ?_) ?_
  · show ((((d.put k c).idom i).map order.idxOf).getD order.length) ≤ _
    rw [idom_put hlt]
    split
    · rename_i hik
      subst hik
      exact Nat.le_of_lt hfall
    · exact Nat.le_refl _
  · show ((((d.put k c).idom k).map order.idxOf).getD order.length) + 1 ≤ _
    rw [idom_put hlt, if_pos rfl]
    exact hfall

/-- After a whole pass every chain is tied to all of another, so that a new pass may start. -/
theorem again (h : Refining g order pos d) (hpos : order.length ≤ pos) {pos' : Nat}
    (hle : pos' ≤ pos) : Refining g order pos' d :=
  { h with
    done := fun hi hlt => h.done hi (Nat.lt_of_lt_of_le hlt hle)
    tied := fun hi h0 => by
      obtain ⟨p, hp, hsome, hlt, htie⟩ := h.tied hi h0
      have hi := List.idxOf_lt_length_of_mem (h.mem hi)
      exact ⟨p, hp, hsome, hlt, fun x _ => htie x (.inl (Nat.lt_of_lt_of_le hi hpos))⟩ }

/-- A pass over the rest of the order from a position on meets no fault. If it does not lower the
distance, it leaves all entries as they are. -/
theorem refineEach_ok (hg : g.Sound) (hs : g.Swept order) (hsize : 0 < g.size) {l : List Nat}
    (hl : order.drop pos = l) (h0 : 0 < pos) (h : Refining g order pos d) :
    ∃ d', g.refineEach order.idxOf d l = .ok d' ∧ Refining g order order.length d' ∧
      (d' = d ∧ Stable g order d l ∨
        distance order order.idxOf d' < distance order order.idxOf d) := by
  induction l generalizing pos d with
  | nil =>
    have hpos : order.length ≤ pos := List.drop_eq_nil_iff.1 hl
    exact ⟨d, rfl, h.again hpos hpos, .inl ⟨rfl, nofun⟩⟩
  | cons k rest ih =>
    have hlt : pos < order.length := by
      by_contra hle
      rw [List.drop_of_length_le (Nat.le_of_not_lt hle)] at hl
      cases hl
    rw [List.drop_eq_getElem_cons hlt] at hl
    obtain ⟨hk, hrest⟩ := List.cons_eq_cons.1 hl
    have hmem : k ∈ order := hk ▸ List.getElem_mem hlt
    have hpos : order.idxOf k = pos := hk ▸ hs.nodup.idxOf_getElem pos hlt
    have hk0 : k ≠ 0 := by
      rintro rfl
      rw [hs.idxOf_entry] at hpos
      omega
    obtain ⟨c, hnearest, hc⟩ := h.nearestAmong_ok hg hs hmem hpos hk0
    obtain ⟨d', hd', hend, hchange⟩ := ih hrest (Nat.succ_pos _) (put h hg hs hmem hpos hk0 hc hsize)
    refine ⟨d', bind_eq_ok.2 ⟨some c, hnearest, hd'⟩, hend, ?_⟩
    rcases distance_put h hg hs hsize hmem hpos hk0 hc with hsame | hlower
    · rw [put_eq_self hsame] at hchange
      refine hchange.imp (fun ⟨heq, hstable⟩ => ⟨heq, ?_⟩) id
      exact List.forall_mem_cons.2 ⟨⟨c, hnearest, hsame⟩, hstable⟩
    · right
      rcases hchange with ⟨rfl, -⟩ | hlower'
      · exact hlower
      · exact Nat.lt_trans hlower' hlower

/-- Refinement ends with a table that one more pass leaves as it is. -/
theorem refine_ok (hg : g.Sound) (hs : g.Swept order) (hsize : 0 < g.size)
    (h : Refining g order 1 d) :
    ∃ d', g.refine order order.idxOf d = .ok d' ∧ Refining g order order.length d' ∧
      Stable g order d' order.tail := by
  have hlength : 0 < order.length := List.length_pos_of_mem (List.mem_of_head? hs.entry)
  have hpass {d : Dominators} (h : Refining g order 1 d) :=
    refineEach_ok hg hs hsize (List.drop_one (l := order)) (Nat.zero_lt_one) h
  fun_induction refine g order order.idxOf d with
  | case1 d e he =>
    obtain ⟨d', hd', -⟩ := hpass h
    cases he.symm.trans hd'
  | case2 d hd =>
    obtain ⟨d', hd', hend, hchange⟩ := hpass h
    cases hd.symm.trans hd'
    refine ⟨d, rfl, hend, (hchange.resolve_right (Nat.lt_irrefl _)).2⟩
  | case3 d d' hd hne hlt ih =>
    obtain ⟨d'', hd'', hend, -⟩ := hpass h
    cases hd.symm.trans hd''
    exact ih (hend.again (Nat.le_refl _) hlength)
  | case4 d d' hd hne hlt =>
    obtain ⟨d'', hd'', -, hchange⟩ := hpass h
    cases hd.symm.trans hd''
    rcases hchange with ⟨heq, -⟩ | hlower
    · exact absurd heq hne
    · exact absurd hlower hlt

/-- The table with which refinement starts. -/
theorem start (hs : g.Swept order) (hsize : 0 < g.size) :
    Refining g order 1 ⟨(Array.replicate g.size none).setIfInBounds 0 (some 0)⟩ := by
  have hidom (i : Nat) : (⟨(Array.replicate g.size none).setIfInBounds 0 (some 0)⟩ :
      Dominators).idom i = if i = 0 then some 0 else none := by
    rw [idom, Array.getElem?_setIfInBounds]
    by_cases hi : 0 = i
    · subst hi
      simp [hsize]
    · rw [if_neg hi, if_neg (Ne.symm hi), Array.getElem?_replicate]
      split <;> rfl
  have htable : ((Array.replicate g.size none).setIfInBounds 0 (some 0) : Array (Option Nat)).size =
      g.size := by simp
  generalize (Array.replicate g.size none).setIfInBounds 0 (some 0) = table at hidom htable
  have hentry {i j : Nat} (hi : (⟨table⟩ : Dominators).idom i = some j) : i = 0 ∧ j = 0 := by
    rw [hidom] at hi
    split at hi
    · rename_i h0
      cases hi
      exact ⟨h0, rfl⟩
    · cases hi
  refine ⟨htable, ⟨by rw [hidom, if_pos rfl], fun hi h0 => absurd (hentry hi).1 h0, fun hi => ?_⟩,
    fun hi => ?_, fun {i} hi hlt => ?_, fun {i j a} hi ha hai => ?_,
    fun hi h0 => absurd (hentry hi).1 h0, fun hi h0 => absurd (hentry hi).1 h0⟩
  · rw [(hentry hi).2, hidom, if_pos rfl]
    rfl
  · rw [(hentry hi).1]
    exact List.mem_of_head? hs.entry
  · have heq : order.idxOf i = order.idxOf 0 := by
      rw [hs.idxOf_entry]
      omega
    rw [(List.idxOf_inj hi).1 heq, hidom, if_pos rfl]
    rfl
  · obtain ⟨rfl, rfl⟩ := hentry hi
    exact ha

/-! ## The table -/

/-- In a table that a pass leaves as it is, ancestors are dominators. -/
theorem dominates_of_ancestor (h : Refining g order order.length d) (hg : g.Sound)
    (hs : g.Swept order) (hsize : 0 < g.size) (hstable : Stable g order d order.tail)
    (ha : d.Ancestor a n) : g.Dominates a n := by
  intro path hpath
  induction hpath with
  | entry _ =>
    rw [h.falling.eq_entry ha]
    exact List.mem_singleton_self 0
  | @step i j path hpath hj ih =>
    by_cases haj : a = j
    · simp [haj]
    refine List.mem_cons_of_mem _ (ih ?_)
    have hi : i ∈ order := (hs.mem_iff hg hsize).2 ⟨path, hpath⟩
    have hjmem := hs.closed i hi j hj
    have hj0 : j ≠ 0 := by
      rintro rfl
      exact haj (h.falling.eq_entry ha)
    have htail : j ∈ order.tail := by
      cases order with
      | nil => cases hi
      | cons x rest =>
        cases hs.entry
        exact (List.mem_cons.1 hjmem).resolve_left hj0
    obtain ⟨c, hc, hidom⟩ := hstable j htail
    obtain ⟨c', hc', hcommon⟩ := (h.again (Nat.le_refl _)
      (Nat.le_of_lt (List.idxOf_lt_length_of_mem hjmem))).nearestAmong_ok hg hs hjmem rfl hj0
    cases hc.symm.trans hc'
    refine (hcommon a).1 (((ancestor_iff hidom).1 ha).resolve_left haj) i ?_ ?_
    · rw [mem_pred, hg.size]
      exact ⟨hg.succ_lt hj, hs.lt hg hsize hi, hj⟩
    · exact h.done hi (List.idxOf_lt_length_of_mem hi)

/-- The chain of a node, as the table lists it. -/
theorem mem_ancestors (h : Refining g order pos d) (hg : g.Sound) (hs : g.Swept order)
    (hsize : 0 < g.size) : a ∈ d.ancestors n ↔ d.Ancestor a n := by
  -- a chain has no more nodes than the rank at which it starts
  have hwithin (steps : Nat) : ∀ {i : Nat}, order.idxOf i ≤ steps →
      (a ∈ d.ancestorsWithin steps i ↔ d.Ancestor a i) := by
    induction steps with
    | zero =>
      intro i hi
      rw [ancestorsWithin, List.mem_singleton]
      cases hidom : d.idom i with
      | none => rw [ancestor_of_none hidom]
      | some j =>
        have hi0 : i = 0 := (List.idxOf_inj (h.mem hidom)).1 (by rw [hs.idxOf_entry]; omega)
        subst hi0
        exact ⟨fun ha => ha ▸ .refl, h.falling.eq_entry⟩
    | succ steps ih =>
      intro i hi
      rw [ancestorsWithin]
      cases hidom : d.idom i with
      | none => rw [ancestor_of_none hidom, List.mem_singleton]
      | some j =>
        dsimp only
        by_cases hji : j = i
        · subst hji
          have hj0 : j = 0 := by
            by_contra h0
            exact Nat.lt_irrefl _ (h.falling.falls hidom h0)
          subst hj0
          rw [if_pos rfl, List.mem_singleton]
          exact ⟨fun ha => ha ▸ .refl, h.falling.eq_entry⟩
        · have hi0 : i ≠ 0 := by
            rintro rfl
            cases h.falling.entry.symm.trans hidom
            exact hji rfl
          have hlt := h.falling.falls hidom hi0
          rw [if_neg hji, List.mem_cons, ih (by omega), ancestor_iff hidom]
  refine hwithin _ (Nat.le_trans List.idxOf_le_length ?_)
  rw [h.size]
  exact hs.length_le hg hsize

end Refining

theorem size_ranks (size : Nat) (order : List Nat) : (ranks size order).size = size := by
  rw [ranks]
  exact List.foldlRecOn (motive := fun table : Array Nat => table.size = size) _ _
    Array.size_replicate fun _ htable _ _ => Array.size_setIfInBounds.trans htable

/-- A sound graph has a table of dominators. -/
theorem exists_dominators (hg : g.Sound) (hsize : 0 < g.size) :
    ∃ d, g.dominators = .ok d ∧ Refining g g.rpo g.rpo.length d ∧
      Refining.Stable g g.rpo d g.rpo.tail := by
  have hs := hg.swept hsize
  have hrank : (fun i => (ranks g.size g.rpo)[i]?.getD g.rpo.length) = g.rpo.idxOf := by
    funext i
    by_cases hi : i < g.size
    · rw [getElem?_ranks hs.nodup hi]
      rfl
    · have hnot : i ∉ g.rpo := fun hmem => hi (hs.lt hg hsize hmem)
      rw [List.idxOf_eq_length hnot, Array.getElem?_eq_none]
      · rfl
      · rw [size_ranks]
        omega
  obtain ⟨d, hd, hrefining, hstable⟩ := (Refining.start hs hsize).refine_ok hg hs hsize
  refine ⟨d, ?_, hrefining, hstable⟩
  rw [dominators, hs.entry]
  show g.refine g.rpo (fun i => (ranks g.size g.rpo)[i]?.getD g.rpo.length) _ = _
  rw [hrank]
  exact hd

/-- A function whose terminators go to its own blocks only has a table of immediate dominators, and
the table is exact. A block has an entry if and only if it can be reached; the entry block is its own;
the ancestors of a block that can be reached are the blocks on all paths to it; and its immediate
dominator is another block on all paths to it, and is dominated by each of the others. -/
theorem dominators_exact {m : Module} {f : FuncId} (hf : f.idx < m.funcs.size)
    (hown : m.OwnSuccessors f) :
    ∃ g d, ofFunc m f = .ok g ∧ g.blocks = m.blocksOf f ∧ g.dominators = .ok d ∧
      (∀ n, d.idom n = none ↔ ¬ g.Reachable n) ∧
      (0 < g.size → d.idom 0 = some 0) ∧
      (∀ a n, g.Reachable n → (d.dominates a n = true ↔ g.Dominates a n)) ∧
      ∀ n, g.Reachable n → n ≠ 0 → ∃ j, d.idom n = some j ∧ j ≠ n ∧ g.Dominates j n ∧
        ∀ a, a ≠ n → g.Dominates a n → g.Dominates a j := by
  obtain ⟨g, hofFunc, hg, hblocks⟩ := exists_ofFunc hf hown
  by_cases hsize : 0 < g.size
  · have hs := hg.swept hsize
    obtain ⟨d, hd, h, hstable⟩ := exists_dominators hg hsize
    have hsome {n : Nat} (hn : g.Reachable n) : (d.idom n).isSome = true := by
      have hmem := (hs.mem_iff hg hsize).2 hn
      exact h.done hmem (List.idxOf_lt_length_of_mem hmem)
    have hiff {a n : Nat} (hn : g.Reachable n) : d.Ancestor a n ↔ g.Dominates a n :=
      ⟨h.dominates_of_ancestor hg hs hsize hstable, h.ancestor_of_dominates hsize (hsome hn)⟩
    refine ⟨g, d, hofFunc, hblocks, hd, fun n => ⟨fun hnone hn => ?_, fun hn => ?_⟩,
      fun _ => h.falling.entry, fun a n hn => ?_, fun n hn hn0 => ?_⟩
    · have hn := hsome hn
      rw [hnone] at hn
      cases hn
    · by_contra hnone
      obtain ⟨j, hj⟩ := Option.ne_none_iff_exists'.1 hnone
      exact hn ((hs.mem_iff hg hsize).1 (h.mem hj))
    · rw [dominates, decide_eq_true_iff, h.mem_ancestors hg hs hsize, hiff hn]
    · obtain ⟨j, hj⟩ := Option.isSome_iff_exists.1 (hsome hn)
      refine ⟨j, hj, fun hjn => ?_, (hiff hn).1 (.up hj .refl), fun a han ha => h.dominated hj ha han⟩
      have hlt := h.falling.falls hj hn0
      rw [hjn] at hlt
      exact Nat.lt_irrefl _ hlt
  · have hnone {n : Nat} : ¬ g.Reachable n := by
      rintro ⟨path, hpath⟩
      exact hsize (Nat.lt_of_le_of_lt (Nat.zero_le _) (hpath.lt hg))
    have hrpo : g.rpo = [] := by rw [rpo, if_pos (by omega)]
    refine ⟨g, ⟨Array.replicate g.size none⟩, hofFunc, hblocks, ?_, fun n => ⟨fun _ => hnone,
      fun _ => ?_⟩, fun h => absurd h hsize, fun a n hn => absurd hn hnone,
      fun n hn => absurd hn hnone⟩
    · rw [dominators, hrpo]
      rfl
    · rw [idom, Array.getElem?_replicate]
      split <;> rfl

/-- Calls that build a function with a cycle of two blocks that is entered at both, from which control
goes back to the entry. A block that nothing goes to leads into the cycle. -/
def knotActions : List Module.Action := [
  .addFunction "f" .void [("c", .i32)],
  .addBlock ⟨0⟩ "entry", .addBlock ⟨0⟩ "left", .addBlock ⟨0⟩ "right", .addBlock ⟨0⟩ "back",
  .addBlock ⟨0⟩ "lost",
  .build ⟨0⟩ (.condBr ⟨0⟩ ⟨1⟩ ⟨2⟩), .build ⟨1⟩ (.condBr ⟨0⟩ ⟨2⟩ ⟨3⟩),
  .build ⟨2⟩ (.condBr ⟨0⟩ ⟨1⟩ ⟨3⟩), .build ⟨3⟩ (.br ⟨0⟩), .build ⟨4⟩ (.br ⟨1⟩)]

/-- The module that `knotActions` build. -/
def knotModule : Module := (knotActions.foldlM Module.Action.run {}).toOption.getD {}

theorem knotModule_ownSuccessors : knotModule.OwnSuccessors ⟨0⟩ := by
  have hblocks : knotModule.blocksOf ⟨0⟩ = [⟨0⟩, ⟨1⟩, ⟨2⟩, ⟨3⟩, ⟨4⟩] := rfl
  rw [Module.OwnSuccessors, hblocks]
  simp only [List.forall_mem_cons]
  exact ⟨⟨[⟨1⟩, ⟨2⟩], rfl, by decide⟩, ⟨[⟨2⟩, ⟨3⟩], rfl, by decide⟩, ⟨[⟨1⟩, ⟨3⟩], rfl, by decide⟩,
    ⟨[⟨0⟩], rfl, by decide⟩, ⟨[⟨1⟩], rfl, by decide⟩, List.forall_mem_nil _⟩

/-- Only the entry is on all paths through the cycle, and the block that leads into it is not
counted. -/
theorem dominators_exact_knot :
    ∃ g d, ofFunc knotModule ⟨0⟩ = .ok g ∧ g.dominators = .ok d ∧
      d.table = #[some 0, some 0, some 0, some 0, none] ∧ ¬ g.Reachable 4 ∧
      g.Reachable 3 ∧ g.Dominates 0 3 ∧ ¬ g.Dominates 1 3 ∧ ¬ g.Dominates 2 3 := by
  obtain ⟨g, d, hg, -, hd, hnone, -, hdominates, -⟩ :=
    dominators_exact (m := knotModule) (f := ⟨0⟩) (by decide) knotModule_ownSuccessors
  have htable : d.table = #[some 0, some 0, some 0, some 0, none] := by
    have heval : ((ofFunc knotModule ⟨0⟩).toOption.bind fun g => g.dominators.toOption.map
        (·.table)) = some #[some 0, some 0, some 0, some 0, none] := by decide +kernel
    rw [hg] at heval
    replace heval : g.dominators.toOption.map (·.table) = _ := heval
    rw [hd] at heval
    exact Option.some.inj heval
  obtain ⟨table⟩ := d
  cases htable
  have hreach : g.Reachable 3 := by
    by_contra hn
    exact absurd ((hnone 3).2 hn) (by decide)
  refine ⟨g, _, hg, hd, rfl, (hnone 4).1 (by decide), hreach, ?_, ?_, ?_⟩
  · exact (hdominates 0 3 hreach).1 (by decide)
  · exact fun h => absurd ((hdominates 1 3 hreach).2 h) (by decide)
  · exact fun h => absurd ((hdominates 2 3 hreach).2 h) (by decide)

end FlowGraph

end SsaCodegen
