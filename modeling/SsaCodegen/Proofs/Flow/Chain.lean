import SsaCodegen.Flow.Dominators
import SsaCodegen.Fault

/-!
# Chains of immediate dominators

A table of immediate dominators spells for each node its chain of ancestors, which runs up to the
entry with falling ranks. Two nodes with entries in the table have a nearest common ancestor, whose
ancestors are their common ancestors. When one node moves, so do the chains of all nodes below it.

## Main definitions

* `Dominators.Ancestor` — a node is on the chain of another
* `Dominators.Falling` — ranks fall along all chains

## Main results

* `Dominators.ancestor_put_iff` — what moving one node does to all chains
* `FlowGraph.nearest_ok`, `nearestAmong_ok` — the nearest common ancestor
-/

namespace SsaCodegen

namespace Dominators

/-- A node is on the chain of immediate dominators that starts at another. -/
inductive Ancestor (d : Dominators) (a : Nat) : Nat → Prop
  | refl : Ancestor d a a
  | up {i j : Nat} (hi : d.idom i = some j) (h : Ancestor d a j) : Ancestor d a i

/-- A table that spells chains up to the entry. -/
structure Falling (rank : Nat → Nat) (d : Dominators) : Prop where
  entry : d.idom 0 = some 0
  falls : ∀ {i j}, d.idom i = some j → i ≠ 0 → rank j < rank i
  closed : ∀ {i j}, d.idom i = some j → (d.idom j).isSome = true

variable {d : Dominators} {rank : Nat → Nat} {a c i j k x y : Nat}

theorem Ancestor.trans (h : d.Ancestor a j) (h' : d.Ancestor j i) : d.Ancestor a i := by
  induction h' with
  | refl => exact h
  | up hi _ ih => exact ih.up hi

theorem ancestor_iff (hi : d.idom i = some j) : d.Ancestor a i ↔ a = i ∨ d.Ancestor a j := by
  constructor
  · intro h
    cases h with
    | refl => exact .inl rfl
    | up hi' h =>
      cases hi.symm.trans hi'
      exact .inr h
  · rintro (rfl | h)
    · exact .refl
    · exact h.up hi

theorem ancestor_of_none (hi : d.idom i = none) : d.Ancestor a i ↔ a = i := by
  constructor
  · intro h
    cases h with
    | refl => rfl
    | up hi' _ => cases hi.symm.trans hi'
  · rintro rfl
    exact .refl

/-- Two ancestors of a node are on one chain. -/
theorem Ancestor.total (hx : d.Ancestor x i) (hy : d.Ancestor y i) :
    d.Ancestor x y ∨ d.Ancestor y x := by
  induction hx with
  | refl => exact .inr hy
  | up hi hx ih =>
    rcases (ancestor_iff hi).1 hy with rfl | hy
    · exact .inl (hx.up hi)
    · exact ih hy

namespace Falling

/-- The entry has no ancestor but itself. -/
theorem eq_entry (h : d.Falling rank) (ha : d.Ancestor a 0) : a = 0 := by
  -- the chain of the entry goes nowhere
  have hchain {i : Nat} (hi : d.Ancestor a i) (h0 : i = 0) : a = 0 := by
    induction hi with
    | refl => exact h0
    | up hij _ ih =>
      subst h0
      cases h.entry.symm.trans hij
      exact ih rfl
  exact hchain ha rfl

theorem rank_le (h : d.Falling rank) (ha : d.Ancestor a i) : rank a ≤ rank i := by
  induction ha with
  | refl => exact Nat.le_refl _
  | @up i j hi _ ih =>
    by_cases h0 : i = 0
    · subst h0
      cases h.entry.symm.trans hi
      exact ih
    · exact Nat.le_of_lt (Nat.lt_of_le_of_lt ih (h.falls hi h0))

theorem eq_of_rank_le (h : d.Falling rank) (ha : d.Ancestor a i) (hr : rank i ≤ rank a) :
    a = i := by
  cases ha with
  | refl => rfl
  | @up _ j hi ha =>
    by_cases h0 : i = 0
    · subst h0
      exact h.eq_entry (ha.up hi)
    · have := h.falls hi h0
      have := h.rank_le ha
      omega

theorem antisymm (h : d.Falling rank) (ha : d.Ancestor a i) (hi : d.Ancestor i a) : a = i :=
  h.eq_of_rank_le ha (h.rank_le hi)

/-- The ancestors of a node with an entry in the table have entries. -/
theorem isSome (h : d.Falling rank) (ha : d.Ancestor a i) (hi : (d.idom i).isSome = true) :
    (d.idom a).isSome = true := by
  induction ha with
  | refl => exact hi
  | up hij _ ih => exact ih (h.closed hij)

end Falling

/-! ## Moving a node -/

/-- The table with another entry for one node. -/
def put (d : Dominators) (k c : Nat) : Dominators := ⟨d.table.setIfInBounds k (some c)⟩

theorem idom_put (hk : k < d.table.size) :
    (d.put k c).idom i = if i = k then some c else d.idom i := by
  rw [idom, put, Array.getElem?_setIfInBounds]
  by_cases hi : k = i
  · subst hi
    simp [hk]
  · rw [if_neg hi, if_neg (Ne.symm hi), idom]

theorem isSome_put (hk : k < d.table.size) (hi : (d.idom i).isSome = true) :
    ((d.put k c).idom i).isSome = true := by
  rw [idom_put hk]
  split
  · rfl
  · exact hi

/-- An entry that is there already changes nothing. -/
theorem put_eq_self (h : d.idom k = some c) : d.put k c = d := by
  obtain ⟨table⟩ := d
  have hk : table[k]? = some (some c) := Option.join_eq_some_iff.1 h
  refine congrArg Dominators.mk (Array.ext_getElem? fun i => ?_)
  rw [Array.getElem?_setIfInBounds]
  by_cases hi : k = i
  · subst hi
    rw [if_pos rfl, hk, if_pos (Array.getElem?_eq_some_iff.1 hk).1]
  · rw [if_neg hi]

section Put

variable (hf : d.Falling rank) (hk : k < d.table.size) (hc : rank c < rank k)
include hf hk hc

/-- A chain that does not go on from the node that moves stays. -/
theorem Ancestor.put (h : d.Ancestor x y) (hxy : d.Ancestor k x ∨ ¬ d.Ancestor k y) :
    (d.put k c).Ancestor x y := by
  induction h with
  | refl => exact .refl
  | @up y j hy h ih =>
    by_cases hyk : y = k
    · subst hyk
      rcases hxy with hx | hnot
      · obtain rfl := hf.antisymm (h.up hy) hx
        exact .refl
      · exact absurd .refl hnot
    · refine .up (j := j) ?_ (ih (hxy.imp id fun hnot hj => hnot (hj.up hy)))
      rw [idom_put hk, if_neg hyk, hy]

/-- After a node has moved to below another, the ancestors of a node above which it was are those
from there down and those of the other. All other nodes keep their ancestors. -/
theorem ancestor_put_iff : (d.put k c).Ancestor x y ↔
    d.Ancestor x y ∧ (d.Ancestor k x ∨ ¬ d.Ancestor k y) ∨ d.Ancestor k y ∧ d.Ancestor x c := by
  have hkc : ¬ d.Ancestor k c := fun h => absurd (hf.rank_le h) (Nat.not_le.2 hc)
  constructor
  · intro h
    induction h with
    | refl => exact .inl ⟨.refl, Classical.em _⟩
    | @up y j hy h ih =>
      rw [idom_put hk] at hy
      by_cases hyk : y = k
      · subst hyk
        rw [if_pos rfl] at hy
        cases hy
        rcases ih with ⟨hx, -⟩ | ⟨hx, -⟩
        · exact .inr ⟨.refl, hx⟩
        · exact absurd hx hkc
      · rw [if_neg hyk] at hy
        rcases ih with ⟨hx, hkx⟩ | ⟨hkj, hx⟩
        · refine .inl ⟨hx.up hy, hkx.imp id fun hnot hky => ?_⟩
          exact hnot (((ancestor_iff hy).1 hky).resolve_left (Ne.symm hyk))
        · exact .inr ⟨hkj.up hy, hx⟩
  · rintro (⟨hx, hkx⟩ | ⟨hky, hx⟩)
    · exact hx.put hf hk hc hkx
    · have hky' : (d.put k c).Ancestor k y := hky.put hf hk hc (.inl .refl)
      have hxc : (d.put k c).Ancestor x c := hx.put hf hk hc (.inr hkc)
      refine .trans (hxc.up ?_) hky'
      rw [idom_put hk, if_pos rfl]

theorem ancestor_put_of_not (hy : ¬ d.Ancestor k y) :
    (d.put k c).Ancestor x y ↔ d.Ancestor x y := by
  rw [ancestor_put_iff hf hk hc]
  simp [hy]

/-- Nodes below a rank keep their ancestors when a node of that rank moves. -/
theorem ancestor_put_of_rank_lt (hy : rank y < rank k) :
    (d.put k c).Ancestor x y ↔ d.Ancestor x y :=
  ancestor_put_of_not hf hk hc fun h => absurd (hf.rank_le h) (Nat.not_le.2 hy)

end Put

end Dominators

namespace FlowGraph

open Dominators

variable {d : Dominators} {i j : Nat}

/-! ## The nearest common ancestor -/

/-- Two nodes with entries in the table have a nearest common ancestor. -/
theorem nearest_ok {rank : Nat → Nat} (hf : d.Falling rank) (h0 : rank 0 = 0)
    (hinj : ∀ {i j}, (d.idom i).isSome = true → (d.idom j).isSome = true → rank i = rank j → i = j)
    (hi : (d.idom i).isSome = true) (hj : (d.idom j).isSome = true) :
    ∃ c, nearest rank d i j = .ok c ∧ ∀ a, d.Ancestor a c ↔ d.Ancestor a i ∧ d.Ancestor a j := by
  -- going up from the node of higher rank loses no common ancestor
  have hup {i j k} (hk : d.idom i = some k) (hr : rank j < rank i) (a : Nat) :
      d.Ancestor a k ∧ d.Ancestor a j ↔ d.Ancestor a i ∧ d.Ancestor a j := by
    rw [ancestor_iff hk]
    constructor
    · exact fun ⟨ha, haj⟩ => ⟨.inr ha, haj⟩
    · rintro ⟨rfl | ha, haj⟩
      · exact absurd (hf.rank_le haj) (Nat.not_le.2 hr)
      · exact ⟨ha, haj⟩
  have hfalls {i j k} (hk : d.idom i = some k) (hr : rank j < rank i) : rank k < rank i :=
    hf.falls hk fun hi0 => by rw [hi0, h0] at hr; omega
  fun_induction nearest rank d i j with
  | case1 i => exact ⟨i, rfl, by simp⟩
  | case2 i j hij hr hnone => simp [hnone] at hi
  | case3 i j hij hr k hk hlt ih =>
    obtain ⟨c, hc, hiff⟩ := ih (hf.closed hk) hj
    exact ⟨c, hc, fun a => (hiff a).trans (hup hk hr a)⟩
  | case4 i j hij hr k hk hlt => exact absurd (hfalls hk hr) hlt
  | case5 i j hij hr hr' hnone => simp [hnone] at hj
  | case6 i j hij hr hr' k hk hlt ih =>
    obtain ⟨c, hc, hiff⟩ := ih hi (hf.closed hk)
    exact ⟨c, hc, fun a => (hiff a).trans (and_comm.trans ((hup hk hr' a).trans and_comm))⟩
  | case7 i j hij hr hr' k hk hlt => exact absurd (hfalls hk hr') hlt
  | case8 i j hij hr hr' => exact absurd (hinj hi hj (by omega)) hij

/-- The nodes of a list that have entries in the table, together with one that is given, have a
nearest common ancestor, if there are any. -/
theorem nearestAmong_ok {rank : Nat → Nat} (hf : d.Falling rank) (h0 : rank 0 = 0)
    (hinj : ∀ {i j}, (d.idom i).isSome = true → (d.idom j).isSome = true → rank i = rank j → i = j)
    {l : List Nat} (acc : Option Nat) (hacc : ∀ j, acc = some j → (d.idom j).isSome = true)
    (hsome : acc.isSome = true ∨ ∃ p ∈ l, (d.idom p).isSome = true) :
    ∃ c, nearestAmong rank d acc l = .ok (some c) ∧
      ∀ a, d.Ancestor a c ↔
        (∀ j, acc = some j → d.Ancestor a j) ∧
          ∀ p ∈ l, (d.idom p).isSome = true → d.Ancestor a p := by
  induction l generalizing acc with
  | nil =>
    obtain ⟨j, rfl⟩ := Option.isSome_iff_exists.1 (hsome.resolve_right (by simp))
    exact ⟨j, rfl, by simp⟩
  | cons i rest ih =>
    cases hi : d.idom i with
    | none =>
      obtain ⟨c, hc, hiff⟩ := ih acc hacc (hsome.imp id (by simp [hi]))
      refine ⟨c, ?_, fun a => by simpa [hi] using hiff a⟩
      simp only [nearestAmong, hi]
      exact hc
    | some k =>
      have hi' : (d.idom i).isSome = true := by rw [hi]; rfl
      cases acc with
      | none =>
        obtain ⟨c, hc, hiff⟩ := ih (some i) (by simpa using hi') (.inl rfl)
        refine ⟨c, ?_, fun a => by simpa [hi] using hiff a⟩
        simp only [nearestAmong, hi]
        exact hc
      | some j =>
        obtain ⟨n, hn, hcommon⟩ := nearest_ok hf h0 hinj hi' (hacc j rfl)
        have hn' : (d.idom n).isSome = true := hf.isSome ((hcommon n).1 .refl).1 hi'
        obtain ⟨c, hc, hiff⟩ := ih (some n) (by simpa using hn') (.inl rfl)
        refine ⟨c, ?_, fun a => ?_⟩
        · simp only [nearestAmong, hi, hn]
          exact hc
        · have hiff := hiff a
          simp only [Option.some.injEq, forall_eq', hcommon] at hiff
          simp [hiff, hi, and_left_comm, and_assoc]

end FlowGraph

end SsaCodegen
