import Mathlib.Data.List.Cycle
import Mathlib.Data.List.Perm.Subperm
import Mathlib.Data.Set.Card
import Mathlib.Dynamics.PeriodicPts.Lemmas
import SsaCodegen.Proofs.Copies

/-!
# Cycles of copies

Copies with different destinations are a graph in which each destination has one edge, to its
source. Such a graph is made of cycles with trees that lead into them. A tree costs no temporary,
since its leaves are free, and a cycle costs exactly one.

The argument follows the cycles that pending copies have. To drop a copy of a register to itself
and to carry out a copy whose destination is free leave them as they are. When no destination is
free, there are as many sources as destinations, so each destination is the source of exactly one
copy. Then following sources from any destination leads back to it, and the cut takes away this
cycle and no other.

## Main definitions

* `Copies.cycles` — the cycles of copies
* `Copies.Tallied` — the cycles that are left and the temporaries taken are those of the start

## Main results

* `Copies.eq_of_mem_of_mem` — a register is on one cycle at most
* `Copies.exists_mem_cycles` — while no destination is free, each is on a cycle
* `Copies.sequentialize_minimal` — the number of temporaries and of moves
-/

namespace SsaCodegen.Copies

variable {R : Type}

/-- The cycles of at least two registers in the graph with an edge from the destination of each copy
to its source. -/
def cycles (copies : List (Copy R)) : Set (Cycle R) :=
  {c | c.Nodup ∧ 2 ≤ c.length ∧ c.Chain fun dst src => ⟨dst, src⟩ ∈ copies}

variable {copies copies' : List (Copy R)} {c c' : Cycle R} {a : R}

/-! ## Registers on a cycle -/

/-- A cycle can be cut open at each of its registers. -/
theorem exists_coe_cons (ha : a ∈ c) : ∃ l : List R, c = ↑(a :: l) := by
  induction c using Quotient.inductionOn' with
  | h l =>
    obtain ⟨l₁, l₂, rfl⟩ := List.append_of_mem ha
    exact ⟨l₂ ++ l₁, Cycle.coe_eq_coe.2 List.isRotated_append⟩

/-- A register on a cycle has a copy from another register on it. -/
theorem exists_source (hc : c ∈ cycles copies) (ha : a ∈ c) :
    ∃ b ∈ c, b ≠ a ∧ ⟨a, b⟩ ∈ copies := by
  obtain ⟨l, rfl⟩ := exists_coe_cons ha
  obtain ⟨hnodup, hlen, hchain⟩ := hc
  rw [Cycle.chain_coe_cons] at hchain
  cases l with
  | nil => simp at hlen
  | cons b l =>
    refine ⟨b, by simp, ?_, (List.isChain_cons_cons.1 hchain).1⟩
    rintro rfl
    simp at hnodup

/-- A register on a cycle is read by a copy to a register on it. -/
theorem exists_reader (hc : c ∈ cycles copies) (ha : a ∈ c) : ∃ b ∈ c, ⟨b, a⟩ ∈ copies := by
  obtain ⟨l, rfl⟩ := exists_coe_cons ha
  obtain ⟨-, -, hchain⟩ := hc
  rw [Cycle.chain_ne_nil _ (List.cons_ne_nil a l)] at hchain
  exact ⟨_, List.getLast_mem (List.cons_ne_nil a l), (List.isChain_cons_cons.1 hchain).1⟩

/-- Only the copies between registers on a cycle matter to it. -/
theorem mem_cycles_of_subset (hc : c ∈ cycles copies)
    (h : ∀ e ∈ copies, e.dst ∈ c → e ∈ copies') : c ∈ cycles copies' := by
  obtain ⟨hnodup, hlen, hchain⟩ := hc
  refine ⟨hnodup, hlen, ?_⟩
  induction c using Quotient.inductionOn' with
  | h l =>
    cases l with
    | nil => trivial
    | cons a l =>
      refine List.IsChain.imp_of_mem_imp (fun x y hx _ hxy => h ⟨x, y⟩ hxy ?_) hchain
      have hmem : x ∈ a :: l := by simpa [or_comm] using hx
      exact hmem

/-- A cycle has a register. -/
theorem exists_mem_of_mem_cycles (hc : c ∈ cycles copies) : ∃ a, a ∈ c := by
  obtain ⟨-, hlen, -⟩ := hc
  induction c using Quotient.inductionOn' with
  | h l =>
    obtain ⟨a, ha⟩ := List.exists_mem_of_length_pos (Nat.lt_of_lt_of_le Nat.zero_lt_two hlen)
    exact ⟨a, ha⟩

theorem cycles_nil : cycles ([] : List (Copy R)) = ∅ := by
  refine Set.eq_empty_of_forall_notMem fun c hc => ?_
  obtain ⟨a, ha⟩ := exists_mem_of_mem_cycles hc
  obtain ⟨b, -, hb⟩ := exists_reader hc ha
  exact List.not_mem_nil hb

/-! ## Different destinations -/

section Nodup

variable (hnodup : (copies.map Copy.dst).Nodup)
include hnodup

/-- A destination has one source. -/
theorem src_unique {x y z : R} (hy : ⟨x, y⟩ ∈ copies) (hz : ⟨x, z⟩ ∈ copies) : y = z :=
  congrArg Copy.src (List.inj_on_of_nodup_map hnodup hy hz rfl)

/-- From one register there is one way back to another that is not met in between. -/
theorem eq_of_isChain {x : R} {l l' : List R}
    (h : List.IsChain (fun dst src => ⟨dst, src⟩ ∈ copies) (x :: (l ++ [a])))
    (h' : List.IsChain (fun dst src => ⟨dst, src⟩ ∈ copies) (x :: (l' ++ [a])))
    (ha : a ∉ l) (ha' : a ∉ l') : l = l' := by
  induction l generalizing x l' with
  | nil =>
    cases l' with
    | nil => rfl
    | cons y l' =>
      have heq := src_unique hnodup (List.isChain_cons_cons.1 h).1 (List.isChain_cons_cons.1 h').1
      exact absurd (heq ▸ List.mem_cons_self) ha'
  | cons y l ih =>
    obtain ⟨hy, hrest⟩ := List.isChain_cons_cons.1 h
    cases l' with
    | nil =>
      have heq := src_unique hnodup hy (List.isChain_cons_cons.1 h').1
      exact absurd (heq ▸ List.mem_cons_self) ha
    | cons z l' =>
      obtain ⟨hz, hrest'⟩ := List.isChain_cons_cons.1 h'
      obtain rfl := src_unique hnodup hy hz
      rw [ih hrest hrest' (fun hl => ha (List.mem_cons_of_mem y hl)) fun hl =>
        ha' (List.mem_cons_of_mem y hl)]

/-- A register is on one cycle at most. -/
theorem eq_of_mem_of_mem (hc : c ∈ cycles copies) (hc' : c' ∈ cycles copies) (ha : a ∈ c)
    (ha' : a ∈ c') : c = c' := by
  obtain ⟨l, rfl⟩ := exists_coe_cons ha
  obtain ⟨l', rfl⟩ := exists_coe_cons ha'
  obtain ⟨hl, -, hchain⟩ := hc
  obtain ⟨hl', -, hchain'⟩ := hc'
  rw [eq_of_isChain hnodup hchain hchain' (List.nodup_cons.1 hl).1 (List.nodup_cons.1 hl').1]

/-- If every destination is read, then every source is a destination, and no two copies read the
same register. -/
theorem perm_of_read (h : ∀ e ∈ copies, ∃ d ∈ copies, d.src = e.dst) :
    List.Perm (copies.map Copy.dst) (copies.map Copy.src) := by
  have hsub : copies.map Copy.dst ⊆ copies.map Copy.src := by
    intro r hr
    obtain ⟨e, he, rfl⟩ := List.mem_map.1 hr
    obtain ⟨d, hd, heq⟩ := h e he
    exact List.mem_map.2 ⟨d, hd, heq⟩
  exact (List.subperm_of_subset hnodup hsub).perm_of_length_le (by simp)

end Nodup

section Graph

variable [DecidableEq R] (hnodup : (copies.map Copy.dst).Nodup)
include hnodup

/-- A copy of a register to itself is on no cycle. -/
theorem cycles_filter : cycles (copies.filter fun e => e.dst ≠ e.src) = cycles copies := by
  ext c
  constructor
  · exact fun hc => mem_cycles_of_subset hc fun e he _ => (List.mem_filter.1 he).1
  · refine fun hc => mem_cycles_of_subset hc fun e he hmem => List.mem_filter.2 ⟨he, ?_⟩
    obtain ⟨b, -, hne, hb⟩ := exists_source hc hmem
    have heq : e.src = b := src_unique hnodup he hb
    simpa [heq] using hne.symm

omit hnodup in
/-- A copy whose destination is not read is on no cycle. -/
theorem cycles_erase {e : Copy R} (h : ∀ d ∈ copies, d.src ≠ e.dst) :
    cycles (copies.erase e) = cycles copies := by
  ext c
  constructor
  · exact fun hc => mem_cycles_of_subset hc fun d hd _ => List.mem_of_mem_erase hd
  · refine fun hc => mem_cycles_of_subset hc fun d hd hmem => ?_
    refine (List.mem_erase_of_ne ?_).2 hd
    rintro rfl
    obtain ⟨b, -, hb⟩ := exists_reader hc hmem
    exact h _ hb rfl

section Read

variable (h : ∀ e ∈ copies, ∃ d ∈ copies, d.src = e.dst)
include h

/-- If every destination is read, then the source of a destination is a destination. -/
theorem mapsTo_simultaneous : Set.MapsTo (simultaneous copies id) {r | r ∈ copies.map Copy.dst}
    {r | r ∈ copies.map Copy.dst} := by
  intro r hr
  obtain ⟨e, he, rfl⟩ := List.mem_map.1 hr
  rw [simultaneous_of_mem hnodup id he]
  exact (perm_of_read hnodup h).mem_iff.2 (List.mem_map_of_mem he)

theorem injOn_simultaneous :
    Set.InjOn (simultaneous copies id) {r | r ∈ copies.map Copy.dst} := by
  intro r hr r' hr' heq
  obtain ⟨e, he, rfl⟩ := List.mem_map.1 hr
  obtain ⟨e', he', rfl⟩ := List.mem_map.1 hr'
  rw [simultaneous_of_mem hnodup id he, simultaneous_of_mem hnodup id he'] at heq
  have hnodup' := (perm_of_read hnodup h).nodup_iff.1 hnodup
  rw [List.inj_on_of_nodup_map hnodup' he he' heq]

/-- Following sources from a destination leads back to it. -/
theorem mem_periodicPts {e : Copy R} (he : e ∈ copies) :
    e.dst ∈ Function.periodicPts (simultaneous copies id) := by
  have hmaps := mapsTo_simultaneous hnodup h
  have hinj := hmaps.restrict_inj.2 (injOn_simultaneous hnodup h)
  have hfinite : Finite {r | r ∈ copies.map Copy.dst} := (List.finite_toSet _).to_subtype
  obtain ⟨n, hn, hperiod⟩ := hinj.mem_periodicPts ⟨e.dst, List.mem_map_of_mem he⟩
  exact ⟨n, hn, hperiod.map (g := Subtype.val) fun _ => rfl⟩

/-- If also no copy is from a register to itself, then every destination is on a cycle. -/
theorem exists_mem_cycles (hself : ∀ e ∈ copies, e.dst ≠ e.src) {e : Copy R} (he : e ∈ copies) :
    ∃ c ∈ cycles copies, e.dst ∈ c := by
  have hperiodic := mem_periodicPts hnodup h he
  have hnext : simultaneous copies id e.dst = e.src := simultaneous_of_mem hnodup id he
  refine ⟨_, ⟨Function.nodup_periodicOrbit, ?_, ?_⟩, Function.self_mem_periodicOrbit hperiodic⟩
  · have hpos := Function.minimalPeriod_pos_of_mem_periodicPts hperiodic
    have hone : Function.minimalPeriod (simultaneous copies id) e.dst ≠ 1 := by
      rw [Ne, Function.minimalPeriod_eq_one_iff_isFixedPt]
      exact fun hfixed => hself e he (hfixed.symm.trans hnext)
    rw [Function.periodicOrbit_length]
    omega
  · rw [Function.periodicOrbit_chain' _ hperiodic]
    intro n
    obtain ⟨d, hd, heq⟩ := List.mem_map.1
      ((mapsTo_simultaneous hnodup h).iterate n (List.mem_map_of_mem he))
    rw [Function.iterate_succ_apply', ← heq, simultaneous_of_mem hnodup id hd]
    exact hd

end Read

end Graph

/-- If every destination is read, then a copy that is made to read a register that is no destination
was on one cycle. The other cycles stay. -/
theorem exists_cycles_save [DecidableEq R] {e : Copy R} {rest : List (Copy R)} {tmp : R}
    (hnodup : ((e :: rest).map Copy.dst).Nodup) (htmp : ∀ d ∈ e :: rest, d.dst ≠ tmp)
    (hread : ∀ d ∈ e :: rest, ∃ d' ∈ e :: rest, d'.src = d.dst)
    (hself : ∀ d ∈ e :: rest, d.dst ≠ d.src) :
    ∃ c ∉ cycles (rest ++ [⟨e.dst, tmp⟩]),
      cycles (e :: rest) = insert c (cycles (rest ++ [⟨e.dst, tmp⟩])) := by
  have hrest : ∀ d ∈ rest, d.dst ≠ e.dst := by
    intro d hd heq
    exact (List.nodup_cons.1 hnodup).1 (heq ▸ List.mem_map_of_mem hd)
  -- from the copy that was cut there is no way on
  have hcut : ∀ c ∈ cycles (rest ++ [⟨e.dst, tmp⟩]), e.dst ∉ c := by
    intro c hc hmem
    obtain ⟨b, hb, -, hcopy⟩ := exists_source hc hmem
    have hsrc : b = tmp := by
      rcases List.mem_append.1 hcopy with hcopy | hcopy
      · exact absurd rfl (hrest ⟨e.dst, b⟩ hcopy)
      · cases List.mem_singleton.1 hcopy
        rfl
    obtain ⟨b', -, -, hcopy'⟩ := exists_source hc (hsrc ▸ hb)
    rcases List.mem_append.1 hcopy' with hcopy' | hcopy'
    · exact htmp _ (List.mem_cons_of_mem e hcopy') rfl
    · exact htmp e List.mem_cons_self (congrArg Copy.dst (List.mem_singleton.1 hcopy')).symm
  obtain ⟨c, hc, hmem⟩ := exists_mem_cycles hnodup hread hself List.mem_cons_self
  refine ⟨c, fun hnew => hcut c hnew hmem, Set.ext fun c' => ⟨fun hc' => ?_, ?_⟩⟩
  · by_cases hmem' : e.dst ∈ c'
    · exact .inl (eq_of_mem_of_mem hnodup hc' hc hmem' hmem)
    · refine .inr (mem_cycles_of_subset hc' fun d hd hd' => List.mem_append_left _ ?_)
      exact (List.mem_cons.1 hd).resolve_left fun heq => hmem' (heq ▸ hd')
  · rintro (rfl | hc')
    · exact hc
    · refine mem_cycles_of_subset hc' fun d hd hd' => ?_
      rcases List.mem_append.1 hd with hd | hd
      · exact List.mem_cons_of_mem e hd
      · cases List.mem_singleton.1 hd
        exact absurd hd' (hcut c' hc')

/-! ## The sequence -/

section Tallied

variable [DecidableEq R] {fresh : Nat → R} {p : Progress R}

/-- The cycles of the pending copies and the temporaries taken are as many as the copies had cycles,
and the moves and the copies to do are as many as the copies that were to do and temporaries. -/
structure Tallied (fresh : Nat → R) (copies : List (Copy R)) (p : Progress R) : Prop where
  nodup : (p.pending.map Copy.dst).Nodup
  dst : ∀ e ∈ p.pending, ∀ k, e.dst ≠ fresh k
  cycles : (cycles p.pending).encard + p.temps = (cycles copies).encard
  moves : p.moves.length + p.pending.countP (fun e => e.dst ≠ e.src) =
    copies.countP (fun e => e.dst ≠ e.src) + p.temps

namespace Tallied

theorem start (hnodup : (copies.map Copy.dst).Nodup) (hdst : ∀ e ∈ copies, ∀ k, e.dst ≠ fresh k) :
    Tallied fresh copies { pending := copies } :=
  ⟨hnodup, hdst, by simp, by simp⟩

theorem filter (h : Tallied fresh copies p) :
    Tallied fresh copies { p with pending := p.pending.filter fun e => e.dst ≠ e.src } where
  nodup := h.nodup.sublist (List.filter_sublist.map _)
  dst e he := h.dst e (List.mem_filter.1 he).1
  cycles := by
    rw [cycles_filter h.nodup]
    exact h.cycles
  moves := by
    rw [List.countP_filter]
    simpa using h.moves

/-- A copy is carried out whose destination no copy reads. -/
theorem copy (h : Tallied fresh copies p) {e : Copy R} (he : e ∈ p.pending)
    (hself : e.dst ≠ e.src) (hfree : ∀ d ∈ p.pending, d.src ≠ e.dst) :
    Tallied fresh copies { p with pending := p.pending.erase e, moves := p.moves ++ [e] } where
  nodup := h.nodup.sublist (List.erase_sublist.map _)
  dst d hd := h.dst d (List.mem_of_mem_erase hd)
  cycles := by
    rw [cycles_erase hfree]
    exact h.cycles
  moves := by
    have hmoves := h.moves
    rw [(List.perm_cons_erase he).countP_eq, List.countP_cons_of_pos (by simpa using hself)]
      at hmoves
    rw [← hmoves, List.length_append, List.length_singleton]
    dsimp only
    omega

/-- A cycle is cut. -/
theorem save {e : Copy R} {rest moves : List (Copy R)} {temps : Nat}
    (h : Tallied fresh copies ⟨e :: rest, moves, temps⟩)
    (hread : ∀ d ∈ e :: rest, ∃ d' ∈ e :: rest, d'.src = d.dst)
    (hself : ∀ d ∈ e :: rest, d.dst ≠ d.src) :
    Tallied fresh copies
      ⟨rest ++ [⟨e.dst, fresh temps⟩], moves ++ [⟨fresh temps, e.src⟩], temps + 1⟩ where
  nodup := by
    rw [List.map_append]
    exact (List.perm_append_singleton e.dst (rest.map Copy.dst)).nodup_iff.2 h.nodup
  dst d hd := by
    rcases List.mem_append.1 hd with hd | hd
    · exact h.dst d (List.mem_cons_of_mem e hd)
    · cases List.mem_singleton.1 hd
      exact h.dst e List.mem_cons_self
  cycles := by
    obtain ⟨c, hc, heq⟩ :=
      exists_cycles_save h.nodup (fun d hd => h.dst d hd temps) hread hself
    rw [← h.cycles, heq, Set.encard_insert_of_notMem hc, Nat.cast_add, Nat.cast_one, add_assoc,
      add_comm 1]
  moves := by
    have hmoves := h.moves
    rw [List.countP_cons_of_pos (by simpa using hself e List.mem_cons_self)] at hmoves
    have hne : e.dst ≠ fresh temps := h.dst e List.mem_cons_self temps
    rw [List.countP_append, List.countP_singleton, if_pos (by simpa using hne), List.length_append,
      List.length_singleton]
    dsimp only at hmoves ⊢
    omega

theorem step (h : Tallied fresh copies p) (hself : ∀ e ∈ p.pending, e.dst ≠ e.src) :
    Tallied fresh copies (step fresh p) := by
  rw [Copies.step]
  split
  · rename_i e hfind
    have he := List.mem_of_find?_eq_some hfind
    refine h.copy he (hself e he) fun d hd heq => ?_
    have hfree := List.find?_some hfind
    have hor := List.all_eq_true.1 hfree d hd
    have hsame : d.dst = e.dst := by simpa [heq] using hor
    exact hself d hd (hsame.trans heq.symm)
  · rename_i hnone
    split
    · exact h
    · rename_i e rest hpending
      obtain ⟨pending, moves, temps⟩ := p
      subst hpending
      refine h.save (fun d hd => ?_) hself
      have hread := List.find?_eq_none.1 hnone d hd
      obtain ⟨d', hd', hor⟩ := List.all_eq_false.1 (Bool.eq_false_of_not_eq_true hread)
      simp only [Bool.or_eq_true, decide_eq_true_eq, not_or, ne_eq, not_not] at hor
      exact ⟨d', hd', hor.2⟩

theorem run (h : Tallied fresh copies p) (n : Nat) : Tallied fresh copies (run fresh n p) := by
  induction n generalizing p with
  | zero => exact h
  | succ n ih =>
    rw [Copies.run]
    dsimp only
    split
    · exact h.filter
    · refine ih (h.filter.step fun e he => ?_)
      exact of_decide_eq_true (List.mem_filter.1 he).2

end Tallied

/-- Copies to different registers, none of which is a temporary, take one temporary for each cycle
of two registers or more, and one move for each copy that is not from a register to itself and for
each temporary. -/
theorem sequentialize_minimal (fresh : Nat → R) (copies : List (Copy R))
    (hnodup : (copies.map Copy.dst).Nodup) (hdst : ∀ e ∈ copies, ∀ k, e.dst ≠ fresh k) :
    ∃ seq, sequentialize fresh copies = .ok seq ∧ (cycles copies).encard = seq.temps ∧
      seq.moves.length = copies.countP (fun e => e.dst ≠ e.src) + seq.temps := by
  obtain ⟨seq, hseq, -⟩ := exists_sequentialize hdst
  refine ⟨seq, hseq, ?_⟩
  have hend := ((Tallied.start hnodup hdst).run (bound copies)).filter
  rw [sequentialize] at hseq
  split at hseq
  · rename_i hall
    cases hseq
    have hnil : (run fresh (bound copies) { pending := copies }).pending.filter
        (fun e => e.dst ≠ e.src) = [] := by
      simpa [List.filter_eq_nil_iff] using hall
    rw [hnil] at hend
    refine ⟨?_, ?_⟩
    · have hcycles := hend.cycles
      rw [cycles_nil, Set.encard_empty, zero_add] at hcycles
      exact hcycles.symm
    · simpa using hend.moves
  · cases hseq

/-- Two cycles, a tail that leads into one of them, and a copy of a register to itself. -/
theorem sequentialize_minimal_two :
    let copies : List (Copy Nat) := [⟨5, 1⟩, ⟨0, 1⟩, ⟨1, 2⟩, ⟨2, 0⟩, ⟨3, 4⟩, ⟨4, 3⟩, ⟨6, 6⟩]
    (copies.map Copy.dst).Nodup ∧ (∀ e ∈ copies, ∀ k, e.dst ≠ 10 + k) ∧
      (cycles copies).encard = 2 ∧
      ∃ seq, sequentialize (10 + ·) copies = .ok seq ∧ seq.temps = 2 ∧ seq.moves.length = 8 := by
  intro copies
  have hnodup : (copies.map Copy.dst).Nodup := by decide
  have hsmall : ∀ e ∈ copies, e.dst < 10 := by decide
  have hdst : ∀ e ∈ copies, ∀ k, e.dst ≠ 10 + k := by
    intro e he k heq
    have hlt := hsmall e he
    omega
  obtain ⟨seq, hseq, hcycles, hmoves⟩ := sequentialize_minimal (10 + ·) copies hnodup hdst
  have htemps : seq.temps = 2 := by
    have hrun : (sequentialize (10 + ·) copies).toOption.map (·.temps) = some 2 := by decide
    simpa [hseq, Except.toOption] using hrun
  refine ⟨hnodup, hdst, ?_, seq, hseq, htemps, ?_⟩
  · rw [hcycles, htemps]
    rfl
  · rw [hmoves, htemps]
    rfl

end Tallied

end SsaCodegen.Copies
