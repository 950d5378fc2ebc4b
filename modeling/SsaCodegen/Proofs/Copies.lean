import Mathlib.Data.List.Nodup
import Mathlib.Logic.Function.Basic
import SsaCodegen.Copies

/-!
# Parallel copies in sequence

A sequence of moves that was found for a parallel copy has the effect of the parallel copy. A
parallel copy may name a destination more than once; it then ends up with the source of any of its
copies, a copy to itself apart. Temporaries end up with anything.

The invariant is stated in terms of the goal alone: each copy that is still pending would bring its
destination to the goal, and a register with no pending copy is there already.

Copies that read a temporary queue up behind all others, and while only such copies are pending every
destination is free. Hence no copy is cut twice, and the steps that a set of copies is given are
always enough.

## Main definitions

* `Copies.perform` — the contents of registers after moves, one after the other
* `Copies.Assigns` — what a register may hold after copies that happen together
* `Copies.Toward` — sequencing under way heads for a goal
* `Copies.Queued` — the copies that read temporaries come last
* `Copies.Accounted` — what pending copies and moves read and write
* `Copies.simultaneous` — the parallel copy as a function, for different destinations

## Main results

* `Copies.sequentialize_assigns` — the sequence has the effect of the parallel copy
* `Copies.exists_sequentialize` — there always is one, and it takes one temporary a copy at most
* `Copies.sequentialize_simultaneous` — both, in terms of the contents of registers
-/

namespace SsaCodegen.Copies

variable {R W : Type} [DecidableEq R]

/-- The contents of registers after moves, one after the other. -/
def perform (moves : List (Copy R)) (ρ : R → W) : R → W :=
  moves.foldl (fun ρ c => Function.update ρ c.dst (ρ c.src)) ρ

theorem perform_concat (moves : List (Copy R)) (c : Copy R) (ρ : R → W) :
    perform (moves ++ [c]) ρ =
      Function.update (perform moves ρ) c.dst (perform moves ρ c.src) := by
  rw [perform, List.foldl_append]
  rfl

/-- What a register may hold after copies that happen together: what the source of a copy to it
held, or what it held itself if there is no copy to it from another register. -/
inductive Assigns (copies : List (Copy R)) (ρ : R → W) (r : R) : W → Prop where
  | copied {c : Copy R} : c ∈ copies → c.dst ≠ c.src → c.dst = r → Assigns copies ρ r (ρ c.src)
  | kept : (∀ c ∈ copies, c.dst = r → c.dst = c.src) → Assigns copies ρ r (ρ r)

/-- A register has what every copy to it brings, or what it had if there is no copy to it. -/
theorem Assigns.eq {copies : List (Copy R)} {ρ : R → W} {r : R} {w x : W}
    (h : Assigns copies ρ r w) (hcopy : ∀ c ∈ copies, c.dst = r → ρ c.src = x)
    (hkeep : (∀ c ∈ copies, c.dst ≠ r) → ρ r = x) : w = x := by
  cases h with
  | copied hc _ hdst => exact hcopy _ hc hdst
  | kept hself =>
    by_cases hany : ∃ c ∈ copies, c.dst = r
    · obtain ⟨c, hc, hdst⟩ := hany
      rw [← hcopy c hc hdst, ← hself c hc hdst, hdst]
    · exact hkeep fun c hc hdst => hany ⟨c, hc, hdst⟩

/-- With the contents `ρ` of registers so far, the pending copies lead every register that is no
temporary to what `goal` says of it. -/
structure Toward (fresh : Nat → R) (goal : R → W → Prop) (p : Progress R) (ρ : R → W) : Prop where
  source : ∀ {c}, c ∈ p.pending → c.dst ≠ c.src → goal c.dst (ρ c.src)
  done : ∀ {r}, (∀ k, r ≠ fresh k) → (∀ c ∈ p.pending, c.dst = r → c.dst = c.src) → goal r (ρ r)
  dst : ∀ {c}, c ∈ p.pending → ∀ k, c.dst ≠ fresh k
  src : ∀ {c}, c ∈ p.pending → ∀ k, p.temps ≤ k → c.src ≠ fresh k

variable {fresh : Nat → R} {goal : R → W → Prop} {p : Progress R} {ρ : R → W}

/-- A copy of a register to itself has nothing left to do. -/
theorem Toward.filter (h : Toward fresh goal p ρ) :
    Toward fresh goal { p with pending := p.pending.filter fun c => c.dst ≠ c.src } ρ where
  source hc := h.source (List.mem_filter.1 hc).1
  done hr hself := by
    refine h.done hr fun c hc hdst => ?_
    by_contra hne
    exact hne (hself c (List.mem_filter.2 ⟨hc, by simpa using hne⟩) hdst)
  dst hc := h.dst (List.mem_filter.1 hc).1
  src hc := h.src (List.mem_filter.1 hc).1

/-- A copy whose destination no other copy reads can be carried out. -/
theorem Toward.copy (h : Toward fresh goal p ρ) (hself : ∀ c ∈ p.pending, c.dst ≠ c.src)
    {c : Copy R} (hc : c ∈ p.pending) (hfree : isFree p.pending c.dst = true) :
    Toward fresh goal { p with pending := p.pending.erase c, moves := p.moves ++ [c] }
      (Function.update ρ c.dst (ρ c.src)) where
  source {c'} hc' hne := by
    have hc' : c' ∈ p.pending := List.mem_of_mem_erase hc'
    have hread : c'.src ≠ c.dst := by
      have hor := List.all_eq_true.1 hfree c' hc'
      rcases Bool.or_eq_true_iff.1 hor with hdst | hsrc
      · exact fun heq => hne ((of_decide_eq_true hdst).trans heq.symm)
      · exact of_decide_eq_true hsrc
    rw [Function.update_of_ne hread]
    exact h.source hc' hne
  done {r} hr hpending := by
    by_cases hrc : r = c.dst
    · rw [hrc, Function.update_self]
      exact h.source hc (hself c hc)
    · rw [Function.update_of_ne hrc]
      refine h.done hr fun c' hc' hdst => ?_
      have hne : c' ≠ c := by
        rintro rfl
        exact hrc hdst.symm
      exact hpending c' ((List.mem_erase_of_ne hne).2 hc') hdst
  dst hc' := h.dst (List.mem_of_mem_erase hc')
  src hc' := h.src (List.mem_of_mem_erase hc')

/-- The source of a copy can be moved to a new temporary and copied from there later. -/
theorem Toward.save (hfresh : Function.Injective fresh) {c : Copy R} {rest : List (Copy R)}
    {moves : List (Copy R)} {temps : Nat} (h : Toward fresh goal ⟨c :: rest, moves, temps⟩ ρ)
    (hself : c.dst ≠ c.src) :
    Toward fresh goal ⟨rest ++ [⟨c.dst, fresh temps⟩], moves ++ [⟨fresh temps, c.src⟩], temps + 1⟩
      (Function.update ρ (fresh temps) (ρ c.src)) where
  source {c'} hc' hne := by
    rcases List.mem_append.1 hc' with hc' | hc'
    · have hc' := List.mem_cons_of_mem c hc'
      rw [Function.update_of_ne (h.src hc' temps (Nat.le_refl _))]
      exact h.source hc' hne
    · obtain rfl := List.mem_singleton.1 hc'
      show goal c.dst (Function.update ρ (fresh temps) (ρ c.src) (fresh temps))
      rw [Function.update_self]
      exact h.source List.mem_cons_self hself
  done {r} hr hpending := by
    rw [Function.update_of_ne (hr temps)]
    refine h.done hr fun c' hc' hdst => ?_
    rcases List.mem_cons.1 hc' with rfl | hc'
    · -- the copy from the temporary is still to come, so this register is not done
      have hlast := hpending ⟨c'.dst, fresh temps⟩ (List.mem_append_right _ List.mem_cons_self) hdst
      exact absurd hlast (h.dst List.mem_cons_self temps)
    · exact hpending c' (List.mem_append_left _ hc') hdst
  dst {c'} hc' := by
    rcases List.mem_append.1 hc' with hc' | hc'
    · exact h.dst (List.mem_cons_of_mem c hc')
    · obtain rfl := List.mem_singleton.1 hc'
      exact h.dst (c := c) List.mem_cons_self
  src {c'} hc' k hk := by
    have hk : temps + 1 ≤ k := hk
    rcases List.mem_append.1 hc' with hc' | hc'
    · exact h.src (List.mem_cons_of_mem c hc') k (by show temps ≤ k; omega)
    · obtain rfl := List.mem_singleton.1 hc'
      intro heq
      have hlt : temps = k := hfresh heq
      omega

/-- One step keeps to the goal. -/
theorem Toward.step (hfresh : Function.Injective fresh)
    (h : Toward fresh goal p (perform p.moves ρ)) (hself : ∀ c ∈ p.pending, c.dst ≠ c.src) :
    Toward fresh goal (step fresh p) (perform (step fresh p).moves ρ) := by
  rw [Copies.step]
  split
  · rename_i c hfind
    rw [perform_concat]
    have hfree := List.find?_some hfind
    exact h.copy hself (List.mem_of_find?_eq_some hfind) hfree
  · split
    · exact h
    · rename_i c rest hpending
      obtain ⟨pending, moves, temps⟩ := p
      subst hpending
      rw [perform_concat]
      exact h.save hfresh (hself c List.mem_cons_self)

/-- Any number of steps keeps to the goal. -/
theorem Toward.run (hfresh : Function.Injective fresh) (n : Nat)
    (h : Toward fresh goal p (perform p.moves ρ)) :
    Toward fresh goal (run fresh n p) (perform (run fresh n p).moves ρ) := by
  induction n generalizing p with
  | zero => exact h
  | succ n ih =>
    rw [Copies.run]
    dsimp only
    split
    · exact h.filter
    · refine ih (Toward.step hfresh h.filter ?_)
      intro c hc
      exact of_decide_eq_true (List.mem_filter.1 hc).2

/-- The moves of a sequence write the destinations of its copies and temporaries. -/
theorem dst_mem_run {written : R → Prop} (hfresh : ∀ k, written (fresh k)) (n : Nat)
    (hpending : ∀ c ∈ p.pending, written c.dst) (hmoves : ∀ c ∈ p.moves, written c.dst) :
    ∀ c ∈ (run fresh n p).moves, written c.dst := by
  induction n generalizing p with
  | zero => exact hmoves
  | succ n ih =>
    rw [Copies.run]
    dsimp only
    split
    · exact hmoves
    · have hfilter : ∀ c ∈ p.pending.filter fun c => c.dst ≠ c.src, written c.dst := fun c hc =>
        hpending c (List.mem_filter.1 hc).1
      generalize p.pending.filter (fun c => decide (c.dst ≠ c.src)) = pending at hfilter
      rw [Copies.step]
      dsimp only
      split
      · rename_i c hfind
        refine ih (fun c' hc' => hfilter c' (List.mem_of_mem_erase hc')) fun c' hc' => ?_
        rcases List.mem_append.1 hc' with hc' | hc'
        · exact hmoves c' hc'
        · rw [List.mem_singleton.1 hc']
          exact hfilter c (List.mem_of_find?_eq_some hfind)
      · cases pending with
        | nil => exact ih hfilter hmoves
        | cons c rest =>
          refine ih (fun c' hc' => ?_) fun c' hc' => ?_
          · rcases List.mem_append.1 hc' with hc' | hc'
            · exact hfilter c' (List.mem_cons_of_mem _ hc')
            · rw [List.mem_singleton.1 hc']
              exact hfilter c List.mem_cons_self
          · rcases List.mem_append.1 hc' with hc' | hc'
            · exact hmoves c' hc'
            · rw [List.mem_singleton.1 hc']
              exact hfresh p.temps

/-! ## Why it ends -/

/-- The pending copies are `waiting` and, behind them, `saved`, which read temporaries. No pending
copy writes a temporary. -/
structure Queued (fresh : Nat → R) (waiting saved : List (Copy R)) (p : Progress R) : Prop where
  pending : p.pending = waiting ++ saved
  dst : ∀ c ∈ p.pending, ∀ k, c.dst ≠ fresh k
  saved : ∀ c ∈ saved, ∃ k, c.src = fresh k

variable {waiting saved : List (Copy R)}

omit [DecidableEq R] in
theorem Queued.filter (h : Queued fresh waiting saved p) (test : Copy R → Bool) :
    Queued fresh (waiting.filter test) (saved.filter test)
      { p with pending := p.pending.filter test } where
  pending := by rw [h.pending, List.filter_append]
  dst c hc := h.dst c (List.mem_filter.1 hc).1
  saved c hc := h.saved c (List.mem_filter.1 hc).1

theorem Queued.erase (h : Queued fresh waiting saved p) {c : Copy R} (hc : c ∈ p.pending)
    (moves : List (Copy R)) :
    ∃ waiting' saved', Queued fresh waiting' saved' { p with pending := p.pending.erase c, moves } ∧
      2 * waiting'.length + saved'.length < 2 * waiting.length + saved.length ∧
      waiting'.length ≤ waiting.length := by
  have hdst : ∀ d ∈ p.pending.erase c, ∀ k, d.dst ≠ fresh k := fun d hd =>
    h.dst d (List.mem_of_mem_erase hd)
  by_cases hw : c ∈ waiting
  · refine ⟨waiting.erase c, saved, ⟨?_, hdst, h.saved⟩, ?_, ?_⟩
    · rw [h.pending, List.erase_append_left _ hw]
    · rw [List.length_erase_of_mem hw]
      have := List.length_pos_of_mem hw
      omega
    · exact List.length_erase_le
  · have hs : c ∈ saved := by
      rw [h.pending] at hc
      exact (List.mem_append.1 hc).resolve_left hw
    refine ⟨waiting, saved.erase c, ⟨?_, hdst, fun d hd => h.saved d (List.mem_of_mem_erase hd)⟩,
      ?_, Nat.le_refl _⟩
    · rw [h.pending, List.erase_append_right _ hw]
    · rw [List.length_erase_of_mem hs]
      have := List.length_pos_of_mem hs
      omega

/-- While a destination is still read, not all pending copies read temporaries. -/
theorem Queued.waiting_ne_nil (h : Queued fresh waiting saved p) {c : Copy R} (hc : c ∈ p.pending)
    (hfree : isFree p.pending c.dst = false) : waiting ≠ [] := by
  rintro rfl
  obtain ⟨d, hd, hread⟩ := List.all_eq_false.1 hfree
  have hsrc : d.src = c.dst := by
    simp only [Bool.or_eq_true, decide_eq_true_eq, not_or, ne_eq, not_not] at hread
    exact hread.2
  rw [h.pending, List.nil_append] at hd
  obtain ⟨k, hk⟩ := h.saved d hd
  exact h.dst c hc k (hsrc.symm.trans hk)

/-- A step carries out a copy or cuts one that was not cut before. -/
theorem Queued.step (h : Queued fresh waiting saved p) (hne : p.pending ≠ []) :
    ∃ waiting' saved', Queued fresh waiting' saved' (step fresh p) ∧
      2 * waiting'.length + saved'.length < 2 * waiting.length + saved.length ∧
      waiting'.length + (step fresh p).temps ≤ waiting.length + p.temps := by
  rw [Copies.step]
  split
  · rename_i c hfind
    obtain ⟨waiting', saved', hq, hlt, hle⟩ :=
      h.erase (List.mem_of_find?_eq_some hfind) (p.moves ++ [c])
    exact ⟨waiting', saved', hq, hlt, Nat.add_le_add_right hle _⟩
  · rename_i hnone
    obtain ⟨c, rest, hpending⟩ := List.exists_cons_of_ne_nil hne
    have hc : c ∈ p.pending := by simp [hpending]
    have hfree : isFree p.pending c.dst = false := by
      simpa using List.find?_eq_none.1 hnone c hc
    obtain ⟨c', waiting', rfl⟩ := List.exists_cons_of_ne_nil (h.waiting_ne_nil hc hfree)
    have hsplit := h.pending
    rw [hpending, List.cons_append] at hsplit
    obtain ⟨rfl, rfl⟩ := List.cons.inj hsplit
    rw [hpending]
    refine ⟨waiting', saved ++ [⟨c.dst, fresh p.temps⟩], ⟨List.append_assoc .., ?_, ?_⟩, ?_, ?_⟩
    · intro d hd
      rcases List.mem_append.1 hd with hd | hd
      · exact h.dst d (by simp [hpending, List.mem_append.1 hd])
      · rw [List.mem_singleton.1 hd]
        exact h.dst c hc
    · intro d hd
      rcases List.mem_append.1 hd with hd | hd
      · exact h.saved d hd
      · exact ⟨p.temps, by rw [List.mem_singleton.1 hd]⟩
    · simp only [List.length_cons, List.length_append, List.length_nil]
      omega
    · simp only [List.length_cons]
      omega

/-- Two steps for each copy that was not cut, and one for each that was, leave none pending. -/
theorem Queued.run (h : Queued fresh waiting saved p) {n : Nat}
    (hn : 2 * waiting.length + saved.length < n) :
    (run fresh n p).pending = [] ∧ (run fresh n p).temps ≤ waiting.length + p.temps := by
  induction n generalizing p waiting saved with
  | zero => omega
  | succ n ih =>
    rw [Copies.run]
    dsimp only
    have hfilter := h.filter fun c => c.dst ≠ c.src
    have hw := List.length_filter_le (fun c : Copy R => decide (c.dst ≠ c.src)) waiting
    have hs := List.length_filter_le (fun c : Copy R => decide (c.dst ≠ c.src)) saved
    split
    · rename_i hempty
      exact ⟨List.isEmpty_iff.1 hempty, Nat.le_add_left _ _⟩
    · rename_i hne
      obtain ⟨waiting', saved', hq, hlt, hle⟩ := hfilter.step (by simpa using hne)
      obtain ⟨hpending, htemps⟩ := ih hq (by omega)
      refine ⟨hpending, ?_⟩
      dsimp only at hle
      omega

/-- Copies none of which writes a temporary are always put in sequence, with no more temporaries
than there are copies. -/
theorem exists_sequentialize {copies : List (Copy R)} (hdst : ∀ c ∈ copies, ∀ k, c.dst ≠ fresh k) :
    ∃ seq, sequentialize fresh copies = .ok seq ∧ seq.temps ≤ copies.length := by
  have hstart : Queued fresh copies [] { pending := copies } :=
    ⟨(List.append_nil _).symm, hdst, nofun⟩
  obtain ⟨hpending, htemps⟩ := hstart.run (n := bound copies) (by rw [bound, List.length_nil]; omega)
  refine ⟨⟨(run fresh (bound copies) { pending := copies }).moves,
    (run fresh (bound copies) { pending := copies }).temps⟩, ?_, htemps⟩
  rw [sequentialize, hpending]
  rfl

/-! ## What the moves read and write -/

/-- Pending copies and moves read the sources of the copies and temporaries that were taken. Pending
copies write destinations of the copies, and apart from these the moves write the temporaries, one
after the other. -/
structure Accounted (fresh : Nat → R) (copies : List (Copy R)) (p : Progress R) : Prop where
  dst : ∀ c ∈ p.pending, c.dst ∈ copies.map Copy.dst
  src : ∀ c ∈ p.pending ++ p.moves, c.src ∈ copies.map Copy.src ∨ ∃ k < p.temps, c.src = fresh k
  temps : (p.moves.map Copy.dst).filter (· ∉ copies.map Copy.dst) = (List.range p.temps).map fresh

section Accounted

variable {copies : List (Copy R)} (hfresh : ∀ c ∈ copies, ∀ k, c.dst ≠ fresh k)
include hfresh

theorem Accounted.step (h : Accounted fresh copies p) : Accounted fresh copies (step fresh p) := by
  rw [Copies.step]
  split
  · rename_i c hfind
    have hc := List.mem_of_find?_eq_some hfind
    refine ⟨fun d hd => h.dst d (List.mem_of_mem_erase hd), fun d hd => h.src d ?_, ?_⟩
    · have hsub := List.erase_subset (a := c) (l := p.pending)
      simp only [List.mem_append, List.mem_singleton] at hd ⊢
      rcases hd with hd | hd | rfl
      · exact .inl (hsub hd)
      · exact .inr hd
      · exact .inl hc
    · rw [List.map_append, List.filter_append, h.temps, List.map_singleton,
        List.filter_cons_of_neg (by simpa using h.dst c hc), List.filter_nil, List.append_nil]
  · split
    · exact h
    · rename_i c rest hpending
      obtain ⟨pending, moves, temps⟩ := p
      subst hpending
      have hc := h.dst c List.mem_cons_self
      refine ⟨fun d hd => ?_, fun d hd => ?_, ?_⟩
      · rcases List.mem_append.1 hd with hd | hd
        · exact h.dst d (List.mem_cons_of_mem c hd)
        · rw [List.mem_singleton.1 hd]
          exact hc
      · -- only the copy that was cut reads the new temporary
        have hsrc : ∀ d ∈ (c :: rest) ++ moves,
            d.src ∈ copies.map Copy.src ∨ ∃ k < temps + 1, d.src = fresh k := by
          intro d hd
          rcases h.src d hd with hd | ⟨k, hk, hd⟩
          · exact .inl hd
          · exact .inr ⟨k, Nat.lt_succ_of_lt hk, hd⟩
        simp only [List.mem_append, List.mem_singleton] at hd
        rcases hd with (hd | rfl) | hd | rfl
        · exact hsrc d (List.mem_append_left _ (List.mem_cons_of_mem c hd))
        · exact .inr ⟨temps, Nat.lt_succ_self _, rfl⟩
        · exact hsrc d (List.mem_append_right _ hd)
        · exact hsrc c (List.mem_append_left _ List.mem_cons_self)
      · have hnew : fresh temps ∉ copies.map Copy.dst := by
          intro hmem
          obtain ⟨d, hd, heq⟩ := List.mem_map.1 hmem
          exact hfresh d hd temps heq
        rw [List.map_append, List.filter_append, h.temps, List.map_singleton,
          List.filter_cons_of_pos (by exact decide_eq_true hnew), List.filter_nil]
        show _ = (List.range (temps + 1)).map fresh
        rw [List.range_succ, List.map_append, List.map_singleton]

theorem Accounted.run (h : Accounted fresh copies p) (n : Nat) :
    Accounted fresh copies (run fresh n p) := by
  induction n generalizing p with
  | zero => exact h
  | succ n ih =>
    have hfilter : Accounted fresh copies
        { p with pending := p.pending.filter fun c => c.dst ≠ c.src } := by
      refine ⟨fun c hc => h.dst c (List.mem_filter.1 hc).1, fun c hc => h.src c ?_, h.temps⟩
      rcases List.mem_append.1 hc with hc | hc
      · exact List.mem_append_left _ (List.mem_filter.1 hc).1
      · exact List.mem_append_right _ hc
    rw [Copies.run]
    dsimp only
    split
    · exact hfilter
    · exact ih (hfilter.step hfresh)

end Accounted

/-! ## The whole sequence -/

section Sequentialize

variable {copies : List (Copy R)} {seq : Sequence R} (h : sequentialize fresh copies = .ok seq)
include h

/-- The sequence found for a parallel copy has its effect on all registers but temporaries. -/
theorem sequentialize_assigns (hfresh : Function.Injective fresh)
    (hdst : ∀ c ∈ copies, ∀ k, c.dst ≠ fresh k) (hsrc : ∀ c ∈ copies, ∀ k, c.src ≠ fresh k)
    (ρ : R → W) {r : R} (hr : ∀ k, r ≠ fresh k) : Assigns copies ρ r (perform seq.moves ρ r) := by
  have hstart : Toward fresh (Assigns copies ρ) { pending := copies } ρ :=
    ⟨fun hc hne => .copied hc hne rfl, fun _ hself => .kept hself, fun hc => hdst _ hc,
      fun hc k _ => hsrc _ hc k⟩
  have hend := Toward.run hfresh (bound copies) hstart
  rw [sequentialize] at h
  split at h
  · rename_i hall
    cases h
    exact hend.done hr fun c hc _ => of_decide_eq_true (List.all_eq_true.1 hall c hc)
  · cases h

theorem sequentialize_dst (written : R → Prop) (hfresh : ∀ k, written (fresh k))
    (hdst : ∀ c ∈ copies, written c.dst) : ∀ c ∈ seq.moves, written c.dst := by
  rw [sequentialize] at h
  split at h
  · cases h
    exact dst_mem_run hfresh (bound copies) hdst nofun
  · cases h

theorem sequentialize_accounted (hdst : ∀ c ∈ copies, ∀ k, c.dst ≠ fresh k) :
    Accounted fresh copies ⟨[], seq.moves, seq.temps⟩ := by
  have hstart : Accounted fresh copies { pending := copies } := by
    refine ⟨fun c hc => List.mem_map_of_mem hc, fun c hc => ?_, rfl⟩
    rw [List.append_nil] at hc
    exact .inl (List.mem_map_of_mem hc)
  have hend := hstart.run hdst (bound copies)
  rw [sequentialize] at h
  split at h
  · cases h
    exact ⟨List.forall_mem_nil _, fun c hc => hend.src c (List.mem_append_right _ hc), hend.temps⟩
  · cases h

end Sequentialize

/-- What registers hold after copies that happen together, when no two have one destination. -/
def simultaneous (copies : List (Copy R)) (ρ : R → W) (r : R) : W :=
  ((copies.find? fun c => c.dst = r).map fun c => ρ c.src).getD (ρ r)

theorem simultaneous_of_mem {copies : List (Copy R)} (hnodup : (copies.map Copy.dst).Nodup)
    (ρ : R → W) {c : Copy R} (hc : c ∈ copies) : simultaneous copies ρ c.dst = ρ c.src := by
  obtain ⟨d, hd⟩ := Option.isSome_iff_exists.1
    ((List.find?_isSome (p := fun d : Copy R => decide (d.dst = c.dst))).2 ⟨c, hc, by simp⟩)
  have hdst := List.find?_some hd
  have heq : d = c :=
    List.inj_on_of_nodup_map hnodup (List.mem_of_find?_eq_some hd) hc (of_decide_eq_true hdst)
  rw [simultaneous, hd, heq]
  rfl

theorem simultaneous_of_notMem {copies : List (Copy R)} (ρ : R → W) {r : R}
    (hr : ∀ c ∈ copies, c.dst ≠ r) : simultaneous copies ρ r = ρ r := by
  have hnone : copies.find? (fun c => decide (c.dst = r)) = none :=
    List.find?_eq_none.2 fun c hc => by simpa using hr c hc
  rw [simultaneous, hnone]
  rfl

/-- Any copies can be put in sequence with different temporaries that occur in none of them. A
register with copies from others ends up with what the source of one of these held, every other
register but temporaries keeps what it held, and when no two copies have one destination, all
registers but temporaries are as after copies that happen together. -/
theorem sequentialize_simultaneous (fresh : Nat → R) (copies : List (Copy R))
    (hfresh : Function.Injective fresh) (hdst : ∀ c ∈ copies, ∀ k, c.dst ≠ fresh k)
    (hsrc : ∀ c ∈ copies, ∀ k, c.src ≠ fresh k) :
    ∃ seq, sequentialize fresh copies = .ok seq ∧ ∀ (ρ : R → W) (r : R), (∀ k, r ≠ fresh k) →
      ((∃ c ∈ copies, c.dst = r ∧ c.src ≠ r) →
        ∃ c ∈ copies, c.dst = r ∧ c.src ≠ r ∧ perform seq.moves ρ r = ρ c.src) ∧
      ((∀ c ∈ copies, c.dst = r → c.src = r) → perform seq.moves ρ r = ρ r) ∧
      ((copies.map Copy.dst).Nodup → perform seq.moves ρ r = simultaneous copies ρ r) := by
  obtain ⟨seq, hseq, -⟩ := exists_sequentialize hdst
  refine ⟨seq, hseq, fun ρ r hr => ?_⟩
  have hassigns := sequentialize_assigns hseq hfresh hdst hsrc ρ hr
  refine ⟨?_, fun hself => ?_, fun hnodup => ?_⟩
  · rintro ⟨c, hc, rfl, hne⟩
    generalize perform seq.moves ρ c.dst = w at hassigns ⊢
    cases hassigns with
    | @copied d hd hdself hddst => exact ⟨d, hd, hddst, fun h => hdself (hddst.trans h.symm), rfl⟩
    | kept hself => exact absurd (hself c hc rfl).symm hne
  · exact hassigns.eq (fun c hc hcr => by rw [hself c hc hcr]) fun _ => rfl
  · refine hassigns.eq (fun c hc hcr => ?_) fun hnone => (simultaneous_of_notMem ρ hnone).symm
    rw [← hcr, simultaneous_of_mem hnodup ρ hc]

/-- Two registers are exchanged, a third has two copies and a fourth one to itself. -/
theorem sequentialize_simultaneous_swap :
    ∃ seq : Sequence Nat,
      sequentialize (10 + ·) [⟨0, 1⟩, ⟨1, 0⟩, ⟨2, 0⟩, ⟨2, 3⟩, ⟨4, 4⟩] = .ok seq ∧
        ∀ ρ : Nat → Nat, perform seq.moves ρ 0 = ρ 1 ∧ perform seq.moves ρ 1 = ρ 0 ∧
          (perform seq.moves ρ 2 = ρ 0 ∨ perform seq.moves ρ 2 = ρ 3) ∧
          perform seq.moves ρ 4 = ρ 4 := by
  have hsmall : ∀ c ∈ ([⟨0, 1⟩, ⟨1, 0⟩, ⟨2, 0⟩, ⟨2, 3⟩, ⟨4, 4⟩] : List (Copy Nat)),
      c.dst < 10 ∧ c.src < 10 := by decide
  obtain ⟨seq, hseq, h⟩ := sequentialize_simultaneous (W := Nat) (10 + ·)
    [⟨0, 1⟩, ⟨1, 0⟩, ⟨2, 0⟩, ⟨2, 3⟩, ⟨4, 4⟩] (fun _ _ => Nat.add_left_cancel)
    (fun c hc k heq => by have := (hsmall c hc).1; omega)
    (fun c hc k heq => by have := (hsmall c hc).2; omega)
  refine ⟨seq, hseq, fun ρ => ⟨?_, ?_, ?_, ?_⟩⟩
  · simpa using (h ρ 0 (by omega)).1 (by decide)
  · simpa using (h ρ 1 (by omega)).1 (by decide)
  · simpa using (h ρ 2 (by omega)).1 (by decide)
  · exact (h ρ 4 (by omega)).2.1 (by decide)

end SsaCodegen.Copies
