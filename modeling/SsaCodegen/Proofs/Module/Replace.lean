import SsaCodegen.Proofs.Module.Cascade

/-!
# One value in the place of another

Every use of a value is redirected to another value. Then the value has no uses, so that it can be
taken out of its block if it is an instruction. The uses are redirected one after the other along
the use list as it was at the start. What has still to be redirected is in the use list all the
time, whichever values the users are, the two values themselves among them.

## Main definitions

* `Module.Redirected` — the uses of a value have become uses of another

## Main results

* `Module.Mirrored.redirected` — what is there when all uses have been redirected
* `Module.Threads.cases_replaceAllUses` — what a replacement does
* `Module.Threads.exists_replaceAllUses` — it meets no fault
-/

namespace SsaCodegen

namespace Module

variable {m m₁ m' : Module} {lists : BlockId → List ValueId} {b : BlockId}
  {user value old new : ValueId} {index : Nat} {r : Except GraphError Unit} {us : List Use}

/-! ## One use -/

/-- A change of an operand is refused only if there is no such operand, and then changes nothing. -/
theorem replaceOperand_refused {e : GraphError}
    (h : m.replaceOperand user index value = .ok (.error e, m')) :
    m' = m ∧ (m.operandsOf user)[index]? = none := by
  obtain ⟨x, hx, ⟨hnone, -, rfl⟩ | ⟨-, hr, -⟩ | ⟨old, m₁, m₂, -, -, hr, -⟩⟩ :=
    replaceOperand_cases h
  · rw [operandsOf, valueField_eq hx]
    exact ⟨rfl, hnone⟩
  · cases hr
  · cases hr

namespace Mirrored

section One

variable (h : Mirrored m) (hu : ⟨user, index⟩ ∈ m.usesOf old) (hne : old ≠ new)
  (hm : m.replaceOperand user index new = .ok (r, m'))
include h hu hne hm

/-- One use of a value becomes the last use of another. -/
theorem redirect : r = .ok () ∧
    (∀ w i, (m'.operandsOf w)[i]? =
      if (⟨w, i⟩ : Use) = ⟨user, index⟩ then some new else (m.operandsOf w)[i]?) ∧
    ∀ w, m'.usesOf w = if w = new then m.usesOf w ++ [⟨user, index⟩]
      else if w = old then (m.usesOf w).erase ⟨user, index⟩ else m.usesOf w := by
  have hold : (m.operandsOf user)[index]? = some old := h.mem.1 hu
  have hlt := (List.getElem?_eq_some_iff.1 hold).1
  refine ⟨?_, fun w i => ?_, ?_⟩
  · cases r with
    | ok _ => rfl
    | error e =>
      rw [(replaceOperand_refused hm).2] at hold
      cases hold
  · rw [operandsOf_replaceOperand hm]
    grind
  · rcases usesOf_replaceOperand hm with ⟨-, heq⟩ | ⟨old', hold', -, huses⟩
    · exact absurd (heq old hold) hne
    · cases hold.symm.trans hold'
      exact huses

/-- The other uses of the value are still there. -/
theorem mem_usesOf_redirect {u : Use} (hmem : u ∈ m.usesOf old) (hother : u ≠ ⟨user, index⟩) :
    u ∈ m'.usesOf old := by
  rw [(h.redirect hu hne hm).2.2, if_neg hne, if_pos rfl]
  exact (List.mem_erase_of_ne hother).2 hmem

end One

/-! ## All uses -/

/-- Some uses of a value are redirected, one after the other. -/
theorem replaceEach (h : Mirrored m) (hnodup : us.Nodup) (hus : ∀ u ∈ us, u ∈ m.usesOf old)
    (hne : old ≠ new)
    (hm : m.editEach (fun m u => m.replaceOperand u.user u.index new) us = .ok (r, m')) :
    r = .ok () ∧
      (∀ w i, (m'.operandsOf w)[i]? =
        if ⟨w, i⟩ ∈ us then some new else (m.operandsOf w)[i]?) ∧
      ∀ w, m'.usesOf w = if w = new then m.usesOf w ++ us
        else if w = old then (m.usesOf w).filter (· ∉ us) else m.usesOf w := by
  induction us generalizing m with
  | nil =>
    cases hm
    simp
  | cons u rest ih =>
    obtain ⟨user, index⟩ := u
    obtain ⟨hu, hrest⟩ := List.forall_mem_cons.1 hus
    obtain ⟨hnotin, hnodup⟩ := List.nodup_cons.1 hnodup
    obtain ⟨⟨r₁, m₁⟩, h₁, hm⟩ := bind_eq_ok.1 hm
    obtain ⟨rfl, hops₁, huses₁⟩ := h.redirect hu hne h₁
    have hrest₁ : ∀ v ∈ rest, v ∈ m₁.usesOf old := fun v hv =>
      h.mem_usesOf_redirect hu hne h₁ (hrest v hv) fun heq => hnotin (heq ▸ hv)
    obtain ⟨hr, hops, huses⟩ := ih (h.replaceOperand h₁) hnodup hrest₁ hm
    refine ⟨hr, fun w i => ?_, fun w => ?_⟩
    · rw [hops, hops₁]
      simp only [List.mem_cons]
      grind
    · rw [huses, huses₁]
      by_cases hnew : w = new
      · simp [hnew]
      · by_cases hold : w = old
        · subst hold
          rw [if_neg hnew, if_neg hnew, if_neg hnew, if_pos rfl, if_pos rfl, if_pos rfl,
            (h.nodup w).erase_eq_filter, List.filter_filter]
          refine List.filter_congr fun v _ => ?_
          rw [Bool.eq_iff_iff]
          simp [and_comm]
        · simp [hnew, hold]

theorem exists_replaceEach (h : Mirrored m) (hnodup : us.Nodup)
    (hus : ∀ u ∈ us, u ∈ m.usesOf old) (hnew : new.idx < m.values.size) (hne : old ≠ new) :
    ∃ m', m.editEach (fun m u => m.replaceOperand u.user u.index new) us = .ok (.ok (), m') := by
  induction us generalizing m with
  | nil => exact ⟨m, rfl⟩
  | cons u rest ih =>
    obtain ⟨user, index⟩ := u
    obtain ⟨hu, hrest⟩ := List.forall_mem_cons.1 hus
    obtain ⟨hnotin, hnodup⟩ := List.nodup_cons.1 hnodup
    obtain ⟨m₁, h₁⟩ := h.exists_replaceOperand hu hnew hne
    obtain ⟨m', hm'⟩ := ih (h.replaceOperand h₁) hnodup
      (fun v hv => h.mem_usesOf_redirect hu hne h₁ (hrest v hv) fun heq => hnotin (heq ▸ hv))
      (by rw [size_of_bare (bare_replaceOperand h₁)]; exact hnew)
    exact ⟨m', bind_eq_ok.2 ⟨_, h₁, hm'⟩⟩

end Mirrored

/-- The uses of a value have become uses of another, in the same order and behind those that it had,
and nothing else has changed. -/
structure Redirected (m : Module) (old new : ValueId) (m' : Module) : Prop where
  bare : m'.bare = m.bare
  mirrored : Mirrored m'
  still : Still m m'
  operands : ∀ w, m'.operandsOf w = (m.operandsOf w).map fun o => if o = old then new else o
  uses : ∀ w, m'.usesOf w = if w = new then m.usesOf w ++ m.usesOf old
    else if w = old then [] else m.usesOf w

theorem Mirrored.redirected (h : Mirrored m) (hne : old ≠ new)
    (hm : m.editEach (fun m u => m.replaceOperand u.user u.index new) (m.usesOf old) =
      .ok (r, m')) : r = .ok () ∧ m.Redirected old new m' := by
  obtain ⟨hr, hops, huses⟩ := h.replaceEach (h.nodup old) (fun u hu => hu) hne hm
  refine ⟨hr, ?_, ?_, ?_, fun w => ?_, fun w => ?_⟩
  · exact editFold_chain (R := fun m m' => m'.bare = m.bare) (fun _ => rfl)
      (fun h h' => h'.trans h) bare_replaceOperand hm
  · exact (editFold_steps (fun h => .single (.replace h)) hm).keep (fun h hs => hs.mirrored h) h
  · exact editFold_chain Still.refl Still.trans Still.replaceOperand hm
  · refine List.ext_getElem? fun i => ?_
    have hmem : ⟨w, i⟩ ∈ m.usesOf old ↔ (m.operandsOf w)[i]? = some old := h.mem
    rw [hops, List.getElem?_map]
    cases hget : (m.operandsOf w)[i]? with
    | none =>
      rw [if_neg (by rw [hmem, hget]; rintro ⟨⟩)]
      rfl
    | some o =>
      simp only [hmem, hget, Option.some.injEq, Option.map_some]
      split <;> rfl
  · rw [huses]
    by_cases hold : w = old
    · have hnone : (m.usesOf old).filter (· ∉ m.usesOf old) = [] :=
        List.filter_eq_nil_iff.2 fun u hu => by simp [hu]
      rw [hold, if_pos rfl, if_pos rfl, hnone]
    · rw [if_neg hold, if_neg hold]

/-! ## Replacements -/

/-- A replacement of a value by itself is refused. Any other redirects the uses and then removes the
value, if it is an instruction, from its block and from the uses of its operands. -/
theorem Threads.cases_replaceAllUses (ht : Threads m lists) (hm : Mirrored m)
    (h : m.replaceAllUses old new = .ok (r, m')) :
    (r = .error (.selfReplacement old) ∧ old = new ∧ m' = m) ∨
      r = .ok () ∧ old ≠ new ∧ ∃ m₁, m.Redirected old new m₁ ∧
      ((¬m.IsInst old ∧ m' = m₁) ∨ m.IsInst old ∧ Removal m₁ lists [old] [old] m' ∧
        m₁.disconnect old true false = .ok (.ok (), m')) := by
  rw [Module.replaceAllUses] at h
  split at h
  · rename_i heq
    cases h
    exact .inl ⟨rfl, heq, rfl⟩
  rename_i hne
  obtain ⟨uses, huses, h⟩ := bind_eq_ok.1 h
  obtain ⟨⟨r₁, m₁⟩, h₁, h⟩ := bind_eq_ok.1 h
  rw [← usesOf_of_uses huses] at h₁
  obtain ⟨rfl, hred⟩ := hm.redirected hne h₁
  have hnone : m₁.usesOf old = [] := by rw [hred.uses, if_neg hne, if_pos rfl]
  have hinst : m₁.IsInst old ↔ m.IsInst old := by rw [IsInst, kindOf_of_bare hred.bare, IsInst]
  obtain ⟨left, -, h⟩ := bind_eq_ok.1 h
  dsimp only at h
  split at h
  · obtain ⟨k, hk, h⟩ := bind_eq_ok.1 h
    split at h
    · rename_i hsome
      have hold := hinst.1 ((isSome_instKind hk).1 hsome)
      obtain ⟨rfl, hrem⟩ := Removal.alone (hred.still.threads ht) hred.mirrored
        (hinst.2 hold) hnone h
      exact .inr ⟨rfl, hne, m₁, hred, .inr ⟨hold, hrem, h⟩⟩
    · rename_i hnot
      cases h
      have hold := fun hold => hnot ((isSome_instKind hk).2 (hinst.2 hold))
      exact .inr ⟨rfl, hne, m', hred, .inl ⟨hold, rfl⟩⟩
  · cases h

/-- A replacement meets no fault. -/
theorem Threads.exists_replaceAllUses (ht : Threads m lists) (hm : Mirrored m)
    (hold : old.idx < m.values.size) (hnew : new.idx < m.values.size) :
    ∃ r m', m.replaceAllUses old new = .ok (r, m') := by
  rw [Module.replaceAllUses]
  split
  · exact ⟨_, m, rfl⟩
  rename_i hne
  obtain ⟨m₁, h₁⟩ := hm.exists_replaceEach (hm.nodup old) (fun u hu => hu) hnew hne
  obtain ⟨-, hred⟩ := hm.redirected hne h₁
  have hlt : old.idx < m₁.values.size := by
    rw [size_of_bare hred.bare]
    exact hold
  have hnone : m₁.uses old = .ok [] := by rw [uses_eq hlt, hred.uses, if_neg hne, if_pos rfl]
  obtain ⟨k, hk⟩ := exists_kindOf hlt
  obtain ⟨r, m', h⟩ :=
    Removal.exists_disconnect (hred.still.threads ht) hred.mirrored hlt true false
  by_cases hinst : k.asInst.isSome = true
  · refine ⟨r, m', bind_eq_ok.2 ⟨_, uses_eq hold, bind_eq_ok.2 ⟨_, h₁, bind_eq_ok.2 ⟨_, hnone,
      bind_eq_ok.2 ⟨_, instKind_eq hk, ?_⟩⟩⟩⟩⟩
    rw [if_pos hinst]
    exact h
  · refine ⟨.ok (), m₁, bind_eq_ok.2 ⟨_, uses_eq hold, bind_eq_ok.2 ⟨_, h₁, bind_eq_ok.2 ⟨_, hnone,
      bind_eq_ok.2 ⟨_, instKind_eq hk, ?_⟩⟩⟩⟩⟩
    rw [if_neg hinst]
    rfl

/-- An instruction on a list gives way to another value. -/
theorem Threads.replaceAllUses (ht : Threads m lists) (h : Mirrored m) (hv : old ∈ lists b)
    (hnew : new.idx < m.values.size) (hne : old ≠ new) :
    ∃ m', m.replaceAllUses old new = .ok (.ok (), m') ∧ m'.bare = m.bare ∧
      Threads m' (fun b => (lists b).erase old) ∧
      ∀ w, m'.operandsOf w =
        if w = old then [] else (m.operandsOf w).map fun o => if o = old then new else o := by
  obtain ⟨r, m', hm'⟩ := ht.exists_replaceAllUses h (ht.lt_of_mem hv) hnew
  rcases ht.cases_replaceAllUses h hm' with
    ⟨-, heq, -⟩ | ⟨rfl, -, m₁, hred, ⟨hnot, -⟩ | ⟨-, hrem, -⟩⟩
  · exact absurd heq hne
  · exact absurd (ht.inst hv) hnot
  · refine ⟨m', hm', hrem.bare.trans hred.bare, ?_, fun w => ?_⟩
    · simpa only [ht.filter_singleton] using hrem.threads
    · rw [hrem.operands, hred.operands]
      simp only [List.mem_singleton]

end Module

end SsaCodegen
