import Mathlib.Order.Lattice
import SsaCodegen.Proofs.ConstProp.Soundness

/-!
# Knowing less tells less

What is known of values is ordered: `varying` lies below every constant, and every constant lies
below `top`. Two states of a module differ in lattice values and marks only, so they have the same
skeleton. In a state with lower lattice values and more marks the operands of an instruction tell
less about it, and a branch can go to more blocks.

## Main results

* `Constness.combine_mono` — operators
* `Module.transferOf_mono`, `Module.headsOf_mono` — instructions and branches
-/

namespace SsaCodegen

namespace Constness

variable {a a' b b' : Constness}

/-- The order of the lattice: `varying`, then the constants side by side, then `top`. -/
instance : LE Constness := ⟨fun a b => a = .varying ∨ b = .top ∨ a = b⟩

theorem le_def : a ≤ b ↔ a = .varying ∨ b = .top ∨ a = b := Iff.rfl

instance : DecidableLE Constness := fun _ _ => decidable_of_iff _ le_def.symm

theorem meet_le_left (a b : Constness) : a.meet b ≤ a := by
  rw [le_def]
  cases a <;> cases b <;> grind [meet]

theorem meet_le_right (a b : Constness) : a.meet b ≤ b := by
  rw [le_def]
  cases a <;> cases b <;> grind [meet]

theorem le_meet (a b c : Constness) (hab : a ≤ b) (hac : a ≤ c) : a ≤ b.meet c := by
  rw [le_def] at *
  cases b <;> cases c <;> grind [meet]

instance : SemilatticeInf Constness where
  inf := meet
  le_refl a := .inr (.inr rfl)
  le_trans a b c hab hbc := by
    rw [le_def] at *
    grind
  le_antisymm a b hab hba := by
    rw [le_def] at *
    grind
  inf_le_left := meet_le_left
  inf_le_right := meet_le_right
  le_inf := le_meet

theorem meet_eq_inf (a b : Constness) : a.meet b = a ⊓ b := rfl

theorem varying_le (a : Constness) : .varying ≤ a := .inl rfl

theorem le_top (a : Constness) : a ≤ .top := .inr (.inl rfl)

/-- An operator tells less of arguments of which less is known. -/
theorem combine_mono {eval : Int64 → Int64 → Option Int64} (ha : a ≤ a') (hb : b ≤ b') :
    combine eval a b ≤ combine eval a' b' := by
  rcases ha with rfl | rfl | rfl
  · exact varying_le _
  · -- only a varying argument brings an operator with a `top` argument down
    rcases hb with rfl | rfl | rfl
    · cases a <;> exact varying_le _
    · exact le_top _
    · cases b with
      | top | const => exact le_top _
      | varying => cases a <;> exact varying_le _
  · rcases hb with rfl | rfl | rfl
    · cases a <;> exact varying_le _
    · cases a with
      | top | const => exact le_top _
      | varying => exact varying_le _
    · exact le_rfl

/-- A meet over a list is the greatest lower bound. -/
theorem le_foldl_meet {k : α → Constness} {l : List α} {acc : Constness} :
    a ≤ l.foldl (fun acc u => acc.meet (k u)) acc ↔ a ≤ acc ∧ ∀ u ∈ l, a ≤ k u := by
  induction l generalizing acc with
  | nil => simp
  | cons u rest ih =>
    rw [List.foldl_cons, ih, meet_eq_inf, le_inf_iff, List.forall_mem_cons, and_assoc]

/-- A meet over more values, of which less is known, is lower. -/
theorem foldl_meet_mono {k k' : α → Constness} {l l' : List α}
    (h : ∀ u ∈ l', u ∈ l ∧ k u ≤ k' u) :
    l.foldl (fun acc u => meet acc (k u)) top ≤ l'.foldl (fun acc u => meet acc (k' u)) top := by
  refine le_foldl_meet.2 ⟨le_top _, fun u hu => ?_⟩
  obtain ⟨hmem, hle⟩ := h u hu
  exact ((le_foldl_meet.1 le_rfl).2 u hmem).trans hle

end Constness

namespace Module

variable {m s : Module} {v : ValueId}

/-- What the operands of an instruction tell is taken into account when no more is known. -/
theorem settled_iff : m.Settled v ↔ m.knownOf v ≤ m.transferOf v := inf_eq_left

section Skeleton

variable (h : s.skeleton = m.skeleton)
  (hknown : ∀ o ∈ m.operandsOf v, s.knownOf o ≤ m.knownOf o)
include h hknown

/-- The operands of an instruction tell less where less is known of them and, for a phi, where more
of the blocks that it lists are marked. -/
theorem transferOf_mono
    (hreached : m.isPhi v = true → ∀ i ∈ m.incoming v, m.reachedOf i.2 = true →
      s.reachedOf i.2 = true) : s.transferOf v ≤ m.transferOf v := by
  rw [transferOf, transferOf, kindOf_of_skeleton h, operandsOf_of_skeleton h]
  split
  · rename_i hk
    -- an incoming value that counts in the one state counts in the other
    refine Constness.foldl_meet_mono fun u hu => ?_
    obtain ⟨i, hi, rfl⟩ := List.mem_map.1 hu
    obtain ⟨hi, hr⟩ := List.mem_filter.1 hi
    refine ⟨?_, hknown i.1 (mem_of_mem_incomingPairs hi)⟩
    rw [reachedIncoming, incoming_of_skeleton h]
    exact List.mem_map_of_mem (List.mem_filter.2 ⟨hi, hreached (decide_eq_true hk) i hi hr⟩)
  · rename_i o hk ho
    exact hknown o (by simp [ho])
  · rename_i o hk ho
    exact hknown o (by simp [ho])
  · rename_i op l r hk ho
    exact Constness.combine_mono (hknown l (by simp [ho])) (hknown r (by simp [ho]))
  · rename_i op l r hk ho
    exact Constness.combine_mono (hknown l (by simp [ho])) (hknown r (by simp [ho]))
  · exact le_rfl

/-- A branch can go to more blocks where less is known of its condition. -/
theorem headsOf_mono : m.headsOf v ⊆ s.headsOf v := by
  rw [headsOf, headsOf, blockOf?_of_skeleton h]
  refine List.filterMap_subset _ ?_
  rw [headLabels, headLabels, operandsOf_of_skeleton h]
  split
  · rename_i cond thenLabel elseLabel ho
    rcases hknown cond (by simp [ho]) with hv | ht | heq
    · rw [hv]
      cases m.knownOf cond with
      | top => simp
      | varying => simp
      | const n => by_cases hn : n = 0 <;> simp [hn]
    · rw [ht]
      exact List.nil_subset _
    · rw [heq]
      exact List.Subset.refl _
  · exact List.Subset.refl _

end Skeleton

end Module

end SsaCodegen
