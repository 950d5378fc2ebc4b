import Mathlib.Data.List.Nodup
import SsaCodegen.Proofs.Module.Built
import SsaCodegen.Proofs.Module.Fields

/-!
# Operands and uses agree

The use list of a value holds the operand positions that refer to it, each of them once. No step
of a module breaks this, and so it holds of every module that was built.

## Main definitions

* `Module.Mirrored` — use lists and operands say the same

## Main results

* `Module.Built.mirrored` — they do in every module that was built
* `Module.Built.operand_iff_use` — the same in terms of what a caller can ask for
-/

namespace SsaCodegen

namespace Module

/-- Every use list holds the operand positions that refer to its value, each of them once. -/
structure Mirrored (m : Module) : Prop where
  mem : ∀ {v : ValueId} {u : Use}, u ∈ m.usesOf v ↔ (m.operandsOf u.user)[u.index]? = some v
  nodup : ∀ v, (m.usesOf v).Nodup

variable {m m' : Module} {user value v w : ValueId} {index : Nat}

theorem Mirrored.congr (h : Mirrored m) (ho : m'.operandsOf = m.operandsOf)
    (hu : m'.usesOf = m.usesOf) : Mirrored m' where
  mem := by
    rw [ho, hu]
    exact h.mem
  nodup := by
    rw [hu]
    exact h.nodup

/-! ## A further operand -/

theorem Mirrored.addOperand (h : Mirrored m) (hm : m.addOperand user value = .ok m') :
    Mirrored m' := by
  obtain ⟨x, hx, hm⟩ := bind_eq_ok.1 hm
  obtain ⟨m₁, h₁, hm⟩ := bind_eq_ok.1 hm
  have hlen : x.operands.length = (m.operandsOf user).length := by
    rw [operandsOf, valueField_eq (valueSlot_eq_ok.1 hx)]
  rw [hlen] at hm
  have ho (w : ValueId) : m'.operandsOf w =
      if w = user then m.operandsOf w ++ [value] else m.operandsOf w := by
    rw [operandsOf, valueField_modifyValue (by exact fun _ => rfl) hm]
    exact valueField_modifyValue_of (p := Value.operands) h₁ (g := fun l => l ++ [value])
      fun _ => rfl
  have hu (w : ValueId) : m'.usesOf w =
      if w = value then m.usesOf w ++ [⟨user, (m.operandsOf user).length⟩] else m.usesOf w := by
    have h₁ : m₁.usesOf = m.usesOf := valueField_modifyValue (by exact fun _ => rfl) h₁
    rw [← h₁]
    exact valueField_modifyValue_of (p := Value.uses) hm (g := fun l => l ++ [_]) fun _ => rfl
  have hnew : ⟨user, (m.operandsOf user).length⟩ ∉ m.usesOf value := by
    rw [h.mem, List.getElem?_eq_none (Nat.le_refl _)]
    rintro ⟨⟩
  refine ⟨fun {v u} => ?_, fun v => ?_⟩
  · obtain ⟨w, i⟩ := u
    have hmem : ⟨w, i⟩ ∈ m.usesOf v ↔ (m.operandsOf w)[i]? = some v := h.mem
    rw [ho, hu]
    grind
  · rw [hu]
    have hnodup := h.nodup v
    grind

/-! ## Another operand in the place of one -/

theorem usesOf_removeUse {use : Use} (hm : m.removeUse value use = .ok m') :
    use ∈ m.usesOf value ∧
      m'.usesOf w = if w = value then (m.usesOf w).erase use else m.usesOf w := by
  obtain ⟨x, hx, hmem, rfl⟩ := removeUse_eq_ok.1 hm
  rw [usesOf, valueField_eq hx, valueField_setValue hx]
  refine ⟨hmem, ?_⟩
  by_cases hw : w = value
  · rw [if_pos hw, if_pos hw, hw, valueField_eq hx]
  · rw [if_neg hw, if_neg hw]

theorem operandsOf_replaceOperand {r : Except GraphError Unit}
    (hm : m.replaceOperand user index value = .ok (r, m')) :
    m'.operandsOf w = if w = user then (m.operandsOf w).set index value else m.operandsOf w := by
  obtain ⟨x, hx, hcases⟩ := replaceOperand_cases hm
  have hx : m.operandsOf user = x.operands := valueField_eq hx
  obtain ⟨hnone, -, rfl⟩ | ⟨hsame, -, rfl⟩ | ⟨old, m₁, m₂, -, -, -, h₁, h₂, h₃⟩ := hcases
  · have hlen := List.getElem?_eq_none_iff.1 hnone
    by_cases hw : w = user
    · rw [if_pos hw, hw, hx, List.set_eq_of_length_le hlen]
    · rw [if_neg hw]
  · by_cases hw : w = user
    · obtain ⟨hlt, rfl⟩ := List.getElem?_eq_some_iff.1 hsame
      rw [if_pos hw, hw, hx, List.set_getElem_self]
    · rw [if_neg hw]
  · have h₁ : m₁.operandsOf = m.operandsOf := valueField_removeUse (fun _ _ => rfl) h₁
    have h₃ : m'.operandsOf = m₂.operandsOf := valueField_modifyValue (by exact fun _ => rfl) h₃
    rw [h₃, ← h₁]
    exact valueField_modifyValue_of (p := Value.operands) h₂ (g := fun l => l.set index value)
      fun _ => rfl

theorem usesOf_replaceOperand {r : Except GraphError Unit}
    (hm : m.replaceOperand user index value = .ok (r, m')) :
    (m' = m ∧ ∀ old, (m.operandsOf user)[index]? = some old → old = value) ∨
      ∃ old, (m.operandsOf user)[index]? = some old ∧ old ≠ value ∧
        ∀ w, m'.usesOf w = if w = value then m.usesOf w ++ [⟨user, index⟩]
          else if w = old then (m.usesOf w).erase ⟨user, index⟩ else m.usesOf w := by
  obtain ⟨x, hx, hcases⟩ := replaceOperand_cases hm
  have hx : m.operandsOf user = x.operands := valueField_eq hx
  rw [hx]
  obtain ⟨hnone, -, rfl⟩ | ⟨hsame, -, rfl⟩ | ⟨old, m₁, m₂, hold, hne, -, h₁, h₂, h₃⟩ := hcases
  · exact .inl ⟨rfl, fun old hold => by rw [hnone] at hold; cases hold⟩
  · exact .inl ⟨rfl, fun old hold => Option.some.inj (hold.symm.trans hsame)⟩
  · refine .inr ⟨old, hold, hne, fun w => ?_⟩
    have h₂ : m₂.usesOf = m₁.usesOf := valueField_modifyValue (by exact fun _ => rfl) h₂
    have h₃ : m'.usesOf w = if w = value then m₂.usesOf w ++ [⟨user, index⟩] else m₂.usesOf w :=
      valueField_modifyValue_of (p := Value.uses) h₃ (g := fun l => l ++ [_]) fun _ => rfl
    rw [h₃, h₂, (usesOf_removeUse h₁).2]
    by_cases hw : w = value
    · rw [if_pos hw, if_pos hw, if_neg (by rw [hw]; exact fun h => hne h.symm)]
    · rw [if_neg hw, if_neg hw]

theorem Mirrored.replaceOperand (h : Mirrored m) {r : Except GraphError Unit}
    (hm : m.replaceOperand user index value = .ok (r, m')) : Mirrored m' := by
  have ho (w : ValueId) := operandsOf_replaceOperand (w := w) hm
  rcases usesOf_replaceOperand hm with ⟨rfl, -⟩ | ⟨old, hold, hne, hu⟩
  · exact h
  have hlt := (List.getElem?_eq_some_iff.1 hold).1
  have hnew : ⟨user, index⟩ ∉ m.usesOf value := by
    rw [h.mem, hold]
    exact fun heq => hne (Option.some.inj heq)
  refine ⟨fun {v u} => ?_, fun v => ?_⟩
  · obtain ⟨w, i⟩ := u
    have hmem : ⟨w, i⟩ ∈ m.usesOf v ↔ (m.operandsOf w)[i]? = some v := h.mem
    have hnodup := h.nodup v
    rw [ho, hu]
    by_cases hw : w = user ∧ i = index
    · obtain ⟨rfl, rfl⟩ := hw
      rw [if_pos rfl, List.getElem?_set_self hlt]
      by_cases hv : v = value
      · simp [hv]
      · rw [if_neg hv]
        by_cases hvo : v = old
        · simp [hvo, hne.symm, (hvo ▸ hnodup).mem_erase_iff]
        · simp [hvo, hmem, hold, Ne.symm hv, Ne.symm hvo]
    · have hne' : (⟨w, i⟩ : Use) ≠ ⟨user, index⟩ := fun heq => hw (by simpa using heq)
      have hset : (if w = user then (m.operandsOf w).set index value else m.operandsOf w)[i]? =
          (m.operandsOf w)[i]? := by
        split
        · rename_i hwu
          exact List.getElem?_set_ne fun hi => hw ⟨hwu, hi.symm⟩
        · rfl
      rw [hset, ← hmem]
      split
      · simp [hne']
      · split
        · exact List.mem_erase_of_ne hne'
        · rfl
  · rw [hu]
    have hnodup := h.nodup v
    split
    · rename_i hv
      rw [hv] at hnodup ⊢
      rw [← List.concat_eq_append]
      exact hnodup.concat hnew
    · split
      · exact hnodup.erase _
      · exact hnodup

/-! ## No operands any more -/

/-- Taking the uses by `user` off, position by position, leaves all others. -/
theorem usesOf_removeUsesFrom {operands : List ValueId} (hnodup : ∀ w, (m.usesOf w).Nodup)
    (hm : m.removeUsesFrom user index operands = .ok m') :
    (∀ w, (m'.usesOf w).Nodup) ∧ ∀ w u, u ∈ m'.usesOf w ↔ u ∈ m.usesOf w ∧
      ¬ (u.user = user ∧ ∃ i, u.index = index + i ∧ operands[i]? = some w) := by
  induction operands generalizing m index with
  | nil =>
    cases hm
    exact ⟨hnodup, fun w u => by simp⟩
  | cons v rest ih =>
    obtain ⟨m₁, h₁, hm⟩ := bind_eq_ok.1 hm
    have hu (w : ValueId) := (usesOf_removeUse (w := w) h₁).2
    have hnodup₁ (w : ValueId) : (m₁.usesOf w).Nodup := by
      rw [hu]
      split
      · exact (hnodup w).erase _
      · exact hnodup w
    obtain ⟨hnodup', hmem⟩ := ih hnodup₁ hm
    refine ⟨hnodup', fun w u => ?_⟩
    have hmem₁ : u ∈ m₁.usesOf w ↔ u ∈ m.usesOf w ∧ ¬ (u = ⟨user, index⟩ ∧ w = v) := by
      rw [hu]
      split
      · rename_i hw
        rw [(hnodup w).mem_erase_iff]
        simp only [hw, and_true]
        exact and_comm
      · rename_i hw
        simp [hw]
    have hsplit : (∃ i, u.index = index + i ∧ (v :: rest)[i]? = some w) ↔
        (u.index = index ∧ w = v) ∨ ∃ i, u.index = index + 1 + i ∧ rest[i]? = some w := by
      constructor
      · rintro ⟨i, hi, hget⟩
        cases i with
        | zero => exact .inl ⟨hi, (Option.some.inj hget).symm⟩
        | succ i => exact .inr ⟨i, by omega, hget⟩
      · rintro (⟨hi, rfl⟩ | ⟨i, hi, hget⟩)
        · exact ⟨0, hi, rfl⟩
        · exact ⟨i + 1, by omega, hget⟩
    have huse : u = ⟨user, index⟩ ↔ u.user = user ∧ u.index = index := by
      cases u
      simp
    rw [hmem, hmem₁, hsplit, huse]
    grind

theorem operandsOf_severOperands (hm : m.severOperands user = .ok m') :
    m'.operandsOf w = if w = user then [] else m.operandsOf w := by
  obtain ⟨x, hx, hm⟩ := bind_eq_ok.1 hm
  rw [operandsOf, valueField_removeUsesFrom (fun _ _ => rfl) hm]
  exact valueField_setValue (p := Value.operands) (valueSlot_eq_ok.1 hx) _

theorem usesOf_setOperands {x : Value} (hx : m.values[user.idx]? = some x)
    (operands : List ValueId) : (m.setValue user { x with operands }).usesOf = m.usesOf :=
  valueField_modifyValue (f := fun x => { x with operands }) (by exact fun _ => rfl)
    (modifyValue_eq_ok.2 ⟨x, hx, rfl⟩)

theorem Mirrored.severOperands (h : Mirrored m) (hm : m.severOperands user = .ok m') :
    Mirrored m' := by
  have ho (w : ValueId) := operandsOf_severOperands (w := w) hm
  obtain ⟨x, hx, hm⟩ := bind_eq_ok.1 hm
  have hx := valueSlot_eq_ok.1 hx
  have hops : m.operandsOf user = x.operands := valueField_eq hx
  have hu := usesOf_setOperands hx []
  obtain ⟨hnodup, hmem⟩ := usesOf_removeUsesFrom (fun w => by rw [hu]; exact h.nodup w) hm
  refine ⟨fun {v u} => ?_, hnodup⟩
  rw [hmem, hu, h.mem, ho, ← hops]
  by_cases huser : u.user = user
  · rw [if_pos huser, huser]
    simp
  · rw [if_neg huser]
    simp [huser]

/-! ## Every module -/

theorem Step.mirrored (hm : Step m m') (h : Mirrored m) : Mirrored m' := by
  cases hm with
  | types t => exact h.congr rfl rfl
  | func name ret params =>
    exact h.congr (valueField_addParams _ _ _ fun _ _ _ _ => rfl)
      (valueField_addParams _ _ _ fun _ _ _ _ => rfl)
  | block hm =>
    obtain ⟨x, -, -, rfl⟩ := addBlock_eq_ok hm
    exact h.congr (valueField_addValue (m := m.mention _) _ _ _ rfl)
      (valueField_addValue (m := m.mention _) _ _ _ rfl)
  | global name elem init =>
    exact h.congr (valueField_addValue (m := m.mention _) _ _ _ rfl)
      (valueField_addValue (m := m.mention _) _ _ _ rfl)
  | const c ty => exact h.congr (valueField_addValue _ _ _ rfl) (valueField_addValue _ _ _ rfl)
  | inst ty name kind =>
    exact h.congr (valueField_addValue _ _ _ rfl) (valueField_addValue _ _ _ rfl)
  | name hm =>
    exact h.congr (valueField_modifyValue (by exact fun _ => rfl) hm)
      (valueField_modifyValue (by exact fun _ => rfl) hm)
  | operand hm => exact h.addOperand hm
  | replace hm => exact h.replaceOperand hm
  | sever hm => exact h.severOperands hm
  | unlink hm =>
    exact h.congr (valueField_unlink (fun _ _ => rfl) hm) (valueField_unlink (fun _ _ => rfl) hm)
  | append hm =>
    exact h.congr (valueField_append (fun _ _ => rfl) hm) (valueField_append (fun _ _ => rfl) hm)
  | insert hm =>
    exact h.congr (valueField_insertBefore (fun _ _ => rfl) hm)
      (valueField_insertBefore (fun _ _ => rfl) hm)
  | reach hm => exact h.congr (valueField_modifyBlock hm) (valueField_modifyBlock hm)
  | learn hm =>
    exact h.congr (valueField_propagate (fun _ _ => rfl) hm)
      (valueField_propagate (fun _ _ => rfl) hm)

theorem Built.mirrored {m : Module} (h : m.Built) : Mirrored m := by
  refine h.keep ⟨fun {v u} => ?_, fun _ => List.nodup_nil⟩ fun h hm => hm.mirrored h
  exact ⟨nofun, nofun⟩

theorem exists_users (hlt : v.idx < m.values.size) : ∃ us, m.users v = .ok us :=
  ⟨_, bind_eq_ok.2 ⟨_, uses_eq hlt, rfl⟩⟩

/-- The users of a value are the values that have it as an operand. -/
theorem Mirrored.mem_users {us : List ValueId} {u : ValueId} (h : Mirrored m)
    (hus : m.users v = .ok us) : u ∈ us ↔ v ∈ m.operandsOf u := by
  obtain ⟨uses, huses, hus⟩ := bind_eq_ok.1 hus
  obtain rfl := Except.ok.inj hus
  have huses : m.usesOf v = uses := usesOf_of_uses huses
  rw [List.mem_eraseDups, List.mem_map, ← huses]
  constructor
  · rintro ⟨use, huse, rfl⟩
    exact List.mem_of_getElem? (h.mem.1 huse)
  · intro hmem
    obtain ⟨i, hi⟩ := List.getElem?_of_mem hmem
    exact ⟨⟨u, i⟩, h.mem.2 hi, rfl⟩

/-- In every module that was built, an operand of one value is another value just when the use list
of the other has an entry for it, and then there is one such entry. -/
theorem Built.operand_iff_use {m : Module} (h : m.Built) (u v : ValueId) (i : Nat) :
    (m.operand u i = .ok v ↔ ∃ us, m.uses v = .ok us ∧ ⟨u, i⟩ ∈ us) ∧
      (m.operand u i = .ok v → ∃ us, m.uses v = .ok us ∧ us.count ⟨u, i⟩ = 1) := by
  have hm := h.mirrored
  have huse (hu : (⟨u, i⟩ : Use) ∈ m.usesOf v) : m.uses v = .ok (m.usesOf v) :=
    uses_eq (lt_of_mem_usesOf hu)
  have hmem (ho : m.operand u i = .ok v) : (⟨u, i⟩ : Use) ∈ m.usesOf v :=
    hm.mem.2 (operandsOf_of_operand ho)
  refine ⟨⟨fun ho => ⟨_, huse (hmem ho), hmem ho⟩, ?_⟩, fun ho => ?_⟩
  · rintro ⟨us, hus, hu⟩
    rw [← usesOf_of_uses hus] at hu
    exact operand_eq (hm.mem.1 hu)
  · exact ⟨_, huse (hmem ho), List.count_eq_one_of_mem (hm.nodup v) (hmem ho)⟩

/-- Calls that build a phi with itself and with a sum of it among its values, try to remove it, and
put it in the place of the sum. -/
def selfUseActions : List Action := [
  .addFunction "f" .i32 [], .addBlock ⟨0⟩ "loop",
  .build ⟨0⟩ (.phi .i32), .build ⟨0⟩ (.binary .add ⟨1⟩ ⟨1⟩),
  .build ⟨0⟩ (.addIncoming ⟨1⟩ ⟨1⟩ ⟨0⟩), .build ⟨0⟩ (.addIncoming ⟨1⟩ ⟨2⟩ ⟨0⟩),
  .disconnect ⟨1⟩ true false, .replaceAllUses ⟨2⟩ ⟨1⟩]

/-- The module that `selfUseActions` build. -/
def selfUseModule : Module := (selfUseActions.foldlM Action.run {}).toOption.getD {}

/-- The operand of the phi that was the sum is the phi, with one entry in its use list. -/
theorem Built.operand_iff_use_self :
    selfUseModule.operand ⟨1⟩ 2 = .ok ⟨1⟩ ∧
      ∃ us, selfUseModule.uses ⟨1⟩ = .ok us ∧ us.count ⟨⟨1⟩, 2⟩ = 1 := by
  have hop : selfUseModule.operand ⟨1⟩ 2 = .ok ⟨1⟩ := by decide +kernel
  exact ⟨hop, (Built.operand_iff_use ⟨selfUseActions, rfl⟩ ⟨1⟩ ⟨1⟩ 2).2 hop⟩

end Module

end SsaCodegen
