import Mathlib.Data.List.NodupEquivFin
import SsaCodegen.Target.Listing

/-!
# No two registers print alike

A virtual register prints as a percent sign and one of three texts: `v` and its number, its name,
or its name with a point and its number. Debug names are arbitrary, so a name can be made to look
like either of the other two texts. Such names, and those that several registers share, are the
ambiguous ones, which always carry the number. A number has no point in it, so what stands behind
the last point of a text with a number is that number.

## Main definitions

* `Target.Reg.IsNamed` — a virtual register, or one that the machine has a name for
* `Target.Func.virtText` — the text of a virtual register, without the percent sign

## Main results

* `Target.looksUnnamed_iff`, `Target.looksNumbered_iff` — the names that look like other texts
* `Target.Func.virtText_injective` — the texts of virtual registers differ
* `Target.Func.renderReg_ne` — so do those of all registers
-/

namespace SsaCodegen.Target

/-! ## Numbers in texts -/

theorem isNumber_reverse (ds : List Char) : isNumber ds.reverse = isNumber ds := by
  rw [isNumber, isNumber, List.isEmpty_reverse, List.all_reverse]

theorem isNumber_toDigits (n : Nat) : isNumber (Nat.toDigits 10 n) = true := by
  have hdigits : ∀ c ∈ Nat.toDigits 10 n, c.isDigit = true := fun c hc =>
    Nat.isDigit_of_mem_toDigits (by decide) (by decide) hc
  rw [isNumber, List.all_eq_true.2 hdigits]
  simp [Nat.toDigits_ne_nil]

theorem toDigits_injective : Function.Injective (Nat.toDigits 10) := by
  intro n k h
  have hread := congrArg (fun ds => Nat.ofDigitChars 10 ds 0) h
  simpa using hread

/-- There is no point in a number. -/
theorem point_notMem {ds : List Char} (h : isNumber ds = true) : '.' ∉ ds := by
  intro hmem
  have hdigits := (Bool.and_eq_true_iff.1 h).2
  have hpoint := List.all_eq_true.1 hdigits '.' hmem
  revert hpoint
  decide

/-- What stands behind the last point is read from the back. -/
theorem takeWhile_reverse {ds : List Char} (stem : List Char) (h : isNumber ds = true) :
    (stem ++ '.' :: ds).reverse.takeWhile (· ≠ '.') = ds.reverse := by
  have hall : ∀ c ∈ ds.reverse, decide (c ≠ '.') = true := fun c hc =>
    decide_eq_true fun heq => point_notMem h (heq ▸ List.mem_reverse.1 hc)
  rw [List.reverse_append, List.reverse_cons, List.append_assoc,
    List.takeWhile_append_of_pos hall]
  simp

/-- A text that ends in a point and a number can be read in one way only. -/
theorem point_append_inj {stem stem' ds ds' : List Char} (hds : isNumber ds = true)
    (hds' : isNumber ds' = true) (h : stem ++ '.' :: ds = stem' ++ '.' :: ds') :
    stem = stem' ∧ ds = ds' := by
  have hnumber : ds = ds' := by
    rw [← List.reverse_inj, ← takeWhile_reverse stem hds, h, takeWhile_reverse stem' hds']
  subst hnumber
  exact ⟨List.append_cancel_right h, rfl⟩

/-! ## Names that look like other texts -/

variable {name : String}

theorem looksUnnamed_iff :
    looksUnnamed name = true ↔ ∃ ds, name.toList = 'v' :: ds ∧ isNumber ds = true := by
  rw [looksUnnamed]
  cases name.toList with
  | nil => simp
  | cons c rest =>
    rw [Bool.and_eq_true, decide_eq_true_eq]
    constructor
    · rintro ⟨rfl, hrest⟩
      exact ⟨rest, rfl, hrest⟩
    · rintro ⟨ds, heq, hds⟩
      cases heq
      exact ⟨rfl, hds⟩

theorem looksNumbered_iff :
    looksNumbered name = true ↔
      ∃ stem ds, name.toList = stem ++ '.' :: ds ∧ isNumber ds = true := by
  rw [looksNumbered, Bool.and_eq_true, List.contains_iff_mem]
  constructor
  · rintro ⟨hpoint, hnumber⟩
    -- the text from the back: a part without a point, the last point, the rest
    obtain ⟨back, rest, hsplit, hback⟩ :=
      List.eq_append_cons_of_mem (List.mem_reverse.2 hpoint)
    have hall : ∀ c ∈ back, decide (c ≠ '.') = true := fun c hc =>
      decide_eq_true fun heq => hback (heq ▸ hc)
    have htake : name.toList.reverse.takeWhile (· ≠ '.') = back := by
      rw [hsplit, List.takeWhile_append_of_pos hall]
      simp
    rw [htake] at hnumber
    refine ⟨rest.reverse, back.reverse, ?_, (isNumber_reverse back).trans hnumber⟩
    rw [← List.reverse_inj, hsplit]
    simp
  · rintro ⟨stem, ds, heq, hds⟩
    rw [heq, takeWhile_reverse stem hds, isNumber_reverse]
    exact ⟨by simp, hds⟩

/-! ## Virtual registers -/

namespace Func

variable {f : Func} {n k : Nat}

/-- A name of two registers is ambiguous. -/
theorem isAmbiguous_of_shared (hn : f.vregName? n = some name) (hk : f.vregName? k = some name)
    (hne : n ≠ k) : f.isAmbiguous name = true := by
  have hlt (i : Nat) (hi : f.vregName? i = some name) :
      ∃ h : i < f.vregNames.length, some name = f.vregNames.get ⟨i, h⟩ := by
    obtain ⟨h, heq⟩ := List.getElem?_eq_some_iff.1 (Option.join_eq_some_iff.1 hi)
    exact ⟨h, heq.symm⟩
  obtain ⟨hn, hn'⟩ := hlt n hn
  obtain ⟨hk, hk'⟩ := hlt k hk
  have hdup : List.Duplicate (some name) f.vregNames := by
    rw [List.duplicate_iff_exists_distinct_get]
    rcases Nat.lt_or_gt_of_ne hne with hlt | hlt
    · exact ⟨⟨n, hn⟩, ⟨k, hk⟩, hlt, hn', hk'⟩
    · exact ⟨⟨k, hk⟩, ⟨n, hn⟩, hlt, hk', hn'⟩
  have hcount : f.vregNames.count (some name) > 1 :=
    List.replicate_sublist_iff.1 (List.duplicate_iff_sublist.1 hdup)
  rw [isAmbiguous, decide_eq_true hcount, Bool.true_or, Bool.true_or]

/-- The text of a virtual register, without the percent sign. -/
def virtText (f : Func) (n : Nat) : List Char :=
  match f.vregName? n with
  | none => 'v' :: Nat.toDigits 10 n
  | some name =>
    if f.isAmbiguous name then name.toList ++ '.' :: Nat.toDigits 10 n else name.toList

theorem toList_renderReg_virt (f : Func) (n : Nat) :
    (f.renderReg (.virt n)).toList = '%' :: f.virtText n := by
  have hpercent : (toString "%").toList = ['%'] := rfl
  have hpoint : (toString ".").toList = ['.'] := rfl
  have hv : (toString "%v").toList = ['%', 'v'] := rfl
  have hname (name : String) : (toString name).toList = name.toList := rfl
  rw [renderReg, virtText]
  cases f.vregName? n with
  | none => simp [Nat.toString_eq_repr, hv]
  | some name =>
    dsimp only
    split <;> simp [Nat.toString_eq_repr, hpercent, hpoint, hname]

/-- A name that stands alone is not the text of a register without a name. -/
theorem toList_ne_unnamed (h : f.isAmbiguous name = false) :
    name.toList ≠ 'v' :: Nat.toDigits 10 n := by
  intro heq
  have hlooks := looksUnnamed_iff.2 ⟨_, heq, isNumber_toDigits n⟩
  simp [isAmbiguous, hlooks] at h

/-- A name that stands alone is not the text of a register with a name and a number. -/
theorem toList_ne_numbered {stem : List Char} (h : f.isAmbiguous name = false) :
    name.toList ≠ stem ++ '.' :: Nat.toDigits 10 n := by
  intro heq
  have hlooks := looksNumbered_iff.2 ⟨_, _, heq, isNumber_toDigits n⟩
  simp [isAmbiguous, hlooks] at h

theorem unnamed_ne_numbered {stem : List Char} :
    'v' :: Nat.toDigits 10 n ≠ stem ++ '.' :: Nat.toDigits 10 k := by
  intro heq
  have hpoint : '.' ∈ 'v' :: Nat.toDigits 10 n := by simp [heq]
  rcases List.mem_cons.1 hpoint with hv | hdigit
  · revert hv
    decide
  · exact point_notMem (isNumber_toDigits n) hdigit

/-- The texts of virtual registers differ, whatever names they have. -/
theorem virtText_injective (f : Func) : Function.Injective f.virtText := by
  intro n k h
  by_contra hne
  rw [virtText, virtText] at h
  cases hn : f.vregName? n with
  | none =>
    cases hk : f.vregName? k with
    | none =>
      rw [hn, hk] at h
      exact hne (toDigits_injective (List.cons.inj h).2)
    | some name =>
      rw [hn, hk] at h
      dsimp only at h
      split at h
      · exact unnamed_ne_numbered h
      · rename_i hamb
        exact toList_ne_unnamed (Bool.eq_false_iff.2 hamb) h.symm
  | some name =>
    cases hk : f.vregName? k with
    | none =>
      rw [hn, hk] at h
      dsimp only at h
      split at h
      · exact unnamed_ne_numbered h.symm
      · rename_i hamb
        exact toList_ne_unnamed (Bool.eq_false_iff.2 hamb) h
    | some name' =>
      rw [hn, hk] at h
      dsimp only at h
      split at h
      · split at h
        · have hnumber := (point_append_inj (isNumber_toDigits n) (isNumber_toDigits k) h).2
          exact hne (toDigits_injective hnumber)
        · rename_i hamb
          exact toList_ne_numbered (Bool.eq_false_iff.2 hamb) h.symm
      · rename_i hamb
        have hamb := Bool.eq_false_iff.2 hamb
        split at h
        · exact toList_ne_numbered hamb h
        · -- two registers of one name would make it ambiguous
          cases String.toList_inj.1 h
          rw [isAmbiguous_of_shared hn hk hne] at hamb
          cases hamb

end Func

/-! ## All registers -/

/-- A register that a listing has a text of its own for: a virtual one, or one of the machine's 32.
-/
def Reg.IsNamed : Reg → Prop
  | .virt _ => True
  | .phys r => r.num < 32

instance (r : Reg) : Decidable r.IsNamed :=
  match r with
  | .virt _ => .isTrue trivial
  | .phys p => inferInstanceAs (Decidable (p.num < 32))

theorem PhysReg.name_eq {r : PhysReg} (h : r.num < 32) :
    ∃ hlt : r.num < regNames.length, r.name = regNames.get ⟨r.num, hlt⟩ :=
  ⟨h, by rw [name, List.getElem?_eq_getElem h]; rfl⟩

/-- The names of the machine's registers differ. -/
theorem PhysReg.name_inj {r s : PhysReg} (hr : r.num < 32) (hs : s.num < 32)
    (h : r.name = s.name) : r = s := by
  have hnodup : regNames.Nodup := by decide
  obtain ⟨hltr, hr⟩ := name_eq hr
  obtain ⟨hlts, hs⟩ := name_eq hs
  have hnum : r.num = s.num :=
    Fin.mk.inj (List.nodup_iff_injective_get.1 hnodup (hr.symm.trans (h.trans hs)))
  cases r
  cases s
  cases hnum
  rfl

/-- No register of the machine has a percent sign before its name. -/
theorem PhysReg.toList_name_ne {r : PhysReg} (h : r.num < 32) (text : List Char) :
    r.name.toList ≠ '%' :: text := by
  have hheads : ∀ name ∈ regNames, name.toList.head? ≠ some '%' := by decide
  obtain ⟨hlt, hname⟩ := name_eq h
  intro heq
  refine hheads r.name (hname ▸ List.get_mem _ _) ?_
  rw [heq]
  rfl

/-- Different registers have different texts in the listing of a function, whatever debug names its
virtual registers have. -/
theorem Func.renderReg_ne (f : Func) {r s : Reg} (hr : r.IsNamed) (hs : s.IsNamed) (hne : r ≠ s) :
    f.renderReg r ≠ f.renderReg s := by
  intro h
  have hlist := congrArg String.toList h
  cases r with
  | virt n =>
    cases s with
    | virt k =>
      rw [toList_renderReg_virt, toList_renderReg_virt] at hlist
      exact hne (congrArg Reg.virt (f.virtText_injective (List.cons.inj hlist).2))
    | phys q =>
      rw [toList_renderReg_virt] at hlist
      exact PhysReg.toList_name_ne hs _ hlist.symm
  | phys p =>
    cases s with
    | virt k =>
      rw [toList_renderReg_virt] at hlist
      exact PhysReg.toList_name_ne hr _ hlist
    | phys q => exact hne (congrArg Reg.phys (PhysReg.name_inj hr hs h))

/-- Two registers named `x`, one without a name, one named like that one's text and one named like
the text of the first. -/
def knottyFunc : Func where
  name := "f"
  isExternal := false
  vregNames := [some "x", some "x", none, some "v2", some "x.0"]

theorem Func.renderReg_ne_knotty :
    (knottyFunc.renderReg (.virt 0) ≠ knottyFunc.renderReg (.virt 1) ∧
      knottyFunc.renderReg (.virt 0) ≠ knottyFunc.renderReg (.virt 4)) ∧
    (knottyFunc.renderReg (.virt 2) ≠ knottyFunc.renderReg (.virt 3) ∧
      knottyFunc.renderReg (.virt 2) ≠ knottyFunc.renderReg (.virt 22)) ∧
    knottyFunc.renderReg (.virt 5) ≠ knottyFunc.renderReg (.phys ⟨31⟩) ∧
      knottyFunc.renderReg (.phys ⟨9⟩) ≠ knottyFunc.renderReg (.phys ⟨10⟩) :=
  ⟨⟨renderReg_ne _ (by decide) (by decide) (by decide),
      renderReg_ne _ (by decide) (by decide) (by decide)⟩,
    ⟨renderReg_ne _ (by decide) (by decide) (by decide),
      renderReg_ne _ (by decide) (by decide) (by decide)⟩,
    renderReg_ne _ (by decide) (by decide) (by decide),
    renderReg_ne _ (by decide) (by decide) (by decide)⟩

end SsaCodegen.Target
