/-!
# Totals

The total of a measure over the items of a list, which bounds loops that lower the measure of one
item at a time.
-/

namespace SsaCodegen

/-- The sum of a measure over the items of a list. -/
def total (f : α → Nat) : List α → Nat
  | [] => 0
  | a :: rest => f a + total f rest

/-- No item measures more than the total. -/
theorem le_total (f : α → Nat) {l : List α} {i : Nat} {a : α} (h : l[i]? = some a) :
    f a ≤ total f l := by
  induction l generalizing i with
  | nil => simp at h
  | cons x xs ih =>
    simp only [total]
    cases i with
    | zero =>
      simp only [List.getElem?_cons_zero, Option.some.injEq] at h
      subst h
      exact Nat.le_add_right _ _
    | succ i => exact Nat.le_trans (ih (by simpa using h)) (Nat.le_add_left _ _)

/-- Replacing one item of a list moves the total by the difference. -/
theorem total_set (f : α → Nat) {l : List α} {i : Nat} {a b : α} (h : l[i]? = some a) :
    total f (l.set i b) + f a = total f l + f b := by
  induction l generalizing i with
  | nil => simp at h
  | cons x xs ih =>
    cases i with
    | zero =>
      simp only [List.getElem?_cons_zero, Option.some.injEq] at h
      subst h
      simp only [List.set_cons_zero, total]
      omega
    | succ i =>
      have := ih (by simpa using h)
      simp only [List.set_cons_succ, total]
      omega

/-- A measure that is nowhere larger than another, and smaller by `w` at one item, has a total
that is smaller by `w`. -/
theorem total_add_le {f g : α → Nat} {l : List α} {a : α} {w : Nat} (ha : a ∈ l)
    (hle : ∀ x, f x ≤ g x) (hw : f a + w ≤ g a) : total f l + w ≤ total g l := by
  have hmono (l : List α) : total f l ≤ total g l := by
    induction l with
    | nil => exact Nat.le_refl _
    | cons x xs ih => exact Nat.add_le_add (hle x) ih
  induction l with
  | nil => simp at ha
  | cons x xs ih =>
    simp only [total]
    rcases List.mem_cons.1 ha with rfl | hx
    · have := hmono xs
      omega
    · have := ih hx
      have := hle x
      omega

end SsaCodegen
