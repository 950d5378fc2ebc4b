import Mathlib.Data.List.Pairwise
import Mathlib.Data.Nat.Prime.Basic
import SsaCodegen.Proofs.Ty.Layout

/-!
# Alignment of scalars in nested classes

A scalar of one, two or four bytes should start at a multiple of its size, however deep in nested
classes it stands and whatever the item of an array it stands in. Inside an instance it does. From
one item of an array to the next it does unless its size is two and the items have an odd size. The
alignment of a field is its size, so a class of three bytes has an alignment of three, and a class
that is padded to a multiple of three need not have an even size.

## Main definitions

* `TypeTable.Reaches` — a path of nested fields from a type to a scalar
* `TypeTable.Call.orderly` — each class is declared once, and before a field holds it
* `Layout.Aligned` — how alignment places the fields of a class and pads it

## Main results

* `TypeTable.Tidy.of_orderly` — the layouts after orderly calls are aligned with the sizes that types
  have at the end
* `TypeTable.Fits.of_reaches` — a scalar stands inside the type and is aligned in it
* `TypeTable.run_scalars_aligned` — when a scalar of an array item is aligned
* `TypeTable.run_scalar_misaligned` — an array whose second item has a misaligned scalar
-/

namespace SsaCodegen

variable {sizeOf sizeOf' : Ty → Nat} {c : Layout}

/-- A pointer or an integer. -/
def Ty.isScalar : Ty → Bool
  | ⟨_ + 1, _⟩ | ⟨0, .int _⟩ => true
  | _ => false

/-- A pointer, an integer of one, two or four bytes, or one of the classes in a list. -/
def Ty.isPlain (known : List String) : Ty → Bool
  | ⟨_ + 1, _⟩ => true
  | ⟨0, .int bits⟩ => [1, 2, 4].contains ((bits.toNat + 7) / 8)
  | ⟨0, .cls name⟩ => known.contains name
  | _ => false

/-! ## One layout -/

namespace Layout

/-- Each field starts at a multiple of its alignment, and the class is padded to a multiple of the
largest one. -/
structure Aligned (sizeOf : Ty → Nat) (c : Layout) : Prop where
  offset : ∀ f ∈ c.fields, alignment (sizeOf f.ty) ∣ f.offset
  inside : ∀ f ∈ c.fields, f.offset + sizeOf f.ty ≤ c.size
  apart : c.fields.Pairwise fun a b => a.offset + sizeOf a.ty ≤ b.offset
  size : ∃ align, align ∣ c.size ∧ (∀ f ∈ c.fields, alignment (sizeOf f.ty) ≤ align) ∧
    (align = 1 ∨ ∃ f ∈ c.fields, align = alignment (sizeOf f.ty))

theorem Row.dvd_offset {start stop : Nat} {fields : List Field}
    (h : Row sizeOf start fields stop) : ∀ f ∈ fields, alignment (sizeOf f.ty) ∣ f.offset := by
  induction h with
  | nil start => exact List.forall_mem_nil _
  | cons hoffset _ ih => exact List.forall_mem_cons.2 ⟨hoffset.dvd, ih⟩

theorem aligned_of_compute {name : String} {fields : List (String × Ty)}
    (h : compute sizeOf name fields = .ok c) : c.Aligned sizeOf := by
  obtain ⟨stop, hc, -⟩ := filled_of_compute h
  have hplaced := hc.row.placed
  obtain ⟨hle, hattained⟩ := maxAlignment_spec sizeOf (c.fields.map fun f => (f.name, f.ty))
  refine ⟨hc.row.dvd_offset, ?_, hplaced.ordered, _, hc.size.dvd, ?_, ?_⟩
  · exact fun f hf => (hplaced.within f hf).2.trans hc.size.le
  · exact fun f hf => hle _ (List.mem_map_of_mem hf)
  · simpa using hattained

/-- Alignment depends on the sizes of the fields only. -/
theorem Aligned.congr (h : c.Aligned sizeOf) (heq : ∀ f ∈ c.fields, sizeOf' f.ty = sizeOf f.ty) :
    c.Aligned sizeOf' := by
  obtain ⟨align, hdvd, hle, hattained⟩ := h.size
  refine ⟨fun f hf => ?_, fun f hf => ?_, ?_, align, hdvd, fun f hf => ?_, ?_⟩
  · exact heq f hf ▸ h.offset f hf
  · exact heq f hf ▸ h.inside f hf
  · exact h.apart.imp_of_mem fun ha _ hab => heq _ ha ▸ hab
  · exact heq f hf ▸ hle f hf
  · refine hattained.imp_right ?_
    rintro ⟨f, hf, hfa⟩
    exact ⟨f, hf, heq f hf ▸ hfa⟩

theorem alignment_le_three_iff {n : Nat} : alignment n ≤ 3 ↔ n ≤ 3 := by
  rw [alignment, wordBytes]
  omega

theorem alignment_eq_three_iff {n : Nat} : alignment n = 3 ↔ n = 3 := by
  rw [alignment, wordBytes]
  omega

/-- The alignment of what a scalar fits in is a multiple of the size of the scalar, except for two
bytes in three. -/
theorem dvd_alignment {n s : Nat} (hs : s ∈ [1, 2, 4]) (hle : s ≤ n) (hne : s = 2 → n ≠ 3) :
    s ∣ alignment n := by
  rw [alignment, wordBytes]
  simp only [List.mem_cons, List.not_mem_nil, or_false] at hs
  rcases hs with rfl | rfl | rfl <;> omega

/-- A class is padded to what a field of two bytes or more needs, unless a field takes three bytes
and none takes more. -/
theorem Aligned.padded (h : c.Aligned sizeOf) {f : Field} (hf : f ∈ c.fields)
    (hsize : 2 ≤ sizeOf f.ty) :
    (2 ∣ c.size ∧ (4 ≤ sizeOf f.ty → 4 ∣ c.size)) ∨
      (∃ g ∈ c.fields, sizeOf g.ty = 3) ∧ ∀ g ∈ c.fields, sizeOf g.ty ≤ 3 := by
  obtain ⟨align, hdvd, hle, hattained⟩ := h.size
  have hfa := hle f hf
  by_cases hthree : align = 3
  · subst hthree
    obtain ⟨g, hg, hga⟩ := hattained.resolve_left (by decide)
    exact .inr ⟨⟨g, hg, alignment_eq_three_iff.1 hga.symm⟩,
      fun g hg => alignment_le_three_iff.1 (hle g hg)⟩
  · have halign : align = 2 ∧ sizeOf f.ty < 4 ∨ align = 4 := by
      rcases hattained with rfl | ⟨g, -, rfl⟩ <;> simp only [alignment, wordBytes] at * <;> omega
    rcases halign with ⟨rfl, hlt⟩ | rfl
    · exact .inl ⟨hdvd, fun hge => absurd hge (by omega)⟩
    · exact .inl ⟨.trans (by decide) hdvd, fun _ => hdvd⟩

/-- A class with fields of two and of three bytes takes more than three. -/
theorem Aligned.size_ne_three (h : c.Aligned sizeOf) {f : Field} (hf : f ∈ c.fields)
    (hsize : 2 ≤ sizeOf f.ty) (hne : sizeOf f.ty ≠ 3) : c.size ≠ 3 := by
  intro hthree
  rcases h.padded hf hsize with ⟨heven, -⟩ | ⟨⟨g, hg, hgsize⟩, -⟩
  · omega
  · have hfin := h.inside f hf
    have hgin := h.inside g hg
    have hfg : f ≠ g := fun heq => hne (heq ▸ hgsize)
    have hsymm : Std.Symm fun a b : Field =>
        a.offset + sizeOf a.ty ≤ b.offset ∨ b.offset + sizeOf b.ty ≤ a.offset :=
      ⟨fun _ _ => Or.symm⟩
    have hapart := @List.Pairwise.forall _ _ _ hsymm (h.apart.imp Or.inl) f hf g hg hfg
    omega

end Layout

/-! ## Paths to scalars -/

namespace TypeTable

variable {t : TypeTable} {ty : Ty} {name : String} {offset s : Nat}

/-- A path of nested fields from a type to a scalar: where the scalar starts and its size. -/
inductive Reaches (t : TypeTable) : Ty → Nat → Nat → Prop where
  | scalar {ty : Ty} (h : ty.isScalar = true) : Reaches t ty 0 (t.size ty)
  | field {name : String} {c : Layout} {f : Field} {offset s : Nat} (hc : t.layout? name = some c)
      (hf : f ∈ c.fields) (h : Reaches t f.ty offset s) :
      Reaches t (.cls name) (f.offset + offset) s

theorem size_cls (h : t.layout? name = some c) : t.size (.cls name) = c.size := by
  simp [size, baseSize, Ty.cls, h]

/-- A table whose layouts are aligned with the sizes that types have in it, and whose scalar fields
take one, two or four bytes. -/
structure Tidy (t : TypeTable) : Prop where
  aligned : ∀ c ∈ t.classes, c.Aligned t.size
  scalar : ∀ c ∈ t.classes, ∀ f ∈ c.fields, f.ty.isScalar = true → t.size f.ty ∈ [1, 2, 4]

/-- A scalar inside a type, aligned in it. That two bytes are not put into three is what carries the
induction over paths: fields of three bytes start at multiples of three. -/
structure Fits (t : TypeTable) (ty : Ty) (offset s : Nat) : Prop where
  size : s ∈ [1, 2, 4]
  dvd : s ∣ offset
  inside : offset + s ≤ t.size ty
  ne_three : s = 2 → t.size ty ≠ 3

theorem Fits.of_reaches (ht : t.Tidy) (h : t.Reaches ty offset s)
    (hty : ty.isScalar = true → t.size ty ∈ [1, 2, 4]) : t.Fits ty offset s := by
  induction h with
  | scalar h => exact ⟨hty h, Nat.dvd_zero _, by omega, by omega⟩
  | @field name c f offset s hc hf h ih =>
    have hmem : c ∈ t.classes := List.mem_of_find?_eq_some hc
    have haligned := ht.aligned c hmem
    have hfits := ih (ht.scalar c hmem f hf)
    have hoffset := hfits.inside
    have hinside := haligned.inside f hf
    have hstart : s ∣ f.offset :=
      (Layout.dvd_alignment hfits.size (by omega) hfits.ne_three).trans (haligned.offset f hf)
    refine ⟨hfits.size, Nat.dvd_add hstart hfits.dvd, ?_, ?_⟩
    · rw [size_cls hc]
      omega
    · intro htwo
      rw [size_cls hc]
      exact haligned.size_ne_three hf (by omega) (hfits.ne_three htwo)

theorem Reaches.of_cls (hc : t.layout? name = some c) (h : t.Reaches (.cls name) offset s) :
    ∃ f ∈ c.fields, ∃ rest, t.Reaches f.ty rest s ∧ offset = f.offset + rest := by
  generalize hty : Ty.cls name = ty at h
  cases h with
  | scalar h => simp [← hty, Ty.isScalar, Ty.cls] at h
  | @field name' c' f rest s hc' hf h =>
    simp only [Ty.cls, Ty.mk.injEq, BaseTy.cls.injEq, true_and] at hty
    subst hty
    cases hc.symm.trans hc'
    exact ⟨f, hf, rest, h, rfl⟩

/-- The items of an array of a class keep a scalar aligned, unless it takes two bytes and the class
takes an odd number of them. -/
theorem Tidy.dvd_item_iff (ht : t.Tidy) (hc : t.layout? name = some c)
    (h : t.Reaches (.cls name) offset s) (k : Nat) :
    (s ∣ k * c.size + offset ↔ ¬ (s = 2 ∧ k % 2 = 1 ∧ c.size % 2 = 1)) ∧
      (s = 2 → c.size % 2 = 1 →
        (∃ f ∈ c.fields, t.size f.ty = 3) ∧ ∀ f ∈ c.fields, t.size f.ty ≤ 3) := by
  have hmem : c ∈ t.classes := List.mem_of_find?_eq_some hc
  obtain ⟨f, hf, rest, hrest, rfl⟩ := h.of_cls hc
  have hfits := Fits.of_reaches ht h (by simp [Ty.isScalar, Ty.cls])
  have hle : s ≤ t.size f.ty := by
    have := (Fits.of_reaches ht hrest (ht.scalar c hmem f hf)).inside
    omega
  have hpadded := (ht.aligned c hmem).padded hf
  rw [Nat.dvd_add_left hfits.dvd]
  have hs := hfits.size
  simp only [List.mem_cons, List.not_mem_nil, or_false] at hs
  rcases hs with rfl | rfl | rfl
  · simp
  · have hodd : c.size % 2 = 1 → ¬ (2 ∣ c.size ∧ (4 ≤ t.size f.ty → 4 ∣ c.size)) := by omega
    refine ⟨?_, fun _ hsize => (hpadded hle).resolve_left (hodd hsize)⟩
    rw [Nat.prime_two.dvd_mul]
    omega
  · have hfour : 4 ∣ c.size := by
      rcases hpadded (by omega) with ⟨-, hfour⟩ | ⟨-, hall⟩
      · exact hfour hle
      · have := hall f hf
        omega
    simpa using hfour.mul_left k

/-! ## Orderly calls -/

/-- Every class is declared once, and before a field holds it by value. All other fields are
pointers or integers of one, two or four bytes. -/
def Call.orderly (known : List String) : List Call → Bool
  | [] => true
  | .mention _ :: rest => orderly known rest
  | .declare name fields :: rest =>
    !known.contains name && fields.all (fun f => f.2.isPlain known) && orderly (name :: known) rest

theorem Call.declared_ne_of_orderly {known : List String} {calls : List Call}
    (h : Call.orderly known calls = true) (hname : name ∈ known) :
    ∀ call ∈ calls, call.declared ≠ some name := by
  induction calls generalizing known with
  | nil => exact List.forall_mem_nil _
  | cons call rest ih =>
    refine List.forall_mem_cons.2 ?_
    cases call with
    | mention ty => exact ⟨by simp [Call.declared], ih h hname⟩
    | declare other fields =>
      simp only [orderly, Bool.and_eq_true, Bool.not_eq_true', List.contains_eq_mem,
        decide_eq_false_iff_not] at h
      refine ⟨?_, ih h.2 (List.mem_cons_of_mem _ hname)⟩
      rintro ⟨⟩
      exact h.1.1 hname

/-- The class of a field is not declared from the declaration on that the field is of. -/
theorem Call.plain_of_orderly {known : List String} {before after : List Call}
    {fields : List (String × Ty)}
    (h : Call.orderly known (before ++ .declare name fields :: after) = true) :
    ∀ f ∈ fields, ∃ known', f.2.isPlain known' = true ∧ ∀ other ∈ known',
      ∀ call ∈ .declare name fields :: after, call.declared ≠ some other := by
  induction before generalizing known with
  | nil =>
    intro f hf
    have hall := h
    simp only [List.nil_append, orderly, Bool.and_eq_true, List.all_eq_true] at hall
    exact ⟨known, hall.1.2 f hf, fun other => Call.declared_ne_of_orderly h⟩
  | cons call rest ih =>
    cases call with
    | mention ty => exact ih h
    | declare other fields' =>
      rw [List.cons_append, orderly, Bool.and_eq_true] at h
      exact ih h.2

theorem size_of_isPlain {known : List String} (h : ty.isPlain known = true)
    (hscalar : ty.isScalar = true) : t.size ty ∈ [1, 2, 4] := by
  obtain ⟨_ | layers, base⟩ := ty
  · cases base with
    | int bits => simpa [Ty.isPlain, size, baseSize] using h
    | void | label | cls name => simp [Ty.isScalar] at hscalar
  · simp [size, wordBytes]

/-- After orderly calls every layout is what it would be with the sizes that types have at the
end. -/
theorem Tidy.of_orderly {calls : List Call} (h : calls.foldlM Call.run {} = .ok t)
    (horderly : Call.orderly [] calls = true) : t.Tidy := by
  have hplain (c : Layout) (hc : c ∈ t.classes) : c.Aligned t.size ∧
      ∀ f ∈ c.fields, ∃ known, f.ty.isPlain known = true := by
    obtain ⟨before, fields, after, t₀, rfl, -, h₀, hcompute⟩ := (Dated.run h).declared c hc
    rw [List.foldlM_append] at h
    obtain ⟨t₁, h₁, h⟩ := bind_eq_ok.1 h
    cases h₀.symm.trans h₁
    obtain ⟨-, hfields⟩ := Layout.fields_of_compute hcompute
    have hfield (f : Field) (hf : f ∈ c.fields) :=
      Call.plain_of_orderly horderly (f.name, f.ty) (hfields ▸ List.mem_map_of_mem hf)
    refine ⟨(Layout.aligned_of_compute hcompute).congr fun f hf => ?_, fun f hf => ?_⟩
    · obtain ⟨known, hplain, hlater⟩ := hfield f hf
      refine size_run h fun name hname => hlater name ?_
      simpa [hname, Ty.isPlain, Ty.cls] using hplain
    · obtain ⟨known, hplain, -⟩ := hfield f hf
      exact ⟨known, hplain⟩
  refine ⟨fun c hc => (hplain c hc).1, fun c hc f hf hscalar => ?_⟩
  obtain ⟨known, hf⟩ := (hplain c hc).2 f hf
  exact size_of_isPlain hf hscalar

/-- After orderly calls a scalar stands at a multiple of its size inside every class that it is in,
and also inside every item of an array of the class, unless it takes two bytes, the item has an odd
index and the class takes an odd number of bytes. The class then has a field of three bytes and none
of more. -/
theorem run_scalars_aligned {calls : List Call} (hrun : calls.foldlM Call.run {} = .ok t)
    (horderly : Call.orderly [] calls = true) (hc : t.layout? name = some c)
    (hpath : t.Reaches (.cls name) offset s) (k : Nat) :
    s ∈ [1, 2, 4] ∧ s ∣ offset ∧ offset + s ≤ c.size ∧
      (s ∣ k * c.size + offset ↔ ¬ (s = 2 ∧ k % 2 = 1 ∧ c.size % 2 = 1)) ∧
      (s = 2 → c.size % 2 = 1 →
        (∃ f ∈ c.fields, t.size f.ty = 3) ∧ ∀ f ∈ c.fields, t.size f.ty ≤ 3) := by
  have htidy := Tidy.of_orderly hrun horderly
  have hfits := Fits.of_reaches htidy hpath (by simp [Ty.isScalar, Ty.cls])
  exact ⟨hfits.size, hfits.dvd, size_cls hc ▸ hfits.inside, htidy.dvd_item_iff hc hpath k⟩

/-- Calls that declare a class of three bytes, a class of nine that holds it, and a class that holds
that one. -/
def pixelCalls : List Call := [
  .declare "Rgb" [("r", .int 8), ("g", .int 8), ("b", .int 8)],
  .declare "Pixel" [("depth", .int 16), ("color", .cls "Rgb"), ("alpha", .int 8)],
  .mention (Ty.cls "Pixel").ptr,
  .declare "Cell" [("tag", .int 8), ("pixel", .cls "Pixel"), ("next", (Ty.cls "Cell").ptr)]]

/-- The table that `pixelCalls` lead to. -/
def pixelTable : TypeTable := (pixelCalls.foldlM Call.run {}).toOption.getD {}

/-- The layout of the class of nine bytes. -/
def pixelLayout : Layout :=
  ⟨"Pixel", [⟨"depth", .int 16, 0⟩, ⟨"color", .cls "Rgb", 3⟩, ⟨"alpha", .int 8, 6⟩], 9⟩

/-- The layout of the outermost class. -/
def cellLayout : Layout :=
  ⟨"Cell", [⟨"tag", .int 8, 0⟩, ⟨"pixel", .cls "Pixel", 4⟩, ⟨"next", (Ty.cls "Cell").ptr, 16⟩], 20⟩

theorem pixelTable_run : pixelCalls.foldlM Call.run {} = .ok pixelTable :=
  run_eq_ok (by decide +kernel)

theorem pixelTable_depth : pixelTable.Reaches (.cls "Pixel") 0 2 :=
  .field (c := pixelLayout) (f := ⟨"depth", .int 16, 0⟩) (by decide +kernel) (by decide +kernel)
    (.scalar (by decide))

/-- The two bytes in the class of nine, in the fourth item of an array of the outermost class. -/
theorem run_scalars_aligned_cell :
    pixelCalls.foldlM Call.run {} = .ok pixelTable ∧ Call.orderly [] pixelCalls = true ∧
      pixelTable.layout? "Cell" = some cellLayout ∧ pixelTable.Reaches (.cls "Cell") (4 + 0) 2 ∧
      2 ∣ 3 * cellLayout.size + (4 + 0) := by
  have horderly : Call.orderly [] pixelCalls = true := by decide +kernel
  have hc : pixelTable.layout? "Cell" = some cellLayout := by decide +kernel
  have hpath : pixelTable.Reaches (.cls "Cell") (4 + 0) 2 :=
    .field (f := ⟨"pixel", .cls "Pixel", 4⟩) hc (by decide +kernel) pixelTable_depth
  obtain ⟨-, -, -, hitem, -⟩ := run_scalars_aligned pixelTable_run horderly hc hpath 3
  exact ⟨pixelTable_run, horderly, hc, hpath, hitem.2 (by decide)⟩

/-- The two bytes that a class of nine starts with, in the second item of an array of it. -/
theorem run_scalar_misaligned :
    pixelCalls.foldlM Call.run {} = .ok pixelTable ∧ Call.orderly [] pixelCalls = true ∧
      pixelTable.layout? "Pixel" = some pixelLayout ∧ pixelTable.Reaches (.cls "Pixel") 0 2 ∧
      ¬ 2 ∣ 1 * pixelLayout.size + 0 :=
  ⟨pixelTable_run, by decide +kernel, by decide +kernel, pixelTable_depth, by decide⟩

end TypeTable

end SsaCodegen
