import Mathlib.Order.Interval.Finset.Nat
import SsaCodegen.Ty.Table

/-!
# Class layouts over a run of declarations

A layout is worked out once, when its class is declared, from the sizes that types have at that
moment. With those sizes the fields neither overlap nor leave the class. A class that a field holds
by value may be declared later, or again, and its size may then change, but no layout is worked out
again: the layout stays valid as long as no field has outgrown the size that was reserved for it.

What a layout looks like can be said without regard to 32 bits. No offset in it is above the size of
the class, so a class is refused exactly when its size does not fit.

## Main definitions

* `Size.LeastMultiple` — what rounding up is to give
* `Field.bytes`, `Layout.Valid` — the bytes that fields take, and when these do not collide
* `Layout.Placed`, `Layout.Row` — fields one after the other, and as near as alignment allows
* `Layout.Filled` — the fields of a class in a row, and its size
* `TypeTable.Call` — what a caller can ask of a type table

## Main results

* `Layout.Row.place_eq` — placing fields gives their row, if it fits
* `Layout.Filled.compute_eq` — so does laying a class out
* `Layout.valid_of_compute` — a layout is valid with the sizes that it was worked out from
* `TypeTable.Dated.run` — each layout of a table dates from the last declaration of its class
* `TypeTable.run_layouts_valid` — when the layouts of a table are valid
* `TypeTable.run_layout_outgrown` — a class that grows after it was embedded
-/

namespace SsaCodegen

variable {sizeOf sizeOf' : Ty → Nat} {c : Layout}

/-- The bytes of an instance that a field takes. -/
def Field.bytes (sizeOf : Ty → Nat) (f : Field) : Finset Nat :=
  Finset.Ico f.offset (f.offset + sizeOf f.ty)

/-- No two fields have a byte in common, and all their bytes are in the class. -/
structure Layout.Valid (sizeOf : Ty → Nat) (c : Layout) : Prop where
  disjoint : c.fields.Pairwise fun a b => Disjoint (a.bytes sizeOf) (b.bytes sizeOf)
  inside : ∀ f ∈ c.fields, f.bytes sizeOf ⊆ Finset.Ico 0 c.size

theorem Size.le_roundUp (n : Nat) {align : Nat} (h : 0 < align) :
    n ≤ (n + align - 1) / align * align := by
  have hdiv := Nat.div_add_mod (n + align - 1) align
  have hmod := Nat.mod_lt (n + align - 1) h
  rw [Nat.mul_comm] at hdiv
  omega

theorem Size.alignTo_eq (n : Nat) {align : Nat} (h : 0 < align) :
    Size.alignTo n align = Size.fit ((n + align - 1) / align * align) :=
  if_neg h.ne'

theorem Size.alignTo_eq_ok {n align k : Nat} (h : Size.alignTo n align = .ok k) :
    0 < align ∧ k = (n + align - 1) / align * align := by
  rw [Size.alignTo] at h
  split at h
  · cases h
  · exact ⟨by omega, (Size.fit_eq_ok.1 h).2⟩

theorem Size.le_of_alignTo {n align k : Nat} (h : Size.alignTo n align = .ok k) : n ≤ k := by
  obtain ⟨halign, rfl⟩ := Size.alignTo_eq_ok h
  exact Size.le_roundUp n halign

theorem Size.dvd_of_alignTo {n align k : Nat} (h : Size.alignTo n align = .ok k) : align ∣ k := by
  obtain ⟨-, rfl⟩ := Size.alignTo_eq_ok h
  exact Nat.dvd_mul_left ..

/-- A number is the least multiple of another that is not below a third. -/
structure Size.LeastMultiple (align n k : Nat) : Prop where
  dvd : align ∣ k
  le : n ≤ k
  least : ∀ {j}, align ∣ j → n ≤ j → k ≤ j

namespace Size.LeastMultiple

variable {align n j k : Nat}

theorem roundUp (n : Nat) (h : 0 < align) :
    LeastMultiple align n ((n + align - 1) / align * align) := by
  refine ⟨Nat.dvd_mul_left .., le_roundUp n h, fun {j} hdvd hle => ?_⟩
  obtain ⟨q, rfl⟩ := hdvd
  rw [Nat.mul_comm]
  refine Nat.mul_le_mul_left align (Nat.le_of_lt_succ ((Nat.div_lt_iff_lt_mul h).2 ?_))
  rw [Nat.succ_mul, Nat.mul_comm q]
  omega

theorem unique (h : LeastMultiple align n k) (h' : LeastMultiple align n j) : k = j :=
  Nat.le_antisymm (h.least h'.dvd h'.le) (h'.least h.dvd h.le)

theorem alignTo_eq (h : LeastMultiple align n k) (halign : 0 < align) :
    alignTo n align = fit k := by
  rw [Size.alignTo_eq n halign, h.unique (roundUp n halign)]

end Size.LeastMultiple

/-! ## One layout -/

namespace Layout

/-- Fields that stand one after the other between two offsets. -/
inductive Placed (sizeOf : Ty → Nat) : Nat → List Field → Nat → Prop
  | nil (start : Nat) : Placed sizeOf start [] start
  | cons {start stop : Nat} {f : Field} {rest : List Field} (hle : start ≤ f.offset)
      (hrest : Placed sizeOf (f.offset + sizeOf f.ty) rest stop) :
      Placed sizeOf start (f :: rest) stop

namespace Placed

variable {start stop : Nat} {fields : List Field}

theorem le (h : Placed sizeOf start fields stop) : start ≤ stop := by
  induction h with
  | nil start => exact Nat.le_refl start
  | cons hle _ ih => omega

theorem within (h : Placed sizeOf start fields stop) :
    ∀ f ∈ fields, start ≤ f.offset ∧ f.offset + sizeOf f.ty ≤ stop := by
  induction h with
  | nil start => simp
  | cons hle hrest ih =>
    intro f hf
    rcases List.mem_cons.1 hf with rfl | hf
    · exact ⟨hle, hrest.le⟩
    · have hf := ih f hf
      omega

theorem ordered (h : Placed sizeOf start fields stop) :
    fields.Pairwise fun a b => a.offset + sizeOf a.ty ≤ b.offset := by
  induction h with
  | nil start => exact .nil
  | cons hle hrest ih => exact .cons (fun f hf => (hrest.within f hf).1) ih

theorem valid (h : Placed sizeOf start c.fields stop) (hstop : stop ≤ c.size) : c.Valid sizeOf := by
  constructor
  · refine h.ordered.imp fun {a b} hab => ?_
    exact Finset.Ico_disjoint_Ico_consecutive a.offset _ (b.offset + sizeOf b.ty) |>.mono_right
      (Finset.Ico_subset_Ico hab (Nat.le_refl _))
  · intro f hf
    exact Finset.Ico_subset_Ico (Nat.zero_le _) ((h.within f hf).2.trans hstop)

end Placed

/-- Fields between two offsets, each at the least multiple of its alignment that is not below the
end of the one before it. -/
inductive Row (sizeOf : Ty → Nat) : Nat → List Field → Nat → Prop
  | nil (start : Nat) : Row sizeOf start [] start
  | cons {start stop : Nat} {f : Field} {rest : List Field}
      (hoffset : Size.LeastMultiple (alignment (sizeOf f.ty)) start f.offset)
      (hrest : Row sizeOf (f.offset + sizeOf f.ty) rest stop) : Row sizeOf start (f :: rest) stop

theorem alignment_pos (n : Nat) : 0 < alignment n := by
  rw [alignment]
  omega

/-- Fields of any types and names can be put in a row. -/
theorem exists_row (sizeOf : Ty → Nat) (start : Nat) (fields : List (String × Ty)) :
    ∃ row stop, Row sizeOf start row stop ∧ row.map (fun f => (f.name, f.ty)) = fields := by
  induction fields generalizing start with
  | nil => exact ⟨[], start, .nil start, rfl⟩
  | cons field rest ih =>
    have hoffset := Size.LeastMultiple.roundUp start (alignment_pos (sizeOf field.2))
    obtain ⟨row, stop, hrow, hmap⟩ := ih (_ + sizeOf field.2)
    exact ⟨⟨field.1, field.2, _⟩ :: row, stop, .cons hoffset hrow, by rw [List.map_cons, hmap]⟩

namespace Row

variable {start stop : Nat} {fields : List Field}

theorem placed (h : Row sizeOf start fields stop) : Placed sizeOf start fields stop := by
  induction h with
  | nil start => exact .nil start
  | cons hoffset _ ih => exact .cons hoffset.le ih

/-- Placing fields gives their row, unless the row does not fit. -/
theorem place_eq (h : Row sizeOf start fields stop) (hstart : start < UInt32.size) :
    place sizeOf start (fields.map fun f => (f.name, f.ty)) =
      if stop < UInt32.size then .ok (fields, stop) else .error .overflow := by
  induction h with
  | nil start =>
    rw [if_pos hstart]
    rfl
  | @cons start stop f rest hoffset hrest ih =>
    have hle : f.offset + sizeOf f.ty ≤ stop := hrest.placed.le
    rw [List.map_cons, place, hoffset.alignTo_eq (alignment_pos _)]
    by_cases hnext : f.offset + sizeOf f.ty < UInt32.size
    · rw [Size.fit_eq_ok.2 ⟨(by omega : f.offset < UInt32.size), rfl⟩]
      show (Size.fit (f.offset + sizeOf f.ty) >>= _) = _
      rw [Size.fit_eq_ok.2 ⟨hnext, rfl⟩]
      show (place sizeOf (f.offset + sizeOf f.ty) _ >>= _) = _
      rw [ih hnext]
      split <;> rfl
    · -- the offset may not fit already, with the same outcome
      rw [if_neg (by omega), Size.fit]
      split
      · show (Size.fit (f.offset + sizeOf f.ty) >>= _) = _
        rw [Size.fit, if_neg hnext]
        rfl
      · rfl

end Row

/-- The largest alignment is the alignment of a field, unless there is none. -/
theorem maxAlignment_spec (sizeOf : Ty → Nat) (fields : List (String × Ty)) :
    (∀ f ∈ fields, alignment (sizeOf f.2) ≤ maxAlignment sizeOf fields) ∧
      (maxAlignment sizeOf fields = 1 ∨
        ∃ f ∈ fields, maxAlignment sizeOf fields = alignment (sizeOf f.2)) := by
  induction fields using List.reverseRecOn with
  | nil => simp [maxAlignment]
  | append_singleton fields field ih =>
    obtain ⟨hle, hattained⟩ := ih
    have hmax : maxAlignment sizeOf (fields ++ [field]) =
        max (maxAlignment sizeOf fields) (alignment (sizeOf field.2)) := by
      simp [maxAlignment]
    rw [hmax]
    constructor
    · intro f hf
      rcases List.mem_append.1 hf with hf | hf
      · exact (hle f hf).trans (Nat.le_max_left ..)
      · cases List.mem_singleton.1 hf
        exact Nat.le_max_right ..
    · rcases Nat.le_total (maxAlignment sizeOf fields) (alignment (sizeOf field.2)) with h | h
      · exact .inr ⟨field, by simp, Nat.max_eq_right h⟩
      · rw [Nat.max_eq_left h]
        exact hattained.imp_right fun ⟨f, hf, heq⟩ => ⟨f, by simp [hf], heq⟩

theorem maxAlignment_pos (sizeOf : Ty → Nat) (fields : List (String × Ty)) :
    0 < maxAlignment sizeOf fields := by
  rcases (maxAlignment_spec sizeOf fields).2 with hone | ⟨f, -, hf⟩
  · rw [hone]
    exact Nat.one_pos
  · rw [hf]
    exact alignment_pos _

/-- The fields of a class in a row from its start on, and its size rounded up from their end. -/
structure Filled (sizeOf : Ty → Nat) (c : Layout) (stop : Nat) : Prop where
  row : Row sizeOf 0 c.fields stop
  size : Size.LeastMultiple (maxAlignment sizeOf (c.fields.map fun f => (f.name, f.ty))) stop c.size

theorem exists_filled (sizeOf : Ty → Nat) (name : String) (fields : List (String × Ty)) :
    ∃ c stop, Filled sizeOf c stop ∧ c.name = name ∧
      c.fields.map (fun f => (f.name, f.ty)) = fields := by
  obtain ⟨row, stop, hrow, hmap⟩ := exists_row sizeOf 0 fields
  have hsize := Size.LeastMultiple.roundUp stop
    (maxAlignment_pos sizeOf (row.map fun f => (f.name, f.ty)))
  exact ⟨⟨name, row, _⟩, stop, ⟨hrow, hsize⟩, rfl, hmap⟩

/-- A class has its layout unless its size does not fit. -/
theorem Filled.compute_eq {stop : Nat} (h : Filled sizeOf c stop) :
    compute sizeOf c.name (c.fields.map fun f => (f.name, f.ty)) =
      if c.size < UInt32.size then .ok c else .error .overflow := by
  have hle := h.size.le
  rw [compute, h.row.place_eq (by decide)]
  by_cases hstop : stop < UInt32.size
  · rw [if_pos hstop]
    show (Size.alignTo stop _ >>= _) = _
    rw [h.size.alignTo_eq (maxAlignment_pos ..), Size.fit]
    split <;> rfl
  · rw [if_neg hstop, if_neg (by omega)]
    rfl

theorem Filled.valid {stop : Nat} (h : Filled sizeOf c stop) : c.Valid sizeOf :=
  h.row.placed.valid h.size.le

theorem filled_of_compute {name : String} {fields : List (String × Ty)}
    (h : compute sizeOf name fields = .ok c) :
    ∃ stop, Filled sizeOf c stop ∧ c.name = name ∧
      c.fields.map (fun f => (f.name, f.ty)) = fields := by
  obtain ⟨c', stop, hfilled, rfl, rfl⟩ := exists_filled sizeOf name fields
  rw [hfilled.compute_eq] at h
  split at h
  · cases h
    exact ⟨stop, hfilled, rfl, rfl⟩
  · cases h

theorem fields_of_compute {name : String} {fields : List (String × Ty)}
    (h : compute sizeOf name fields = .ok c) :
    c.name = name ∧ c.fields.map (fun f => (f.name, f.ty)) = fields := by
  obtain ⟨stop, -, hfields⟩ := filled_of_compute h
  exact hfields

/-- A layout is valid with the sizes that it was worked out from. -/
theorem valid_of_compute {name : String} {fields : List (String × Ty)}
    (h : compute sizeOf name fields = .ok c) : c.Valid sizeOf := by
  obtain ⟨stop, hfilled, -⟩ := filled_of_compute h
  exact hfilled.valid

/-- A layout stays valid when its fields shrink. -/
theorem Valid.mono (h : c.Valid sizeOf) (hle : ∀ f ∈ c.fields, sizeOf' f.ty ≤ sizeOf f.ty) :
    c.Valid sizeOf' := by
  have hsub (f : Field) (hf : f ∈ c.fields) : f.bytes sizeOf' ⊆ f.bytes sizeOf :=
    Finset.Ico_subset_Ico (Nat.le_refl _) (Nat.add_le_add_left (hle f hf) _)
  constructor
  · exact h.disjoint.imp_of_mem fun {a b} ha hb hab => hab.mono (hsub a ha) (hsub b hb)
  · exact fun f hf => (hsub f hf).trans (h.inside f hf)

end Layout

/-! ## Runs -/

namespace TypeTable

variable {t t' : TypeTable} {name : String}

/-- What a caller can ask of a type table. -/
inductive Call where
  | mention (ty : Ty)
  | declare (name : String) (fields : List (String × Ty))
deriving DecidableEq

/-- The table after a call, unless a size does not fit. -/
def Call.run (t : TypeTable) : Call → Except Fault TypeTable
  | mention ty => return t.intern ty
  | declare name fields => t.declare name fields

/-- The class that a call declares. -/
def Call.declared : Call → Option String
  | mention _ => none
  | declare name _ => some name

theorem classes_intern (t : TypeTable) (ty : Ty) : (t.intern ty).classes = t.classes := by
  rw [intern]
  split <;> rfl

/-- What a call does to the layouts: a declaration puts the layout of its class in, worked out from
the sizes known so far. -/
theorem Call.classes_run {call : Call} (h : call.run t = .ok t') :
    (call.declared = none ∧ t'.classes = t.classes) ∨
      ∃ name fields l, call = .declare name fields ∧ Layout.compute t.size name fields = .ok l ∧
        t'.classes = putLayout l t.classes := by
  cases call with
  | mention ty =>
    cases h
    exact .inl ⟨rfl, classes_intern t ty⟩
  | declare name fields =>
    obtain ⟨l, hl, h⟩ := bind_eq_ok.1 h
    cases h
    exact .inr ⟨name, fields, l, rfl, hl, classes_intern _ _⟩

theorem names_putLayout (l : Layout) (cs : List Layout) :
    (putLayout l cs).map Layout.name =
      if l.name ∈ cs.map Layout.name then cs.map Layout.name
      else cs.map Layout.name ++ [l.name] := by
  induction cs with
  | nil => simp [putLayout]
  | cons k rest ih =>
    by_cases hk : k.name = l.name
    · simp [putLayout, hk]
    · rw [putLayout, if_neg hk, List.map_cons, ih]
      simp only [List.map_cons, List.mem_cons, Ne.symm hk, false_or]
      split <;> simp

/-- Of classes with different names, those with another name stay. -/
theorem mem_putLayout {l : Layout} {cs : List Layout} (hnodup : (cs.map Layout.name).Nodup)
    (hc : c ∈ putLayout l cs) : c = l ∨ (c ∈ cs ∧ c.name ≠ l.name) := by
  induction cs with
  | nil => exact .inl (List.mem_singleton.1 hc)
  | cons k rest ih =>
    rw [List.map_cons, List.nodup_cons] at hnodup
    rw [putLayout] at hc
    split at hc
    · rename_i hk
      rcases List.mem_cons.1 hc with hc | hc
      · exact .inl hc
      · exact .inr ⟨List.mem_cons_of_mem _ hc, fun heq => hnodup.1
          (hk ▸ heq ▸ List.mem_map_of_mem hc)⟩
    · rename_i hk
      rcases List.mem_cons.1 hc with rfl | hc
      · exact .inr ⟨by simp, hk⟩
      · rcases ih hnodup.2 hc with hc | ⟨hc, hne⟩
        · exact .inl hc
        · exact .inr ⟨by simp [hc], hne⟩

/-- The layouts of a table after some calls. Their classes are different, and each was worked out by
the last call that declares its class, from the sizes of the table before that call. -/
structure Dated (calls : List Call) (t : TypeTable) : Prop where
  nodup : (t.classes.map Layout.name).Nodup
  declared : ∀ c ∈ t.classes, ∃ before fields after t₀,
    calls = before ++ .declare c.name fields :: after ∧
    (∀ call ∈ after, call.declared ≠ some c.name) ∧ before.foldlM Call.run {} = .ok t₀ ∧
    Layout.compute t₀.size c.name fields = .ok c

/-- What one call keeps. -/
theorem Dated.call {calls : List Call} {call : Call} (h : Dated calls t)
    (ht : calls.foldlM Call.run {} = .ok t) (hrun : call.run t = .ok t') :
    Dated (calls ++ [call]) t' := by
  rcases Call.classes_run hrun with ⟨hnone, hclasses⟩ | ⟨name, fields, l, rfl, hl, hclasses⟩
  · refine ⟨hclasses ▸ h.nodup, fun c hc => ?_⟩
    obtain ⟨before, fields, after, t₀, rfl, hafter, hrest⟩ := h.declared c (hclasses ▸ hc)
    refine ⟨before, fields, after ++ [call], t₀, by simp, ?_, hrest⟩
    simpa [or_imp, forall_and, hnone] using hafter
  · obtain ⟨hname, -⟩ := Layout.fields_of_compute hl
    constructor
    · rw [hclasses, names_putLayout]
      split
      · exact h.nodup
      · rename_i hnot
        simpa using h.nodup.concat hnot
    · intro c hc
      rcases mem_putLayout h.nodup (hclasses ▸ hc) with rfl | ⟨hc, hne⟩
      · subst hname
        exact ⟨calls, fields, [], t, rfl, by simp, ht, hl⟩
      · obtain ⟨before, fields', after, t₀, rfl, hafter, hrest⟩ := h.declared c hc
        refine ⟨before, fields', after ++ [.declare name fields], t₀, by simp, ?_, hrest⟩
        have hother : name ≠ c.name := fun heq => hne (heq.symm.trans hname.symm)
        simpa [or_imp, forall_and, Call.declared, hother] using hafter

/-- The layouts after a run. -/
theorem Dated.run {calls : List Call} (h : calls.foldlM Call.run {} = .ok t) : Dated calls t := by
  induction calls using List.reverseRecOn generalizing t with
  | nil =>
    cases h
    exact ⟨.nil, by simp⟩
  | append_singleton calls call ih =>
    rw [List.foldlM_append] at h
    obtain ⟨t₁, h₁, h⟩ := bind_eq_ok.1 h
    exact (ih h₁).call h₁ (by simpa using h)

theorem layout?_putLayout {l : Layout} (hne : l.name ≠ name) (cs : List Layout) :
    (putLayout l cs).find? (fun c => c.name = name) = cs.find? fun c => c.name = name := by
  induction cs with
  | nil => simp [putLayout, hne]
  | cons k rest ih =>
    rw [putLayout]
    split
    · rename_i hk
      have hkn : k.name ≠ name := hk ▸ hne
      simp [hne, hkn]
    · simp only [List.find?_cons, ih]

/-- A run changes the size of a type only when it declares the class that the type is. -/
theorem size_run {calls : List Call} {ty : Ty} (h : calls.foldlM Call.run t = .ok t')
    (hty : ∀ name, ty = .cls name → ∀ call ∈ calls, call.declared ≠ some name) :
    t'.size ty = t.size ty := by
  induction calls generalizing t with
  | nil =>
    cases h
    rfl
  | cons call rest ih =>
    obtain ⟨t₁, h₁, h⟩ := bind_eq_ok.1 h
    rw [ih h fun name hname call hcall => hty name hname call (List.mem_cons_of_mem _ hcall)]
    obtain ⟨layers, base⟩ := ty
    cases layers with
    | succ layers => simp [size]
    | zero =>
      cases base with
      | void | label | int bits => simp [size, baseSize]
      | cls name =>
        have hcall := hty name rfl call (by simp)
        have hfind : t₁.layout? name = t.layout? name := by
          rw [layout?, layout?]
          rcases Call.classes_run h₁ with ⟨-, hclasses⟩ | ⟨other, fields, l, rfl, hl, hclasses⟩
          · rw [hclasses]
          · rw [hclasses, layout?_putLayout]
            rw [(Layout.fields_of_compute hl).1]
            exact fun heq => hcall (congrArg some heq)
        simp [size, baseSize, hfind]

/-- Each layout of a table is the one that the last declaration of its class computed, and is valid
with the sizes that types had then. It is valid with the sizes that they have now if no field has
outgrown its size then, so in particular if no class that a field holds by value has been declared
since, the class itself included. -/
theorem run_layouts_valid {calls : List Call} (h : calls.foldlM Call.run {} = .ok t)
    (hc : c ∈ t.classes) :
    ∃ before fields after t₀, calls = before ++ .declare c.name fields :: after ∧
      (∀ call ∈ after, call.declared ≠ some c.name) ∧ before.foldlM Call.run {} = .ok t₀ ∧
      Layout.compute t₀.size c.name fields = .ok c ∧
      c.fields.map (fun f => (f.name, f.ty)) = fields ∧ c.Valid t₀.size ∧
      ((∀ f ∈ c.fields, t.size f.ty ≤ t₀.size f.ty) → c.Valid t.size) ∧
      ((∀ f ∈ c.fields, ∀ name, f.ty = .cls name →
        ∀ call ∈ .declare c.name fields :: after, call.declared ≠ some name) → c.Valid t.size) := by
  obtain ⟨before, fields, after, t₀, rfl, hafter, h₀, hcompute⟩ := (Dated.run h).declared c hc
  have hvalid := Layout.valid_of_compute hcompute
  rw [List.foldlM_append] at h
  obtain ⟨t₁, h₁, h⟩ := bind_eq_ok.1 h
  cases h₀.symm.trans h₁
  refine ⟨before, fields, after, t₀, rfl, hafter, h₀, hcompute,
    (Layout.fields_of_compute hcompute).2, hvalid, hvalid.mono,
    fun hstays => hvalid.mono fun f hf => ?_⟩
  exact Nat.le_of_eq (size_run h (hstays f hf))

/-- A run that meets no fault leads to the table that it is read off as. -/
theorem run_eq_ok {calls : List Call} (h : (calls.foldlM Call.run {}).toOption.isSome = true) :
    calls.foldlM Call.run {} = .ok ((calls.foldlM Call.run {}).toOption.getD {}) := by
  cases hrun : calls.foldlM Call.run {} with
  | ok t => rfl
  | error e =>
    rw [hrun] at h
    cases h

/-- Calls that declare a class inside another one, and then again with fewer fields. -/
def shrinkCalls : List Call := [
  .declare "P" [("tag", .int 8), ("count", .i32)],
  .declare "Q" [("head", .cls "P"), ("flag", .int 8), ("next", (Ty.cls "Q").ptr)],
  .mention .bool, .declare "P" [("count", .i32)]]

/-- The table that `shrinkCalls` lead to. -/
def shrinkTable : TypeTable := (shrinkCalls.foldlM Call.run {}).toOption.getD {}

/-- The layout of the outer class. -/
def shrinkLayout : Layout :=
  ⟨"Q", [⟨"head", .cls "P", 0⟩, ⟨"flag", .int 8, 8⟩, ⟨"next", (Ty.cls "Q").ptr, 12⟩], 16⟩

/-- The outer class keeps the eight bytes of the inner one, of which four are left. -/
theorem run_layouts_valid_shrink :
    shrinkCalls.foldlM Call.run {} = .ok shrinkTable ∧ shrinkLayout ∈ shrinkTable.classes ∧
      shrinkTable.size (.cls "P") = 4 ∧ shrinkLayout.Valid shrinkTable.size := by
  have hrun : shrinkCalls.foldlM Call.run {} = .ok shrinkTable := run_eq_ok (by decide +kernel)
  have hmem : shrinkLayout ∈ shrinkTable.classes := by decide +kernel
  refine ⟨hrun, hmem, by decide +kernel, ?_⟩
  obtain ⟨before, fields, after, t₀, hcalls, -, h₀, -, -, -, hgrown, -⟩ :=
    run_layouts_valid hrun hmem
  refine hgrown ?_
  -- the class is declared by the second call and no other
  have hbefore : before = shrinkCalls.take 1 := by
    rcases before with _ | ⟨a, _ | ⟨b, _ | ⟨c, _ | ⟨d, before⟩⟩⟩⟩ <;>
      simp_all [shrinkCalls, shrinkLayout]
  subst hbefore
  cases h₀
  decide +kernel

/-- Calls that declare a class after it was embedded in another one. -/
def outgrownCalls : List Call := [
  .declare "A" [("b", .cls "B"), ("n", .i32)], .declare "B" [("x", .i32), ("y", .i32)]]

/-- The table that `outgrownCalls` lead to. -/
def outgrownTable : TypeTable := (outgrownCalls.foldlM Call.run {}).toOption.getD {}

/-- A class that was not declared takes no bytes, so the field after it starts where it starts. Once
it is declared the two overlap, and it reaches out of the class that holds it. -/
theorem run_layout_outgrown :
    outgrownCalls.foldlM Call.run {} = .ok outgrownTable ∧
      ∃ c ∈ outgrownTable.classes, ¬ c.Valid outgrownTable.size ∧
        (¬ c.fields.Pairwise fun a b =>
          Disjoint (a.bytes outgrownTable.size) (b.bytes outgrownTable.size)) ∧
        ¬ ∀ f ∈ c.fields, f.bytes outgrownTable.size ⊆ Finset.Ico 0 c.size := by
  have hinside : ¬ ∀ f ∈ [(⟨"b", .cls "B", 0⟩ : Field), ⟨"n", .i32, 0⟩],
      f.bytes outgrownTable.size ⊆ Finset.Ico 0 4 := by decide +kernel
  refine ⟨run_eq_ok (by decide +kernel), ⟨"A", [⟨"b", .cls "B", 0⟩, ⟨"n", .i32, 0⟩], 4⟩,
    by decide +kernel, fun hvalid => hinside hvalid.inside, by decide +kernel, hinside⟩

end TypeTable

end SsaCodegen
