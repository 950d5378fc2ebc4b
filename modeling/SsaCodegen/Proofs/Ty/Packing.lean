import SsaCodegen.Proofs.Ty.Layout

/-!
# Class layouts are tight

The layout of a class is determined by the sizes of its fields. Each field stands at the least
multiple of its alignment that is not below the end of the field before it, and the class ends at
the least multiple of the largest alignment that is not below the end of the last field. So what
comes after a field has no influence on where it stands.

## Main definitions

* `Layout.Tight` — the offsets of all fields of a class and its size are the least that they can be

## Main results

* `Layout.Filled.tight` — a class with its fields in a row is tight
* `Layout.Row.offset_eq` — an offset depends on the sizes of the fields up to it
* `Layout.compute_tight` — the layout of a class
-/

namespace SsaCodegen

namespace Layout

variable {sizeOf sizeOf' : Ty → Nat} {start stop stop' k : Nat} {fields fields' : List Field}

/-- Where the last of some fields ends, or zero if there is none. -/
def endOf (sizeOf : Ty → Nat) (fields : List Field) : Nat :=
  (fields.getLast?.map fun f => f.offset + sizeOf f.ty).getD 0

/-- Each field stands at the least multiple of its alignment that is not below the end of the field
before it, and the class ends at the least multiple of the largest alignment that is not below the
end of the last field. An alignment is a size, but at least one and at most four. -/
structure Tight (sizeOf : Ty → Nat) (c : Layout) : Prop where
  offset : ∀ {front f back}, c.fields = front ++ f :: back →
    Size.LeastMultiple (max 1 (min (sizeOf f.ty) 4)) (endOf sizeOf front) f.offset
  size : ∃ align, (∀ f ∈ c.fields, max 1 (min (sizeOf f.ty) 4) ≤ align) ∧
    (c.fields = [] ∧ align = 1 ∨ ∃ f ∈ c.fields, align = max 1 (min (sizeOf f.ty) 4)) ∧
    Size.LeastMultiple align (endOf sizeOf c.fields) c.size

/-! ## Rows of fields -/

namespace Row

/-- A row ends where its last field ends. -/
theorem stop_eq (h : Row sizeOf start fields stop) :
    stop = (fields.getLast?.map fun f => f.offset + sizeOf f.ty).getD start := by
  induction h with
  | nil start => rfl
  | @cons start stop f rest _ _ ih => simp [ih, List.getLast?_cons]

/-- What stands in front of a field of a row is a row, and the field is next to its end. -/
theorem exists_front {front back : List Field} {f : Field}
    (h : Row sizeOf start (front ++ f :: back) stop) :
    ∃ mid, Row sizeOf start front mid ∧
      Size.LeastMultiple (alignment (sizeOf f.ty)) mid f.offset := by
  induction front generalizing start with
  | nil =>
    cases h with
    | cons hoffset _ => exact ⟨start, .nil start, hoffset⟩
  | cons g front ih =>
    cases h with
    | cons hoffset hrest =>
      obtain ⟨mid, hmid, hf⟩ := ih hrest
      exact ⟨mid, .cons hoffset hmid, hf⟩

/-- Where a field of a row stands depends on the sizes of the fields up to it. -/
theorem offset_eq (h : Row sizeOf start fields stop) (h' : Row sizeOf' start fields' stop')
    (hsizes : (fields.take (k + 1)).map (fun f => sizeOf f.ty) =
      (fields'.take (k + 1)).map fun f => sizeOf' f.ty) :
    fields[k]?.map Field.offset = fields'[k]?.map Field.offset := by
  induction h generalizing fields' k with
  | nil start =>
    cases h' with
    | nil => rfl
    | cons _ _ => simp at hsizes
  | @cons start stop f rest hoffset hrest ih =>
    cases h' with
    | nil => simp at hsizes
    | @cons _ _ f' rest' hoffset' hrest' =>
      simp only [List.take_succ_cons, List.map_cons, List.cons.injEq] at hsizes
      obtain ⟨hsize, hsizes⟩ := hsizes
      have hoff : f.offset = f'.offset := hoffset.unique (hsize ▸ hoffset')
      cases k with
      | zero => simp [hoff]
      | succ k =>
        rw [← hoff, ← hsize] at hrest'
        exact ih hrest' hsizes

end Row

/-! ## Whole classes -/

theorem Filled.tight {c : Layout} (h : Filled sizeOf c stop) : c.Tight sizeOf := by
  constructor
  · intro front f back heq
    obtain ⟨mid, hmid, hf⟩ := (heq ▸ h.row).exists_front
    rw [endOf, ← hmid.stop_eq]
    exact hf
  · obtain ⟨hle, hattained⟩ := maxAlignment_spec sizeOf (c.fields.map fun f => (f.name, f.ty))
    have hle (f : Field) (hf : f ∈ c.fields) := hle _ (List.mem_map_of_mem hf)
    refine ⟨_, hle, ?_, by rw [endOf, ← h.row.stop_eq]; exact h.size⟩
    rcases hattained with hone | ⟨field, hfield, halign⟩
    · -- if no alignment is above one, every field has it
      cases hfields : c.fields with
      | nil => exact .inl ⟨rfl, rfl⟩
      | cons f rest =>
        have hf := hle f (by simp [hfields])
        have hpos := alignment_pos (sizeOf f.ty)
        rw [← hfields]
        exact .inr ⟨f, by simp [hfields], Nat.le_antisymm (hone.trans_le hpos) hf⟩
    · obtain ⟨f, hf, rfl⟩ := List.mem_map.1 hfield
      exact .inr ⟨f, hf, halign⟩

/-- The layout of a class, whatever the sizes that the types of its fields have in a table. It has
the fields in the order of their declaration, is tight, and so without overlap. It is given out if
its size fits 32 bits, and the class is refused if not. Where a field stands is settled by the sizes
of the fields up to it: any other class with fields of these sizes has it at the same offset. -/
theorem compute_tight (t : TypeTable) (name : String) (fields : List (String × Ty)) :
    ∃ c : Layout,
      compute t.size name fields = (if c.size < UInt32.size then .ok c else .error .overflow) ∧
      c.name = name ∧ c.fields.map (fun f => (f.name, f.ty)) = fields ∧ c.Tight t.size ∧
      (c.fields.Pairwise fun a b => a.offset + t.size a.ty ≤ b.offset) ∧ c.Valid t.size ∧
      ∀ (t' : TypeTable) (name' : String) (fields' : List (String × Ty)) (c' : Layout) (k : Nat),
        compute t'.size name' fields' = .ok c' →
        (fields'.take (k + 1)).map (fun f => t'.size f.2) =
          (fields.take (k + 1)).map (fun f => t.size f.2) →
        c'.offset k = c.offset k := by
  obtain ⟨c, stop, h, rfl, rfl⟩ := exists_filled t.size name fields
  refine ⟨c, h.compute_eq, rfl, rfl, h.tight, h.row.placed.ordered, h.valid, ?_⟩
  intro t' name' fields' c' k hc' hsizes
  obtain ⟨stop', h', -, rfl⟩ := filled_of_compute hc'
  rw [← List.map_take, ← List.map_take, List.map_map, List.map_map] at hsizes
  exact h'.row.offset_eq h.row hsizes

/-- A table with a class of three bytes. -/
def oddTable : TypeTable where
  types := #[.int 8, .cls "Rgb"]
  classes := [⟨"Rgb", [⟨"r", .int 8, 0⟩, ⟨"g", .int 8, 1⟩, ⟨"b", .int 8, 2⟩], 3⟩]

/-- Fields of three, no, five and two bytes, and others of which the first three take as many. -/
theorem compute_tight_odd :
    ∃ c, compute oddTable.size "Odd"
        [("color", .cls "Rgb"), ("unit", .void), ("wide", .int 40), ("half", .int 16)] = .ok c ∧
      c.fields.map Field.offset = [0, 3, 4, 10] ∧ c.size = 12 ∧ c.Tight oddTable.size ∧
      ∀ c', compute ({} : TypeTable).size "Other"
          [("three", .int 24), ("gone", .cls "Rgb"), ("five", .int 33), ("ptr", Ty.i32.ptr)] =
            .ok c' → c'.offset 2 = some 4 := by
  obtain ⟨c, hc, -, -, htight, -, -, hoffset⟩ := compute_tight oddTable "Odd"
    [("color", .cls "Rgb"), ("unit", .void), ("wide", .int 40), ("half", .int 16)]
  have heval : (compute oddTable.size "Odd"
      [("color", .cls "Rgb"), ("unit", .void), ("wide", .int 40), ("half", .int 16)]).toOption.map
        (fun c => (c.fields.map Field.offset, c.size, c.offset 2)) =
          some ([0, 3, 4, 10], 12, some 4) := by decide +kernel
  split at hc
  · rw [hc] at heval
    obtain ⟨hfields, hrest⟩ := Prod.mk.inj (Option.some.inj heval)
    obtain ⟨hsize, htwo⟩ := Prod.mk.inj hrest
    refine ⟨c, hc, hfields, hsize, htight, fun c' hc' => ?_⟩
    exact (hoffset {} _ _ c' 2 hc' (by decide +kernel)).trans htwo
  · rw [hc] at heval
    cases heval

end Layout

end SsaCodegen
