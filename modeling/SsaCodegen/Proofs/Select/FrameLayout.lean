import SsaCodegen.Proofs.Flow.Order
import SsaCodegen.Proofs.Module.Verdict
import SsaCodegen.Proofs.Ty.Layout
import SsaCodegen.Select.Frame

/-!
# Frame layout

The frame of a function holds the stack arguments of its calls and then its variables, each at the
next multiple of its alignment. How many bytes that takes can be said without regard to 32 bits. If
the bytes fit, then so does every offset on the way to them and the function has a frame, in which
no two variables have a byte in common; if they do not, the frame is refused.

## Main definitions

* `Frame.extent` — the bytes that the stack arguments and variables of a function take
* `Frame.Stacked` — variables one above the other
* `Frame.Packed` — the stack arguments and variables of a function are in a frame without overlap

## Main results

* `Frame.place_stacked` — variables are placed one above the other
* `Frame.compute_packed` — when a function has a frame, and what its frame looks like
-/

namespace SsaCodegen

variable {m : Module} {f : FuncId} {regArgs word low offset stop : Nat} {v v' : ValueId}

/-- The instructions of some blocks with what they are. -/
def Module.listing (m : Module) (bs : List BlockId) : List (ValueId × Value) :=
  (bs.flatMap m.instsOf).filterMap fun v => m.values[v.idx]?.map fun x => (v, x)

theorem Module.mem_listing {bs : List BlockId} {x : Value} :
    (v, x) ∈ m.listing bs ↔ (∃ b ∈ bs, v ∈ m.instsOf b) ∧ m.values[v.idx]? = some x := by
  simp [listing, List.mem_filterMap]

/-- An instruction of a function that makes a variable of a type. -/
def Module.HasLocal (m : Module) (f : FuncId) (v : ValueId) (ty : Ty) : Prop :=
  (∃ b ∈ m.blocksOf f, v ∈ m.instsOf b) ∧ m.kindOf v = some (.inst (.alloca ty))

namespace Frame

/-- The variables of a function. -/
def localsOf (m : Module) (f : FuncId) : List (ValueId × Ty) := locals (m.listing (m.blocksOf f))

theorem mem_localsOf {ty : Ty} : (v, ty) ∈ localsOf m f ↔ m.HasLocal f v ty := by
  have hslot {k : ValueKind} : slotType k = some ty ↔ k = .inst (.alloca ty) := by
    unfold slotType
    split <;> simp_all
  constructor
  · intro h
    obtain ⟨⟨w, x⟩, hx, hty⟩ := List.mem_filterMap.1 h
    obtain ⟨ty', hty', heq⟩ := Option.map_eq_some_iff.1 hty
    cases heq
    obtain ⟨hlisted, hx⟩ := Module.mem_listing.1 hx
    exact ⟨hlisted, Module.kindOf_eq_some.2 ⟨x, hx, hslot.1 hty'⟩⟩
  · rintro ⟨hlisted, hk⟩
    obtain ⟨x, hx, hk⟩ := Module.kindOf_eq_some.1 hk
    exact List.mem_filterMap.2 ⟨(v, x), Module.mem_listing.2 ⟨hlisted, hx⟩,
      Option.map_eq_some_iff.2 ⟨ty, hslot.2 hk, rfl⟩⟩

/-! ## Bytes that are needed -/

/-- The bytes that the stack arguments of an instruction take, whether or not they fit. -/
def argBytes (regArgs word : Nat) (x : Value) : Nat :=
  match x.kind with
  | .inst (.call _) => (x.operands.length - regArgs) * word
  | _ => 0

/-- The most bytes that the stack arguments of any of some instructions take. -/
def demand (regArgs word : Nat) : List Value → Nat
  | [] => 0
  | x :: rest => max (argBytes regArgs word x) (demand regArgs word rest)

/-- Where variables end that are placed one after the other from `offset` on. -/
def row (types : TypeTable) (word offset : Nat) : List (ValueId × Ty) → Nat
  | [] => offset
  | (_, ty) :: rest =>
    let size := max 1 (types.size ty)
    let align := min size word
    row types word ((offset + align - 1) / align * align + size) rest

/-- The bytes that the stack arguments of the calls of a function take at most. -/
def argArea (m : Module) (f : FuncId) (regArgs word : Nat) : Nat :=
  demand regArgs word ((m.listing (m.blocksOf f)).map Prod.snd)

/-- The bytes that the stack arguments and the variables of a function take. -/
def extent (m : Module) (f : FuncId) (regArgs word : Nat) : Nat :=
  row m.types word (argArea m f regArgs word) (localsOf m f)

theorem le_row (types : TypeTable) (hword : 0 < word) (offset : Nat) (vars : List (ValueId × Ty)) :
    offset ≤ row types word offset vars := by
  induction vars generalizing offset with
  | nil => exact Nat.le_refl _
  | cons q rest ih =>
    have halign : 0 < min (max 1 (types.size q.2)) word := by omega
    exact ((Size.le_roundUp offset halign).trans (Nat.le_add_right ..)).trans (ih _)

theorem argBytes_le_demand {xs : List Value} {x : Value} (hx : x ∈ xs) :
    argBytes regArgs word x ≤ demand regArgs word xs := by
  induction xs with
  | nil => cases hx
  | cons y rest ih =>
    rcases List.mem_cons.1 hx with rfl | hx
    · exact Nat.le_max_left ..
    · exact (ih hx).trans (Nat.le_max_right ..)

theorem demand_attained (regArgs word : Nat) (xs : List Value) :
    demand regArgs word xs = 0 ∨ ∃ x ∈ xs, demand regArgs word xs = argBytes regArgs word x := by
  induction xs with
  | nil => exact .inl rfl
  | cons x rest ih =>
    rcases Nat.le_total (demand regArgs word rest) (argBytes regArgs word x) with h | h
    · exact .inr ⟨x, by simp, Nat.max_eq_left h⟩
    · rw [demand, Nat.max_eq_right h]
      exact ih.imp_right fun ⟨y, hy, heq⟩ => ⟨y, by simp [hy], heq⟩

/-! ## Surveys -/

theorem ok_bind (a : α) (k : α → Except Fault β) : (Except.ok a >>= k) = k a := rfl

theorem fit_of_lt {n : Nat} (h : n < UInt32.size) : Size.fit n = .ok n := if_pos h

theorem fit_of_le {n : Nat} (h : UInt32.size ≤ n) : Size.fit n = .error .overflow :=
  if_neg (Nat.not_lt.2 h)

theorem stackArgBytes_eq (regArgs word : Nat) (x : Value) :
    stackArgBytes regArgs word x = Size.fit (argBytes regArgs word x) := by
  unfold stackArgBytes argBytes
  generalize x.kind = kind
  cases kind with
  | inst k => cases k <;> rfl
  | _ => rfl

/-- The larger of two byte counts fits if both do. -/
theorem fit_max (a b : Nat) (k : Nat → Except Fault α) :
    (Size.fit a >>= fun a' => Size.fit b >>= fun b' => k (max a' b')) =
      Size.fit (max a b) >>= k := by
  by_cases ha : a < UInt32.size
  · by_cases hb : b < UInt32.size
    · have hmax : max a b < UInt32.size := Nat.max_lt.2 ⟨ha, hb⟩
      simp only [Size.fit, if_pos ha, if_pos hb, if_pos hmax]
      rfl
    · have hmax : ¬ max a b < UInt32.size := fun h => hb (Nat.max_lt.1 h).2
      simp only [Size.fit, if_pos ha, if_neg hb, if_neg hmax]
      rfl
  · have hmax : ¬ max a b < UInt32.size := fun h => ha (Nat.max_lt.1 h).1
    simp only [Size.fit, if_neg ha, if_neg hmax]
    rfl

theorem outgoingBytes_eq (regArgs word : Nat) (xs : List Value) :
    outgoingBytes regArgs word xs = Size.fit (demand regArgs word xs) := by
  induction xs with
  | nil => rfl
  | cons x rest ih =>
    rw [outgoingBytes, demand, stackArgBytes_eq, ih]
    exact (fit_max _ _ pure).trans (bind_pure _)

theorem demand_append (regArgs word : Nat) (xs ys : List Value) :
    demand regArgs word (xs ++ ys) = max (demand regArgs word xs) (demand regArgs word ys) := by
  induction xs with
  | nil => exact (Nat.zero_max _).symm
  | cons x rest ih => rw [List.cons_append, demand, demand, ih, Nat.max_assoc]

/-- The values of instructions that a walk meets can be read. -/
theorem mapM_value {vs : List ValueId} (hvs : ∀ v ∈ vs, v.idx < m.values.size) :
    (vs.mapM fun v => do return (v, ← m.value v)) =
      .ok (vs.filterMap fun v => m.values[v.idx]?.map fun x => (v, x)) := by
  induction vs with
  | nil => rfl
  | cons v rest ih =>
    obtain ⟨hv, hrest⟩ := List.forall_mem_cons.1 hvs
    have hx : m.values[v.idx]? = some m.values[v.idx] := Array.getElem?_eq_getElem hv
    rw [List.mapM_cons, ih hrest, List.filterMap_cons, Module.value, hx]
    rfl

/-- A survey of blocks that can be walked along fails only for want of bytes. -/
theorem survey_eq {bs : List BlockId} (hbs : ∀ b ∈ bs, ∃ l, m.insts b = .ok l) :
    survey m regArgs word bs =
      Size.fit (demand regArgs word ((m.listing bs).map Prod.snd)) >>= fun n =>
        .ok (n, m.listing bs) := by
  induction bs with
  | nil => rfl
  | cons b rest ih =>
    obtain ⟨⟨l, hl⟩, hrest⟩ := List.forall_mem_cons.1 hbs
    have hlist : m.instsOf b = l := by rw [Module.instsOf, hl]; rfl
    obtain ⟨c, hc, hl⟩ := bind_eq_ok.1 hl
    obtain ⟨_, hcheck, hl⟩ := bind_eq_ok.1 hl
    cases hl
    have hlt : ∀ v ∈ c.insts, v.idx < m.values.size := by
      obtain ⟨x, -, hwalk⟩ := bind_eq_ok.1 hc
      cases hwalk
      exact fun v => Module.lt_of_mem_walk
    have hlisting : m.listing (b :: rest) = m.listing [b] ++ m.listing rest := by
      simp [Module.listing, hlist]
    have hhere : (c.insts.mapM fun v => do return (v, ← m.value v)) = .ok (m.listing [b]) := by
      rw [mapM_value hlt, Module.listing, List.flatMap_singleton, hlist]
    rw [hlisting, List.map_append, demand_append]
    refine Eq.trans ?_ (fit_max _ _ fun n => .ok (n, m.listing [b] ++ m.listing rest))
    simp only [survey, hc, hhere, outgoingBytes_eq, hcheck, ih hrest, ok_bind, bind_assoc]
    rfl

/-! ## Variables -/

/-- Variables one above the other between two offsets, the highest first. -/
inductive Stacked (bytes : ValueId → Nat) (word low : Nat) : List (ValueId × Nat) → Nat → Prop
  | nil : Stacked bytes word low [] low
  | cons {slots : List (ValueId × Nat)} {stop start : Nat} {v : ValueId}
      (hrest : Stacked bytes word low slots stop) (hle : stop ≤ start)
      (hdvd : min (bytes v) word ∣ start) :
      Stacked bytes word low ((v, start) :: slots) (start + bytes v)

namespace Stacked

variable {bytes : ValueId → Nat} {slots : List (ValueId × Nat)} {start start' : Nat}

theorem le (h : Stacked bytes word low slots stop) : low ≤ stop := by
  induction h with
  | nil => exact Nat.le_refl _
  | cons hrest hle hdvd ih => omega

theorem within (h : Stacked bytes word low slots stop) (hv : (v, start) ∈ slots) :
    low ≤ start ∧ min (bytes v) word ∣ start ∧ start + bytes v ≤ stop := by
  induction h with
  | nil => cases hv
  | cons hrest hle hdvd ih =>
    rcases List.mem_cons.1 hv with heq | hv
    · cases heq
      exact ⟨hrest.le.trans hle, hdvd, Nat.le_refl _⟩
    · obtain ⟨hlow, hdvd, hstop⟩ := ih hv
      exact ⟨hlow, hdvd, by omega⟩

theorem apart (h : Stacked bytes word low slots stop) (hv : (v, start) ∈ slots)
    (hv' : (v', start') ∈ slots) (hne : v ≠ v') :
    start + bytes v ≤ start' ∨ start' + bytes v' ≤ start := by
  induction h with
  | nil => cases hv
  | cons hrest hle hdvd ih =>
    rcases List.mem_cons.1 hv with heq | hmem <;> rcases List.mem_cons.1 hv' with heq' | hmem'
    · cases heq
      cases heq'
      exact absurd rfl hne
    · cases heq
      exact .inr ((hrest.within hmem').2.2.trans hle)
    · cases heq'
      exact .inl ((hrest.within hmem).2.2.trans hle)
    · exact ih hmem hmem'

/-- What is between the offsets ends with a variable, if there is one. -/
theorem stop_eq (h : Stacked bytes word low slots stop) :
    (slots = [] ∧ stop = low) ∨
      ∃ v start rest, slots = (v, start) :: rest ∧ stop = start + bytes v := by
  cases h with
  | nil => exact .inl ⟨rfl, rfl⟩
  | cons hrest hle hdvd => exact .inr ⟨_, _, _, rfl, rfl⟩

end Stacked

/-- Variables whose last offset fits are placed one above the other. -/
theorem place_stacked {types : TypeTable} {bytes : ValueId → Nat} {vars : List (ValueId × Ty)}
    {slots : List (ValueId × Nat)} (hword : 0 < word)
    (hbytes : ∀ q ∈ vars, bytes q.1 = max 1 (types.size q.2))
    (hslots : Stacked bytes word low slots offset)
    (hfits : row types word offset vars < UInt32.size) :
    ∃ slots', place types word offset slots vars = .ok (slots', row types word offset vars) ∧
      Stacked bytes word low slots' (row types word offset vars) ∧
      ∀ w, w ∈ slots'.map Prod.fst ↔ w ∈ vars.map Prod.fst ∨ w ∈ slots.map Prod.fst := by
  induction vars generalizing offset slots with
  | nil => exact ⟨slots, rfl, hslots, by simp⟩
  | cons q rest ih =>
    obtain ⟨v, ty⟩ := q
    obtain ⟨hv, hrest⟩ := List.forall_mem_cons.1 hbytes
    have halign : 0 < min (max 1 (types.size ty)) word := by omega
    have hstop := (le_row types hword _ rest).trans_lt hfits
    have hstart := (Nat.le_add_right _ _).trans_lt hstop
    have halignTo := (Size.alignTo_eq offset halign).trans (fit_of_lt hstart)
    have hstacked := Stacked.cons (v := v) hslots (Size.le_of_alignTo halignTo) <| by
      rw [hv]
      exact Size.dvd_of_alignTo halignTo
    rw [hv] at hstacked
    obtain ⟨slots', hplace, hslots', hmem⟩ := ih hrest hstacked hfits
    refine ⟨slots', ?_, hslots', fun w => (hmem w).trans ?_⟩
    · exact bind_eq_ok.2 ⟨_, halignTo, bind_eq_ok.2 ⟨_, fit_of_lt hstop, hplace⟩⟩
    · simp only [List.map_cons, List.mem_cons]
      tauto

/-- Variables whose last offset does not fit are not placed. -/
theorem place_overflow {types : TypeTable} {vars : List (ValueId × Ty)}
    {slots : List (ValueId × Nat)} (hword : 0 < word) (hoffset : offset < UInt32.size)
    (hfits : UInt32.size ≤ row types word offset vars) :
    place types word offset slots vars = .error .overflow := by
  induction vars generalizing offset slots with
  | nil => exact absurd hoffset (Nat.not_lt.2 hfits)
  | cons q rest ih =>
    obtain ⟨v, ty⟩ := q
    have halign : 0 < min (max 1 (types.size ty)) word := by omega
    simp only [row] at hfits
    simp only [place, Size.alignTo_eq offset halign]
    generalize (offset + min (max 1 (types.size ty)) word - 1) /
      min (max 1 (types.size ty)) word * min (max 1 (types.size ty)) word = start at hfits ⊢
    rcases Nat.lt_or_ge start UInt32.size with hstart | hstart
    · rw [fit_of_lt hstart, ok_bind]
      rcases Nat.lt_or_ge (start + max 1 (types.size ty)) UInt32.size with hstop | hstop
      · rw [fit_of_lt hstop, ok_bind]
        exact ih hstop hfits
      · rw [fit_of_le hstop]
        rfl
    · rw [fit_of_le hstart]
      rfl

/-! ## Frames -/

/-- A frame that starts with room for the stack arguments of every call of a function, and no more,
and above them holds every variable of the function, aligned to its size or to a word. No two
variables overlap. The frame is rounded to 16 bytes. -/
structure Packed (m : Module) (f : FuncId) (regArgs word : Nat) (fr : Frame) : Prop where
  outgoing : ∀ b ∈ m.blocksOf f, ∀ v ∈ m.instsOf b, ∀ callee,
    m.kindOf v = some (.inst (.call callee)) →
      ((m.operandsOf v).length - regArgs) * word ≤ fr.outgoing
  needed : fr.outgoing = 0 ∨ ∃ b ∈ m.blocksOf f, ∃ v ∈ m.instsOf b, ∃ callee,
    m.kindOf v = some (.inst (.call callee)) ∧
      fr.outgoing = ((m.operandsOf v).length - regArgs) * word
  slot : ∀ {v ty}, m.HasLocal f v ty → ∃ start, fr.slotOffset? v = some start ∧
    fr.outgoing ≤ start ∧ min (max 1 (m.types.size ty)) word ∣ start ∧
    start + max 1 (m.types.size ty) ≤ fr.size
  disjoint : ∀ {v ty v' ty' start start'}, m.HasLocal f v ty → m.HasLocal f v' ty' → v ≠ v' →
    fr.slotOffset? v = some start → fr.slotOffset? v' = some start' →
      start + max 1 (m.types.size ty) ≤ start' ∨ start' + max 1 (m.types.size ty') ≤ start
  rounded : 16 ∣ fr.size
  outgoing_le : fr.outgoing ≤ fr.size
  tight : ((∀ v ty, ¬ m.HasLocal f v ty) ∧ fr.size < fr.outgoing + 16) ∨
    ∃ v ty start, m.HasLocal f v ty ∧ fr.slotOffset? v = some start ∧
      fr.size < start + max 1 (m.types.size ty) + 16

/-- The bytes that the variable of an instruction takes, and none for other instructions. -/
def slotBytes (m : Module) (v : ValueId) : Nat :=
  (((m.kindOf v).bind slotType).map fun ty => max 1 (m.types.size ty)).getD 0

theorem slotBytes_eq {ty : Ty} (h : m.HasLocal f v ty) :
    slotBytes m v = max 1 (m.types.size ty) := by
  rw [slotBytes, h.2]
  rfl

theorem argBytes_of_call {x : Value} {callee : FuncId} (hx : m.values[v.idx]? = some x)
    (hk : m.kindOf v = some (.inst (.call callee))) :
    argBytes regArgs word x = ((m.operandsOf v).length - regArgs) * word := by
  obtain ⟨x', hx', hk⟩ := Module.kindOf_eq_some.1 hk
  cases hx.symm.trans hx'
  rw [argBytes, hk, Module.operandsOf, Module.valueField_eq hx]

theorem call_of_argBytes {x : Value} (hx : m.values[v.idx]? = some x)
    (hpos : argBytes regArgs word x ≠ 0) :
    ∃ callee, m.kindOf v = some (.inst (.call callee)) := by
  unfold argBytes at hpos
  split at hpos
  · rename_i callee hk
    exact ⟨callee, Module.kindOf_eq_some.2 ⟨x, hx, hk⟩⟩
  · exact absurd rfl hpos

/-- A frame is packed if its variables are stacked above the bytes that calls need. -/
theorem packed_of_stacked {slots : List (ValueId × Nat)}
    (hslots : Stacked (slotBytes m) word (argArea m f regArgs word) slots stop)
    (hkeys : ∀ w, w ∈ slots.map Prod.fst ↔ w ∈ (localsOf m f).map Prod.fst) :
    Packed m f regArgs word ⟨(stop + 15) / 16 * 16, argArea m f regArgs word, slots⟩ := by
  have hmem {w : ValueId} {start : Nat} (h : slots.lookup w = some start) : (w, start) ∈ slots := by
    obtain ⟨before, after, rfl, -⟩ := List.lookup_eq_some_iff.1 h
    simp
  have hlocal {w : ValueId} (hw : w ∈ slots.map Prod.fst) : ∃ ty, m.HasLocal f w ty := by
    obtain ⟨⟨w', ty⟩, hty, rfl⟩ := List.mem_map.1 ((hkeys w).1 hw)
    exact ⟨ty, mem_localsOf.1 hty⟩
  have hstop := hslots.le
  refine ⟨?outgoing, ?needed, ?slot, ?disjoint, Nat.dvd_mul_left .., ?outgoing_le, ?tight⟩
  case outgoing =>
    intro b hb v hv callee hk
    obtain ⟨x, hx, -⟩ := Module.kindOf_eq_some.1 hk
    rw [← argBytes_of_call hx hk]
    exact argBytes_le_demand (List.mem_map_of_mem (Module.mem_listing.2 ⟨⟨b, hb, hv⟩, hx⟩))
  case needed =>
    rcases demand_attained regArgs word ((m.listing (m.blocksOf f)).map Prod.snd) with hzero | hx
    · exact .inl hzero
    · obtain ⟨x, hx, heq⟩ := hx
      obtain ⟨⟨v, x⟩, hvx, rfl⟩ := List.mem_map.1 hx
      obtain ⟨⟨b, hb, hv⟩, hx⟩ := Module.mem_listing.1 hvx
      by_cases hpos : argBytes regArgs word x = 0
      · exact .inl (heq.trans hpos)
      · obtain ⟨callee, hk⟩ := call_of_argBytes hx hpos
        exact .inr ⟨b, hb, v, hv, callee, hk, heq.trans (argBytes_of_call hx hk)⟩
  case slot =>
    intro v ty hv
    have hkey := (hkeys v).2 (List.mem_map_of_mem (mem_localsOf.2 hv))
    obtain ⟨q, hq, rfl⟩ := List.mem_map.1 hkey
    obtain ⟨start, hstart⟩ := Option.isSome_iff_exists.1
      (List.lookup_isSome_iff.2 ⟨q, hq, beq_self_eq_true _⟩)
    obtain ⟨hge, hdvd, hle⟩ := hslots.within (hmem hstart)
    rw [slotBytes_eq hv] at hdvd hle
    exact ⟨start, hstart, hge, hdvd, by dsimp only; omega⟩
  case disjoint =>
    intro v ty v' ty' start start' hv hv' hne hstart hstart'
    rw [← slotBytes_eq hv, ← slotBytes_eq hv']
    exact hslots.apart (hmem hstart) (hmem hstart') hne
  case outgoing_le =>
    dsimp only
    omega
  case tight =>
    rcases hslots.stop_eq with ⟨rfl, rfl⟩ | ⟨v, start, rest, rfl, rfl⟩
    · refine .inl ⟨fun v ty hv => ?_, by dsimp only; omega⟩
      cases (hkeys v).2 (List.mem_map_of_mem (mem_localsOf.2 hv))
    · obtain ⟨ty, hv⟩ := hlocal (List.mem_cons_self ..)
      refine .inr ⟨v, ty, start, hv, List.lookup_cons_self, ?_⟩
      rw [← slotBytes_eq hv]
      dsimp only
      omega

theorem compute_eq {y : Func} (hy : m.funcs[f.idx]? = some y)
    (hwalks : ∀ b ∈ y.blocks, ∃ l, m.insts b = .ok l) :
    compute m f regArgs word =
      Size.fit (argArea m f regArgs word) >>= fun outgoing =>
        place m.types word outgoing [] (localsOf m f) >>= fun r =>
          Size.fit (r.2 + 15) >>= fun size => .ok ⟨size / 16 * 16, outgoing, r.1⟩ := by
  rw [argArea, localsOf, Module.blocksOf_of_func hy]
  simp only [compute, Module.func, hy, lookupOr, ok_bind, survey_eq hwalks, bind_assoc]
  rfl

/-- A function whose blocks can be walked along has a packed frame if its stack arguments and
variables fit 32 bits, with the rounding to 16 bytes, and it is refused one if they do not. -/
theorem compute_packed {y : Func} (hword : 1 ≤ word) (hy : m.funcs[f.idx]? = some y)
    (hwalks : ∀ b ∈ y.blocks, ∃ l, m.insts b = .ok l) :
    (extent m f regArgs word + 15 < UInt32.size →
      ∃ fr, compute m f regArgs word = .ok fr ∧ fr.Packed m f regArgs word) ∧
    (UInt32.size ≤ extent m f regArgs word + 15 →
      compute m f regArgs word = .error .overflow) := by
  rw [compute_eq hy hwalks]
  have hle : argArea m f regArgs word ≤ extent m f regArgs word := le_row m.types hword _ _
  have hbytes : ∀ q ∈ localsOf m f, slotBytes m q.1 = max 1 (m.types.size q.2) :=
    fun q hq => slotBytes_eq (mem_localsOf.1 hq)
  constructor
  · intro hfits
    have hextent : extent m f regArgs word < UInt32.size := by omega
    obtain ⟨slots, hplace, hslots, hkeys⟩ := place_stacked hword hbytes .nil hextent
    refine ⟨_, ?_, packed_of_stacked hslots fun w => by simpa using hkeys w⟩
    rw [fit_of_lt (hle.trans_lt hextent), ok_bind, hplace, ok_bind]
    exact bind_eq_ok.2 ⟨_, fit_of_lt hfits, rfl⟩
  · intro hover
    rcases Nat.lt_or_ge (argArea m f regArgs word) UInt32.size with harea | harea
    · rw [fit_of_lt harea, ok_bind]
      rcases Nat.lt_or_ge (extent m f regArgs word) UInt32.size with hextent | hextent
      · obtain ⟨slots, hplace, -⟩ := place_stacked hword hbytes .nil hextent
        rw [hplace, ok_bind]
        exact congrArg (· >>= _) (fit_of_le hover)
      · rw [place_overflow hword harea hextent]
        rfl
    · rw [fit_of_le harea]
      rfl

/-- Calls that build a function with variables of one, three, no and nine bytes and a call with five
arguments. -/
def packActions : List Module.Action := [
  .declareClass "rgb" [("r", .int 8), ("g", .int 8), ("b", .int 8)], .declareClass "unit" [],
  .declareClass "pixel" [("depth", .int 16), ("color", .cls "rgb"), ("alpha", .int 8)],
  .addFunction "g" .void (List.replicate 5 ("x", .i32)), .addFunction "f" .void [],
  .addBlock ⟨1⟩ "entry", .build ⟨0⟩ (.alloca (.int 8)), .build ⟨0⟩ (.alloca (.cls "rgb")),
  .build ⟨0⟩ (.alloca (.cls "unit")), .build ⟨0⟩ (.alloca (.cls "pixel")), .build ⟨0⟩ (.i32 7),
  .build ⟨0⟩ (.call ⟨0⟩ (List.replicate 5 ⟨10⟩)), .build ⟨0⟩ (.ret none)]

/-- The module that `packActions` build. -/
def packModule : Module := (packActions.foldlM Module.Action.run {}).toOption.getD {}

/-- With two argument registers and words of three bytes. -/
theorem compute_packed_odd :
    extent packModule ⟨1⟩ 2 3 = 27 ∧ ∃ fr, compute packModule ⟨1⟩ 2 3 = .ok fr ∧
      fr.Packed packModule ⟨1⟩ 2 3 ∧ fr.size = 32 ∧ fr.outgoing = 9 ∧
      fr.slots = [(⟨9⟩, 18), (⟨8⟩, 15), (⟨7⟩, 12), (⟨6⟩, 9)] := by
  have hextent : extent packModule ⟨1⟩ 2 3 = 27 := by decide +kernel
  have hwalks : packModule.funcs[1]?.map (fun y => y.blocks.all fun b =>
      (packModule.insts b).toOption.isSome) = some true := by decide +kernel
  have hcompute : (compute packModule ⟨1⟩ 2 3).toOption.map
      (fun fr => (fr.size, fr.outgoing, fr.slots)) =
        some (32, 9, [(⟨9⟩, 18), (⟨8⟩, 15), (⟨7⟩, 12), (⟨6⟩, 9)]) := by decide +kernel
  obtain ⟨y, hy, hwalks⟩ := Option.map_eq_some_iff.1 hwalks
  have hwalk (b : BlockId) (hb : b ∈ y.blocks) : ∃ l, packModule.insts b = .ok l := by
    have hsome := List.all_eq_true.1 hwalks b hb
    cases hl : packModule.insts b with
    | ok l => exact ⟨l, rfl⟩
    | error e =>
      rw [hl] at hsome
      cases hsome
  have hword : 1 ≤ 3 := by decide
  obtain ⟨fr, hfr, hpacked⟩ := (compute_packed (f := ⟨1⟩) hword hy hwalk).1 (by
    rw [hextent]
    decide)
  rw [hfr] at hcompute
  obtain ⟨hsize, hrest⟩ := Prod.mk.inj (Option.some.inj hcompute)
  obtain ⟨houtgoing, hslots⟩ := Prod.mk.inj hrest
  exact ⟨hextent, fr, hfr, hpacked, hsize, houtgoing, hslots⟩

end Frame

end SsaCodegen
