import SsaCodegen.Proofs.Flow.Order
import SsaCodegen.Proofs.Semantics.Graph
import SsaCodegen.Select.Program

/-!
# The faults that selection may meet

Code generation looks things up all the time: operands by position, blocks by number, variables in
the frame. In a module that the verifier accepts nearly all of it is there, so that a computation
ends with a result, or refuses the program, or meets one of two faults. A byte count may not fit,
and in a program that is *astray* a place in a table may be missing. When a program is astray is
left open here.

The frame of a function is one of the tables. It has room for every variable and every argument.

## Main definitions

* `Ends` — a computation has a result of some kind or ends in an error that is excused
* `SelectM.Finishes` — the same of a computation that hands out registers
* `Frame.Roomy` — a frame has room for what the instructions of a function need

## Main results

* `Frame.compute_ends` — the frame of a function has room
-/

namespace SsaCodegen

variable {stray : Prop}

/-! ## Computations that end well or are excused -/

/-- The faults that are excused: a byte count does not fit, or the program is astray and a place in
a table is missing. -/
def Fault.Excused (stray : Prop) (e : Fault) : Prop := e = .overflow ∨ e = .outOfRange ∧ stray

/-- The ends of a selection that are excused: it refuses the program or meets an excused fault. -/
def Stop.Excused (stray : Prop) : Stop → Prop
  | .refused _ => True
  | .fault e => e.Excused stray

theorem Stop.Excused.mono {stray' : Prop} (h : stray → stray') {stop : Stop}
    (hstop : stop.Excused stray) : stop.Excused stray' := by
  cases stop with
  | refused e => trivial
  | fault e => exact Or.imp_right (And.imp_right h) hstop

/-- A computation has a result of which `P` holds, or it ends in an error that is excused. -/
structure Ends (excused : ε → Prop) (x : Except ε α) (P : α → Prop) : Prop where
  ok : ∀ {a}, x = .ok a → P a
  error : ∀ {e}, x = .error e → excused e

namespace Ends

variable {excused : ε → Prop} {x : Except ε α} {k : α → Except ε β} {P P' : α → Prop}
  {Q : β → Prop}

theorem of_ok {a : α} (h : x = .ok a) (hP : P a) : Ends excused x P where
  ok ha := by
    cases h.symm.trans ha
    exact hP
  error he := by cases h.symm.trans he

theorem of_error {e : ε} (h : x = .error e) (he : excused e) : Ends excused x P where
  ok ha := by cases h.symm.trans ha
  error he' := by
    cases h.symm.trans he'
    exact he

theorem pure {a : α} (h : P a) : Ends excused (Pure.pure a) P := of_ok rfl h

theorem mono (hx : Ends excused x P) (h : ∀ a, P a → P' a) : Ends excused x P' :=
  ⟨fun ha => h _ (hx.ok ha), hx.error⟩

/-- More errors are excused. -/
theorem weaken {excused' : ε → Prop} (hx : Ends excused x P) (h : ∀ e, excused e → excused' e) :
    Ends excused' x P :=
  ⟨hx.ok, fun he => h _ (hx.error he)⟩

theorem bind (hx : Ends excused x P) (hk : ∀ a, x = .ok a → P a → Ends excused (k a) Q) :
    Ends excused (x >>= k) Q := by
  cases hxa : x with
  | error e => exact .of_error rfl (hx.error hxa)
  | ok a => exact hk a hxa (hx.ok hxa)

/-- The first part of the computation is known to have a result. -/
theorem known {a : α} (h : x = .ok a) (hk : Ends excused (k a) Q) : Ends excused (x >>= k) Q :=
  (of_ok (P := fun b => b = a) h rfl).bind fun b _ hb => by
    rw [hb]
    exact hk

theorem mapM {l : List α} (hk : ∀ a ∈ l, Ends excused (k a) fun _ => True) :
    Ends excused (l.mapM k) fun _ => True := by
  induction l with
  | nil => exact .of_ok rfl trivial
  | cons a rest ih =>
    obtain ⟨ha, hrest⟩ := List.forall_mem_cons.1 hk
    rw [List.mapM_cons]
    exact ha.bind fun _ _ _ => (ih hrest).bind fun _ _ _ => .pure trivial

theorem fit {n : Nat} : Ends (Fault.Excused stray) (Size.fit n) (· = n) := by
  rw [Size.fit]
  split
  · exact .of_ok rfl rfl
  · exact .of_error rfl (.inl rfl)

theorem alignTo {n align : Nat} (halign : 0 < align) :
    Ends (Fault.Excused stray) (Size.alignTo n align) fun _ => True := by
  rw [Size.alignTo, if_neg (Nat.ne_of_gt halign)]
  exact fit.mono fun _ _ => trivial

/-- Something is looked up that is there unless the program is astray. -/
theorem lookup {o : Option α} (h : o = none → stray) :
    Ends (Fault.Excused stray) (lookupOr .outOfRange o) fun a => o = some a := by
  cases o with
  | none => exact .of_error rfl (.inr ⟨rfl, h rfl⟩)
  | some a => exact .of_ok rfl rfl

/-- A part of a selection that hands out no registers. -/
theorem lift {y : Except Fault α} (h : Ends (Fault.Excused stray) y P) :
    Ends (Stop.Excused stray) (liftM y : Except Stop α) P := by
  cases hy : y with
  | ok a => exact .of_ok rfl (h.ok hy)
  | error e => exact .of_error rfl (h.error hy)

/-- Something is looked up that is there, as a part of a selection. -/
theorem found {y : Except Fault α} {a : α} {k : α → Except Stop β} (h : y = .ok a)
    (hk : Ends (Stop.Excused stray) (k a) Q) : Ends (Stop.Excused stray) (liftM y >>= k) Q := by
  rw [h]
  exact hk

end Ends

namespace SelectM

/-- Whatever registers have been handed out, a computation has a result of which `P` holds, or it
refuses the program or meets an excused fault. -/
def Finishes (stray : Prop) (x : SelectM α) (P : α → Prop) : Prop :=
  ∀ s, Ends (Stop.Excused stray) (x s) fun q => P q.1

namespace Finishes

variable {x : SelectM α} {f : α → SelectM β} {P : α → Prop} {Q : β → Prop}

theorem pure {a : α} (h : P a) : Finishes stray (Pure.pure a) P := fun _ => .of_ok rfl h

theorem bind (hx : Finishes stray x P) (hf : ∀ a, P a → Finishes stray (f a) Q) :
    Finishes stray (x >>= f) Q := by
  intro s
  show Ends _ (x s >>= fun q => f q.1 q.2) _
  exact (hx s).bind fun q _ hq => hf q.1 hq q.2

theorem lift {y : Except Fault α} (h : Ends (Fault.Excused stray) y P) :
    Finishes stray (liftM y) P := by
  intro s
  cases hy : y with
  | ok a => exact .of_ok rfl (h.ok hy)
  | error e => exact .of_error rfl (h.error hy)

/-- Something is looked up that is there. -/
theorem known {y : Except Fault α} {a : α} (h : y = .ok a) (hf : Finishes stray (f a) Q) :
    Finishes stray (liftM y >>= f) Q :=
  .bind (.lift (.of_ok (P := fun b => b = a) h rfl)) fun b hb => by
    rw [hb]
    exact hf

theorem refuse {e : SelectError} : Finishes stray (SelectM.refuse e : SelectM α) P :=
  fun _ => .of_error rfl trivial

theorem newReg {name : Option String} : Finishes stray (SelectM.newReg name) fun _ => True :=
  fun _ => .of_ok rfl trivial

theorem forM {l : List α} {k : α → SelectM PUnit}
    (hk : ∀ a ∈ l, Finishes stray (k a) fun _ => True) : Finishes stray (l.forM k) fun _ => True := by
  induction l with
  | nil => exact .pure trivial
  | cons a rest ih =>
    obtain ⟨ha, hrest⟩ := List.forall_mem_cons.1 hk
    exact .bind ha fun _ _ => ih hrest

theorem mapM {l : List α} (hf : ∀ a ∈ l, Finishes stray (f a) fun _ => True) :
    Finishes stray (l.mapM f) fun _ => True := by
  induction l with
  | nil =>
    rw [List.mapM_nil]
    exact .pure trivial
  | cons a rest ih =>
    obtain ⟨ha, hrest⟩ := List.forall_mem_cons.1 hf
    rw [List.mapM_cons]
    exact .bind ha fun _ _ => .bind (ih hrest) fun _ _ => .pure trivial

end Finishes

end SelectM

/-! ## Frames -/

namespace Frame

variable {m : Module} {f : FuncId} {lists : BlockId → List ValueId} {regArgs word : Nat}

/-- A frame has a place for every variable of a function, and room for the arguments of its calls
that are not passed in registers. -/
structure Roomy (m : Module) (f : FuncId) (regArgs word : Nat) (fr : Frame) : Prop where
  slot : ∀ {b v ty}, m.funcOf b = some f → v ∈ m.instsOf b →
    m.kindOf v = some (.inst (.alloca ty)) → (fr.slotOffset? v).isSome = true
  args : ∀ {b v callee i}, m.funcOf b = some f → v ∈ m.instsOf b →
    m.kindOf v = some (.inst (.call callee)) → i + regArgs < (m.operandsOf v).length →
      i * word < fr.outgoing

theorem outgoingBytes_ends {xs : List Value} :
    Ends (Fault.Excused stray) (outgoingBytes regArgs word xs) fun n =>
      ∀ x ∈ xs, ∃ n', stackArgBytes regArgs word x = .ok n' ∧ n' ≤ n := by
  induction xs with
  | nil => exact .of_ok rfl (List.forall_mem_nil _)
  | cons x rest ih =>
    have hx : Ends (Fault.Excused stray) (stackArgBytes regArgs word x) fun _ => True := by
      unfold stackArgBytes
      split
      · exact Ends.fit.mono fun _ _ => trivial
      · exact .of_ok rfl trivial
    refine hx.bind fun n hn _ => ih.bind fun n' _ hrest => .pure ?_
    refine List.forall_mem_cons.2 ⟨⟨n, hn, Nat.le_max_left ..⟩, fun y hy => ?_⟩
    obtain ⟨k, hk, hle⟩ := hrest y hy
    exact ⟨k, hk, Nat.le_trans hle (Nat.le_max_right ..)⟩

/-- The survey of some blocks meets all their instructions. -/
theorem survey_ends (hm : m.WellFormed lists) {bs : List BlockId}
    (hbs : ∀ b ∈ bs, m.funcOf b = some f) :
    Ends (Fault.Excused stray) (survey m regArgs word bs) fun q =>
      ∀ b ∈ bs, ∀ v ∈ m.instsOf b, ∃ x, m.values[v.idx]? = some x ∧ (v, x) ∈ q.2 ∧
        ∃ n, stackArgBytes regArgs word x = .ok n ∧ n ≤ q.1 := by
  induction bs with
  | nil => exact .of_ok rfl (List.forall_mem_nil _)
  | cons b rest ih =>
    obtain ⟨hb, hrest⟩ := List.forall_mem_cons.1 hbs
    have heq := hm.instsOf_eq hb
    obtain ⟨c, hc, hinsts⟩ := bind_eq_ok.1 (hm.insts hb)
    obtain ⟨_, hcheck, hinsts⟩ := bind_eq_ok.1 hinsts
    have hlist : c.insts = lists b := Except.ok.inj hinsts
    refine .known hc ?_
    rw [hlist]
    obtain ⟨xs, hxs⟩ := FlowGraph.exists_mapM (l := lists b)
      (k := fun v => do return (v, ← m.value v)) fun v hv => by
        obtain ⟨k, hk⟩ := hm.threads.inst hv
        obtain ⟨x, hx, -⟩ := Module.kindOf_eq_some.1 hk
        exact ⟨(v, x), bind_eq_ok.2 ⟨x, Module.value_eq_ok.2 hx, rfl⟩⟩
    refine .known hxs ?_
    refine outgoingBytes_ends.bind fun here _ hhere => .known hcheck ?_
    refine (ih hrest).bind fun q _ hq => .pure ?_
    refine List.forall_mem_cons.2 ⟨fun v hv => ?_, fun b' hb' v hv => ?_⟩
    · rw [heq] at hv
      obtain ⟨⟨v', x⟩, hmem, hval⟩ := forall₂_exists_of_mem (mapM_eq_ok.1 hxs) hv
      obtain ⟨x', hx', hval⟩ := bind_eq_ok.1 hval
      cases hval
      obtain ⟨n, hn, hle⟩ := hhere x (List.mem_map_of_mem hmem)
      exact ⟨x, Module.value_eq_ok.1 hx', List.mem_append_left _ hmem, n, hn,
        Nat.le_trans hle (Nat.le_max_left ..)⟩
    · obtain ⟨x, hx, hmem, n, hn, hle⟩ := hq b' hb' v hv
      exact ⟨x, hx, List.mem_append_right _ hmem, n, hn,
        Nat.le_trans hle (Nat.le_max_right ..)⟩

/-- Variables that are placed have an offset, and those that had one keep it. -/
theorem place_ends {types : TypeTable} (hword : 0 < word) {vars : List (ValueId × Ty)}
    {offset : Nat} {slots : List (ValueId × Nat)} :
    Ends (Fault.Excused stray) (place types word offset slots vars) fun q =>
      ∀ v, ((slots.lookup v).isSome = true ∨ ∃ ty, (v, ty) ∈ vars) →
        (q.1.lookup v).isSome = true := by
  induction vars generalizing offset slots with
  | nil =>
    refine .of_ok rfl fun v hv => ?_
    rcases hv with hv | ⟨ty, hty⟩
    · exact hv
    · cases hty
  | cons q rest ih =>
    obtain ⟨v, ty⟩ := q
    have halign : 0 < min (max 1 (types.size ty)) word := by omega
    refine (Ends.alignTo halign).bind fun start _ _ => Ends.fit.bind fun stop _ _ => ?_
    refine ih.mono fun q hq w hw => hq w ?_
    rw [List.lookup_cons]
    by_cases hvw : w = v
    · left
      rw [beq_iff_eq.2 hvw]
      rfl
    · rw [beq_eq_false_iff_ne.2 hvw]
      rcases hw with hw | ⟨ty', hw⟩
      · exact .inl hw
      · rcases List.mem_cons.1 hw with heq | hw
        · exact absurd (congrArg Prod.fst heq) hvw
        · exact .inr ⟨ty', hw⟩

/-- The frame of a function has room for what the function needs. -/
theorem compute_ends (hm : m.WellFormed lists) (hword : 0 < word) {y : Func}
    (hy : m.funcs[f.idx]? = some y) :
    Ends (Fault.Excused stray) (compute m f regArgs word) (Roomy m f regArgs word) := by
  have hmem {b : BlockId} (hb : m.funcOf b = some f) : b ∈ y.blocks := by
    obtain ⟨y', hy', hb⟩ := hm.owned.mem.1 hb
    cases hy.symm.trans hy'
    exact hb
  refine .known (lookupOr_eq_ok.2 hy) ?_
  refine (survey_ends hm fun b hb => hm.owned.mem.2 ⟨y, hy, hb⟩).bind fun q _ hq => ?_
  refine (place_ends hword).bind fun r _ hr => Ends.fit.bind fun size _ _ => .pure ⟨?_, ?_⟩
  · intro b v ty hb hv hk
    obtain ⟨x, hx, hxs, -⟩ := hq b (hmem hb) v hv
    obtain ⟨x', hx', hk⟩ := Module.kindOf_eq_some.1 hk
    cases hx.symm.trans hx'
    refine hr v (.inr ⟨ty, List.mem_filterMap.2 ⟨(v, x), hxs, ?_⟩⟩)
    show (slotType x.kind).map _ = _
    rw [hk]
    rfl
  · intro b v callee i hb hv hk hi
    obtain ⟨x, hx, -, n, hn, hle⟩ := hq b (hmem hb) v hv
    obtain ⟨x', hx', hk⟩ := Module.kindOf_eq_some.1 hk
    cases hx.symm.trans hx'
    rw [Module.operandsOf, Module.valueField_eq hx] at hi
    rw [stackArgBytes, hk] at hn
    have hbytes : n = (x.operands.length - regArgs) * word := Ends.ok (@Ends.fit True _) hn
    refine Nat.lt_of_lt_of_le ?_ hle
    rw [hbytes]
    exact Nat.mul_lt_mul_of_pos_right (by omega) hword

end Frame

end SsaCodegen
