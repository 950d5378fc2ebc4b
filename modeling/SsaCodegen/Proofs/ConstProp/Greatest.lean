import SsaCodegen.Proofs.ConstProp.Monotone
import SsaCodegen.Proofs.ConstProp.Reference

/-!
# The solver finds the greatest solution

Whatever order the stacks happen to have, a run of the solver is made of a few moves: it lowers an
instruction in a marked block to what its operands tell, puts a head of a branch in a marked block
on the stack, and marks a block from the stack. Along all of them two things stay true. What the
operands of an instruction tell never rises above what is known of it, so that at the end the two are
equal. And no closed state of the function is ever overtaken: blocks that are marked or wait are
marked in it, and it knows no more of any value.

## Main definitions

* `Solver.Move` — what the solver does to a module and to the blocks that wait
* `Module.Closed` — a state that follows all rules of constant propagation over a function
* `Solver.Region` — functions and values that go together

## Main results

* `Solver.step_moves` — a step is a sequence of moves
* `Solver.Move.tight`, `Solver.Move.above` — what every move keeps
* `Module.solve_greatest` — the solver ends with the greatest closed state
-/

namespace SsaCodegen

namespace Module

variable {m m' : Module} {lists : BlockId → List ValueId} {f : FuncId} {b : BlockId} {v : ValueId}

/-- What is known of a value when it is created. -/
def initialOf (m : Module) (v : ValueId) : Constness := ((m.kindOf v).map ValueKind.initial).getD .top

/-- A state of constant propagation over a function that is closed. The entry is marked, so are all
blocks that branches in marked blocks can go to by what is known of their conditions, and no more is
known of an instruction in a marked block than its operands tell. -/
structure Closed (m : Module) (f : FuncId) : Prop where
  entry : ∀ b, (m.blocksOf f).head? = some b → m.reachedOf b = true
  heads : ∀ b ∈ m.blocksOf f, m.reachedOf b = true → ∀ v ∈ m.instsOf b,
    m.kindOf v = some (.inst .br) → ∀ c ∈ m.headsOf v, m.reachedOf c = true
  known : ∀ b ∈ m.blocksOf f, m.reachedOf b = true → ∀ v ∈ m.instsOf b,
    m.knownOf v ≤ m.transferOf v

/-- The instructions of a function use no instructions that stand outside of it. -/
def OperandsLocal (m : Module) (f : FuncId) : Prop :=
  ∀ b ∈ m.blocksOf f, ∀ v ∈ m.instsOf b, ∀ o ∈ m.operandsOf v,
    m.values[o.idx]?.any (·.kind.asInst.isSome) = true → ∃ c ∈ m.blocksOf f, o ∈ m.instsOf c

instance (m : Module) (f : FuncId) : Decidable (m.OperandsLocal f) :=
  inferInstanceAs (Decidable (∀ b ∈ m.blocksOf f, ∀ v ∈ m.instsOf b, ∀ o ∈ m.operandsOf v, _))

/-- Propagating to an instruction of a block brings it down to what its operands tell. -/
theorem WellFormed.knownOf_propagate (hm : WellFormed m lists) (hv : v ∈ lists b) {changed : Bool}
    (h : m.propagate v = .ok (changed, m')) (w : ValueId) :
    m'.knownOf w = if w = v then m.knownOf v ⊓ m.transferOf v else m.knownOf w := by
  obtain ⟨g, hb⟩ := hm.exists_funcOf_of_mem hv
  obtain ⟨x, t, hx, ht, hcases⟩ := propagate_cases h
  cases ht.symm.trans (hm.transfer hb hv)
  have hknown : m.knownOf v = x.known := valueField_eq hx
  rw [hknown, ← Constness.meet_eq_inf]
  obtain ⟨hsame, -, rfl⟩ | ⟨-, -, rfl⟩ := hcases
  · split
    · rename_i hw
      rw [hw, hknown, hsame]
    · rfl
  · exact Solver.knownOf_setValue hx _

theorem reachedOf_propagate {changed : Bool} (h : m.propagate v = .ok (changed, m')) :
    m'.reachedOf = m.reachedOf := by
  obtain ⟨x, t, -, -, ⟨-, -, rfl⟩ | ⟨-, -, rfl⟩⟩ := propagate_cases h
  · rfl
  · rfl

end Module

namespace Solver

open SsaCodegen.Module

variable {lists : BlockId → List ValueId} {f : FuncId} {s s' s₁ : Solver} {m : Module} {b : BlockId}
  {v : ValueId} {funcs : FuncId → Prop} {values : ValueId → Prop}

/-- What the solver does to a module and to the blocks that wait. Which values wait does not
matter. -/
inductive Move (lists : BlockId → List ValueId) : Solver → Solver → Prop
  | wait {m blocks values values'} : Move lists ⟨m, blocks, values⟩ ⟨m, blocks, values'⟩
  | drop {m b blocks values} : Move lists ⟨m, b :: blocks, values⟩ ⟨m, blocks, values⟩
  | enter {m m' b blocks values} (h : m.setReachable b true = .ok m') :
    Move lists ⟨m, b :: blocks, values⟩ ⟨m', blocks, values⟩
  | lower {m m' b v changed blocks values} (hr : m.reachedOf b = true) (hv : v ∈ lists b)
      (h : m.propagate v = .ok (changed, m')) : Move lists ⟨m, blocks, values⟩ ⟨m', blocks, values⟩
  | branch {m b c v blocks values} (hr : m.reachedOf b = true) (hv : v ∈ lists b)
      (hk : m.kindOf v = some (.inst .br)) (hc : c ∈ m.headsOf v) :
    Move lists ⟨m, blocks, values⟩ ⟨m, c :: blocks, values⟩

/-- Any number of moves. -/
abbrev Moves (lists : BlockId → List ValueId) : Solver → Solver → Prop :=
  Relation.ReflTransGen (Move lists)

/-! ## A run is made of moves -/

theorem Move.learns (h : Move lists s s') : Learns s.module s'.module := by
  cases h with
  | wait | drop | branch => exact .refl
  | enter h => exact .single (.reach h)
  | lower hr hv h => exact .single (.value h)

theorem Moves.learns (h : Moves lists s s') : Learns s.module s'.module := by
  induction h with
  | refl => exact .refl
  | tail _ hmove ih => exact ih.trans hmove.learns

/-- Marks stay. -/
theorem Move.reached (h : Move lists s s') (hr : s.module.reachedOf b = true) :
    s'.module.reachedOf b = true := by
  cases h with
  | wait | drop | branch => exact hr
  | enter h =>
    show _ = true
    rw [reachedOf_setReachable h, show _ = true from hr, ite_self]
  | lower _ _ h =>
    show _ = true
    rw [reachedOf_propagate h]
    exact hr

theorem Moves.reached (h : Moves lists s s') (hr : s.module.reachedOf b = true) :
    s'.module.reachedOf b = true := by
  induction h with
  | refl => exact hr
  | tail _ hmove ih => exact hmove.reached ih

theorem refresh_moves (hr : s.module.reachedOf b = true) (hv : v ∈ lists b)
    (h : s.refresh v = .ok s') : Moves lists s s' := by
  obtain ⟨m', ⟨hp, rfl⟩ | ⟨us, hp, -, rfl⟩⟩ := refresh_cases h
  · exact .single (.lower hr hv hp)
  · exact .tail (.single (.lower hr hv hp)) .wait

theorem branch_moves {blocks heads : List BlockId} {values : List ValueId}
    (hr : m.reachedOf b = true) (hv : v ∈ lists b) (hk : m.kindOf v = some (.inst .br))
    (hheads : ∀ c ∈ heads, c ∈ m.headsOf v) :
    Moves lists ⟨m, blocks, values⟩ ⟨m, heads ++ blocks, values⟩ := by
  induction heads with
  | nil => exact .refl
  | cons c rest ih =>
    obtain ⟨hc, hrest⟩ := List.forall_mem_cons.1 hheads
    exact .tail (ih hrest) (.branch hr hv hk hc)

theorem visitInst_moves (hm : WellFormed s.module lists) (hr : s.module.reachedOf b = true)
    (hv : v ∈ lists b) (h : s.visitInst v = .ok s') : Moves lists s s' := by
  obtain ⟨s₁, h₁, rfl | ⟨labels, blocks, hk, hl, hpush, rfl⟩⟩ := visitInst_cases h
  · exact refresh_moves hr hv h₁
  · have hmoves := refresh_moves hr hv h₁
    have hm₁ := hm.learns hmoves.learns
    obtain ⟨g, hb⟩ := hm₁.exists_funcOf_of_mem hv
    obtain ⟨k', hk'⟩ := hm₁.threads.inst hv
    cases hk.symm.trans (instKind_eq hk')
    have hblocks := hm₁.pushBlocks hb hv hk' s₁.blocks
    cases (bind_eq_ok.2 ⟨labels, hl, hpush⟩).symm.trans hblocks
    refine hmoves.trans (branch_moves (hmoves.reached hr) hv hk' fun c hc => ?_)
    exact (List.mem_filter.1 (List.mem_reverse.1 hc)).1

theorem visitAll_moves {insts : List ValueId} (hm : WellFormed s.module lists)
    (hr : s.module.reachedOf b = true) (hv : ∀ v ∈ insts, v ∈ lists b)
    (h : s.visitAll insts = .ok s') : Moves lists s s' := by
  induction insts generalizing s with
  | nil =>
    cases h
    exact .refl
  | cons v rest ih =>
    obtain ⟨hv, hrest⟩ := List.forall_mem_cons.1 hv
    obtain ⟨s₁, h₁, h⟩ := bind_eq_ok.1 h
    have hmoves := visitInst_moves hm hr hv h₁
    exact hmoves.trans (ih (hm.learns hmoves.learns) (hmoves.reached hr) hrest h)

theorem refreshAll_moves {insts : List ValueId} (hr : s.module.reachedOf b = true)
    (hv : ∀ v ∈ insts, v ∈ lists b) (h : s.refreshAll insts = .ok s') : Moves lists s s' := by
  induction insts generalizing s with
  | nil =>
    cases h
    exact .refl
  | cons v rest ih =>
    obtain ⟨hv, hrest⟩ := List.forall_mem_cons.1 hv
    obtain ⟨s₁, h₁, h⟩ := bind_eq_ok.1 h
    have hmoves := refresh_moves hr hv h₁
    exact hmoves.trans (ih (hmoves.reached hr) hrest h)

theorem visitPhis_moves {blocks : List BlockId} (hm : WellFormed s.module lists)
    (h : s.visitPhis blocks = .ok s') : Moves lists s s' := by
  induction blocks generalizing s with
  | nil =>
    cases h
    exact .refl
  | cons c rest ih =>
    obtain h | ⟨x, phis, s₁, hx, hreached, hphis, h₁, h⟩ := visitPhis_cases h
    · exact ih hm h
    · have hx := block_eq_ok.1 hx
      have hr : s.module.reachedOf c = true := (blockField_eq hx).trans hreached
      obtain ⟨phis', hphis', hmem⟩ := hm.instsWhile (funcOf_eq_some.2 ⟨x, hx, rfl⟩)
      cases hphis.symm.trans hphis'
      have hmoves := refreshAll_moves hr (fun v hv => ((hmem v).1 hv).1) h₁
      exact hmoves.trans (ih (hm.learns hmoves.learns) h)

theorem visitBlock_moves {blocks : List BlockId} {values : List ValueId} (hm : WellFormed m lists)
    (h : visitBlock ⟨m, blocks, values⟩ b = .ok s') : Moves lists ⟨m, b :: blocks, values⟩ s' := by
  obtain ⟨x, hx, rfl | ⟨m₁, insts, s₁, succs, -, hset, hinsts, h₁, -, h⟩⟩ := visitBlock_cases h
  · exact .single .drop
  · have henter : Move lists ⟨m, b :: blocks, values⟩ ⟨m₁, blocks, values⟩ := .enter hset
    have hm₁ := hm.learns henter.learns
    have hr : m₁.reachedOf b = true := (reachedOf_setReachable hset b).trans (if_pos rfl)
    have hb : m₁.funcOf b = some x.func := by
      rw [funcOf_of_skeleton henter.learns.skeleton_eq]
      exact funcOf_eq_some.2 ⟨x, block_eq_ok.1 hx, rfl⟩
    cases hinsts.symm.trans (hm₁.insts hb)
    have hmoves := visitAll_moves (s := ⟨m₁, blocks, values⟩) hm₁ hr (fun v hv => hv) h₁
    exact .head henter (hmoves.trans (visitPhis_moves (hm₁.learns hmoves.learns) h))

theorem revisit_moves (hm : WellFormed s.module lists) (h : s.revisit v = .ok s') :
    Moves lists s s' := by
  obtain rfl | ⟨x, b, y, hx, hb, hy, hreached, h⟩ := revisit_cases h
  · exact .refl
  · have hlink : s.module.linkOf v = x.link := valueField_eq (value_eq_ok.1 hx)
    have hv : v ∈ lists b := hm.threads.mem_of_block (by rw [hlink, hb])
    exact visitInst_moves hm ((blockField_eq (block_eq_ok.1 hy)).trans hreached) hv h

/-- A step is a sequence of moves. -/
theorem step_moves (hm : WellFormed s.module lists) (h : s.step = .ok (some s')) :
    Moves lists s s' := by
  obtain ⟨m, rest, values, ⟨b, rfl, h₁⟩ | ⟨v, rfl, h₁⟩⟩ := step_cases h
  · exact visitBlock_moves hm h₁
  · exact .head .wait (revisit_moves (s := ⟨m, [], values⟩) hm h₁)

/-- What every move keeps, a run keeps. -/
theorem run_keeps_moves {P : Solver → Prop}
    (hmove : ∀ {s s' : Solver}, WellFormed s.module lists → Move lists s s' → P s → P s')
    {n : Nat} {m' : Module} (hm : WellFormed s.module lists) (hs : P s) (h : s.run = .ok (n, m')) :
    P ⟨m', [], []⟩ := by
  refine (run_keeps (P := fun t => WellFormed t.module lists ∧ P t) ?_ ⟨hm, hs⟩ h).2
  rintro s s' ⟨hm, hs⟩ hstep
  have hmoves := step_moves hm hstep
  refine ⟨hm.learns hmoves.learns, ?_⟩
  clear hstep
  induction hmoves with
  | refl => exact hs
  | tail hmoves hlast ih => exact hmove (hm.learns (Moves.learns hmoves)) hlast ih

/-! ## What moves keep -/

/-- Lattice values only come down. -/
theorem Move.knownOf_le (hm : WellFormed s.module lists) (h : Move lists s s') (v : ValueId) :
    s'.module.knownOf v ≤ s.module.knownOf v := by
  cases h with
  | wait | drop | branch => exact le_rfl
  | enter h =>
    obtain ⟨x, -, rfl⟩ := modifyBlock_eq_ok.1 h
    exact le_rfl
  | lower _ hv h =>
    show _ ≤ _
    rw [hm.knownOf_propagate hv h]
    split
    · rename_i hw
      rw [hw]
      exact inf_le_left
    · exact le_rfl

/-- What the operands of an instruction tell stays below what is known of it. -/
theorem Move.tight (hm : WellFormed s.module lists) (h : Move lists s s')
    (ht : s.module.transferOf v ≤ s.module.knownOf v) :
    s'.module.transferOf v ≤ s'.module.knownOf v := by
  have hmono : s'.module.transferOf v ≤ s.module.transferOf v :=
    transferOf_mono h.learns.skeleton_eq (fun o _ => h.knownOf_le hm o) fun _ i _ => h.reached
  cases h with
  | wait | drop | branch => exact ht
  | enter h =>
    obtain ⟨x, -, rfl⟩ := modifyBlock_eq_ok.1 h
    exact hmono.trans ht
  | lower _ hv h =>
    refine hmono.trans ?_
    show _ ≤ _
    rw [hm.knownOf_propagate hv h]
    split
    · rename_i hw
      rw [← hw]
      exact le_inf ht le_rfl
    · exact ht

/-- Functions and values that go together. Of the values, those that stand in blocks stand in blocks
of the functions, and the instructions of the functions use no other values. -/
structure Region (m : Module) (lists : BlockId → List ValueId) (funcs : FuncId → Prop)
    (values : ValueId → Prop) : Prop where
  placed : ∀ {v b}, values v → v ∈ lists b → ∃ g, m.funcOf b = some g ∧ funcs g
  uses : ∀ {b g v o}, m.funcOf b = some g → funcs g → v ∈ lists b → o ∈ m.operandsOf v → values o

theorem Region.of_skeleton {t : Module} (h : Region m lists funcs values)
    (hskel : t.skeleton = m.skeleton) : Region t lists funcs values := by
  constructor
  · rw [funcOf_of_skeleton hskel]
    exact h.placed
  · rw [funcOf_of_skeleton hskel, operandsOf_of_skeleton hskel]
    exact h.uses

/-- A state of the module has not been overtaken in a region: it knows no more of the values, and the
blocks of the functions that are marked or wait are marked in it. -/
structure Above (funcs : FuncId → Prop) (values : ValueId → Prop) (t : Module) (s : Solver) :
    Prop where
  skeleton : t.skeleton = s.module.skeleton
  reached : ∀ {b g}, s.module.funcOf b = some g → funcs g → s.module.reachedOf b = true →
    t.reachedOf b = true
  blocks : ∀ {b g}, b ∈ s.blocks → s.module.funcOf b = some g → funcs g → t.reachedOf b = true
  known : ∀ {v}, values v → t.knownOf v ≤ s.module.knownOf v

/-- In a state that has not been overtaken the operands of an instruction tell no more. -/
theorem Above.transferOf_le {t : Module} {g : FuncId} (ha : Above funcs values t s)
    (hm : WellFormed s.module lists) (hregion : Region s.module lists funcs values)
    (hb : s.module.funcOf b = some g) (hg : funcs g) (hv : v ∈ lists b) :
    t.transferOf v ≤ s.module.transferOf v := by
  refine transferOf_mono ha.skeleton (fun o ho => ha.known (hregion.uses hb hg hv ho))
    fun hphi i hi => ?_
  have hfits : s.module.PhiPairs g (s.module.operandsOf v) :=
    hm.fits hb hv (of_decide_eq_true hphi)
  exact ha.reached (hfits.funcOf hi) hg

/-- No move overtakes a state that is closed at all functions of a region. -/
theorem Move.above {t : Module} (hm : WellFormed s.module lists)
    (hregion : Region s.module lists funcs values) (hclosed : ∀ g, funcs g → t.Closed g)
    (h : Move lists s s') (ha : Above funcs values t s) : Above funcs values t s' := by
  have hskel := h.learns.skeleton_eq
  -- a block of the region that is marked is one that the closed state speaks of
  have hlive {b g v} (hb : s.module.funcOf b = some g) (hg : funcs g)
      (hr : s.module.reachedOf b = true) (hv : v ∈ lists b) :
      b ∈ t.blocksOf g ∧ t.reachedOf b = true ∧ v ∈ t.instsOf b := by
    rw [blocksOf_of_skeleton ha.skeleton, instsOf_of_skeleton ha.skeleton, hm.instsOf_eq hb]
    exact ⟨hm.owned.mem_blocksOf.2 hb, ha.reached hb hg hr, hv⟩
  cases h with
  | wait => exact ⟨ha.skeleton, ha.reached, ha.blocks, ha.known⟩
  | drop =>
    exact ⟨ha.skeleton, ha.reached, fun hb => ha.blocks (List.mem_cons_of_mem _ hb), ha.known⟩
  | @enter m m' b blocks values h =>
    refine ⟨ha.skeleton.trans hskel.symm, fun {c g} hc hg hr => ?_, fun {c g} hc hf hg => ?_,
      fun {v} hv => ?_⟩
    · replace hc : m.funcOf c = some g := funcOf_of_skeleton hskel ▸ hc
      replace hr : m'.reachedOf c = true := hr
      rw [reachedOf_setReachable h] at hr
      split at hr
      · rename_i hcb
        exact ha.blocks (by simp [hcb]) hc hg
      · exact ha.reached hc hg hr
    · replace hf : m.funcOf c = some g := funcOf_of_skeleton hskel ▸ hf
      exact ha.blocks (List.mem_cons_of_mem _ hc) hf hg
    · have hle := ha.known hv
      obtain ⟨x, -, rfl⟩ := modifyBlock_eq_ok.1 h
      exact hle
  | @lower m m' b v changed blocks values hr hv h =>
    have hfunc (c : BlockId) : m'.funcOf c = m.funcOf c := by rw [funcOf_of_skeleton hskel]
    refine ⟨ha.skeleton.trans hskel.symm, fun {c g} hc hg hrc => ?_, fun {c g} hc hf hg => ?_,
      fun {w} hw => ?_⟩
    · refine ha.reached ((hfunc c).symm.trans hc) hg ?_
      exact (congrFun (reachedOf_propagate h) c).symm.trans hrc
    · exact ha.blocks hc ((hfunc c).symm.trans hf) hg
    · show t.knownOf w ≤ m'.knownOf w
      rw [hm.knownOf_propagate hv h]
      split
      · rename_i hwv
        subst hwv
        refine le_inf (ha.known hw) ?_
        -- a value of the region that stands in a block stands in a block of its functions
        obtain ⟨g, hb, hg⟩ := hregion.placed hw hv
        obtain ⟨hbt, hrt, hvt⟩ := hlive hb hg hr hv
        exact ((hclosed g hg).known b hbt hrt w hvt).trans (ha.transferOf_le hm hregion hb hg hv)
      · exact ha.known hw
  | @branch m b c v blocks values hr hv hk hc =>
    refine ⟨ha.skeleton, ha.reached, fun {d g} hd hf hg => ?_, ha.known⟩
    rcases List.mem_cons.1 hd with rfl | hd
    · obtain ⟨g', hb⟩ := hm.exists_funcOf_of_mem hv
      cases (hm.headsOf_subset hb hv hk hc).symm.trans hf
      obtain ⟨hbt, hrt, hvt⟩ := hlive hb hg hr hv
      refine (hclosed g hg).heads b hbt hrt v hvt ?_ d ?_
      · rw [kindOf_of_skeleton ha.skeleton]
        exact hk
      · exact headsOf_mono ha.skeleton (fun o ho => ha.known (hregion.uses hb hg hv ho)) hc
    · exact ha.blocks hd hf hg

/-- No run overtakes it. -/
theorem above_of_run {t m' : Module} {n : Nat} (hm : WellFormed s.module lists)
    (hregion : Region s.module lists funcs values) (hclosed : ∀ g, funcs g → t.Closed g)
    (ha : Above funcs values t s) (h : s.run = .ok (n, m')) :
    Above funcs values t ⟨m', [], []⟩ := by
  refine (run_keeps_moves (P := fun s' => s'.module.skeleton = s.module.skeleton ∧
    Above funcs values t s') (fun hm hmove hs => ?_) hm ⟨rfl, ha⟩ h).2
  exact ⟨hmove.learns.skeleton_eq.trans hs.1,
    hmove.above hm (hregion.of_skeleton hs.1) hclosed hs.2⟩

end Solver

/-! ## The solver -/

namespace Module

variable {m m' t : Module} {lists : BlockId → List ValueId} {f : FuncId} {b : BlockId} {v : ValueId}
  {n : Nat}

theorem resetReachability_values (h : m.resetReachability f = .ok m') : m'.values = m.values := by
  obtain ⟨y, -, h⟩ := bind_eq_ok.1 h
  clear * - h
  generalize y.blocks = bs at h
  induction bs generalizing m with
  | nil =>
    cases h
    rfl
  | cons b rest ih =>
    rw [List.foldlM_cons] at h
    obtain ⟨m₁, h₁, h⟩ := bind_eq_ok.1 h
    obtain ⟨x, -, rfl⟩ := modifyBlock_eq_ok.1 h₁
    have hrest := ih h
    exact hrest

/-- The solver forgets the marks of a function and starts with its entry, if it has one. -/
theorem solve_start (h : m.solve f = .ok (n, m')) :
    ∃ m₁, m.resetReachability f = .ok m₁ ∧ (m₁.blocksOf f = [] ∨
      ∃ b, (m₁.blocksOf f).head? = some b ∧ Solver.run ⟨m₁, [b], []⟩ = .ok (n, m')) := by
  obtain ⟨m₁, hreset, h⟩ := bind_eq_ok.1 h
  obtain ⟨y, hy, h⟩ := bind_eq_ok.1 h
  have hblocks : m₁.blocksOf f = y.blocks := blocksOf_of_func (lookupOr_eq_ok.1 hy)
  refine ⟨m₁, hreset, ?_⟩
  rw [hblocks]
  split at h
  · rename_i hentry
    exact .inl (List.head?_eq_none_iff.1 hentry)
  · rename_i b hentry
    exact .inr ⟨b, hentry, h⟩

/-- The operands of an instruction tell no more than what is known of it when it is created. -/
theorem transferOf_le_initialOf {k : InstKind} (hk : m.kindOf v = some (.inst k)) :
    m.transferOf v ≤ m.initialOf v := by
  rw [initialOf, hk]
  cases k with
  | load | call | alloca | gep =>
    rw [transferOf, hk]
    exact Constness.varying_le _
  | phi | sext | cast | binary | compare | br | ret | store => exact Constness.le_top _

theorem Primed.knownOf_eq (h : Primed m) (hk : ∀ k, m.kindOf v ≠ some (.inst k)) :
    m.knownOf v = m.initialOf v := by
  cases hx : m.values[v.idx]? with
  | none =>
    rw [knownOf, valueField, initialOf, kindOf, valueField, hx]
    rfl
  | some x =>
    have hkind : m.kindOf v = some x.kind := kindOf_eq_some.2 ⟨x, hx, rfl⟩
    have hnone : x.kind.asInst = none := by
      cases hx' : x.kind with
      | inst k => exact absurd (hkind.trans (congrArg some hx')) (hk k)
      | const | global | param | block => rfl
    rw [h.knownOf_of_kind hkind hnone, initialOf, hkind]
    rfl

/-- A solution is a closed state. -/
theorem Solved.closed (h : m.Solved lists f) (hm : WellFormed m lists) : m.Closed f := by
  have hlive {b v} (hb : b ∈ m.blocksOf f) (hr : m.reachedOf b = true) (hv : v ∈ m.instsOf b) :
      m.Live lists f v := by
    have hb := hm.owned.mem_blocksOf.1 hb
    exact ⟨b, hb, hr, hm.instsOf_eq hb ▸ hv⟩
  refine ⟨fun b hb => ?_, fun b hb hr v hv hk c hc => h.heads (hlive hb hr hv) hk c hc,
    fun b hb hr v hv => settled_iff.1 (h.settled (hlive hb hr hv))⟩
  rw [blocksOf] at hb
  cases hy : m.funcs[f.idx]? with
  | none =>
    rw [hy] at hb
    cases hb
  | some y =>
    rw [hy] at hb
    exact h.entry hy hb

/-- A value of a function: an instruction of it, or none at all. -/
def IsLocal (m : Module) (lists : BlockId → List ValueId) (f : FuncId) (v : ValueId) : Prop :=
  (∀ k, m.kindOf v ≠ some (.inst k)) ∨ ∃ b, m.funcOf b = some f ∧ v ∈ lists b

theorem OperandsLocal.region (h : m.OperandsLocal f) (hm : WellFormed m lists) :
    Solver.Region m lists (· = f) (m.IsLocal lists f) := by
  refine ⟨fun {v b} hv hb => ?_, fun {b g v o} hb hg hv ho => ?_⟩
  · obtain ⟨k, hk⟩ := hm.threads.inst hb
    rcases hv with hnone | ⟨c, hc, hvc⟩
    · exact absurd hk (hnone k)
    · cases hm.threads.eq_of_mem hb hvc
      exact ⟨f, hc, rfl⟩
  · subst hg
    by_cases hinst : ∃ k, m.kindOf o = some (.inst k)
    · obtain ⟨k, hk⟩ := hinst
      obtain ⟨x, hx, hxk⟩ := kindOf_eq_some.1 hk
      obtain ⟨c, hc, hoc⟩ := h b (hm.owned.mem_blocksOf.2 hb) v (hm.instsOf_eq hb ▸ hv) o ho
        (by simp [hx, hxk, ValueKind.asInst])
      have hc := hm.owned.mem_blocksOf.1 hc
      exact .inr ⟨c, hc, hm.instsOf_eq hc ▸ hoc⟩
    · exact .inl fun k hk => hinst ⟨k, hk⟩

theorem knownOf_of_reset (h : m.resetReachability f = .ok m') (v : ValueId) :
    m'.knownOf v = m.knownOf v := by
  rw [knownOf, valueField, resetReachability_values h]
  rfl

section Run

variable {m₁ : Module} {entry : BlockId} (hm : WellFormed m lists)
  (hreset : m.resetReachability f = .ok m₁)
  (hrun : Solver.run ⟨m₁, [entry], []⟩ = .ok (n, m'))
include hm hreset

include hrun in
/-- What the operands of an instruction tell is below what is known of it at first, and so at the
end. -/
theorem transferOf_le_of_run (hv : v ∈ lists b) (hfresh : m.knownOf v = m.initialOf v) :
    m'.transferOf v ≤ m'.knownOf v := by
  have hlearns := resetReachability_learns hreset
  have hskel := hlearns.skeleton_eq
  refine Solver.run_keeps_moves (P := fun s => s.module.transferOf v ≤ s.module.knownOf v)
    (fun hm hmove => hmove.tight hm) (hm.learns hlearns) ?_ hrun
  obtain ⟨k, hk⟩ := hm.threads.inst hv
  rw [← kindOf_of_skeleton hskel] at hk
  refine (transferOf_le_initialOf hk).trans (le_of_eq ?_)
  rw [knownOf_of_reset hreset, hfresh, initialOf, kindOf_of_skeleton hskel, initialOf]

variable (hf : f.idx < m.funcs.size)
  (hfresh : ∀ b ∈ m.blocksOf f, ∀ v ∈ m.instsOf b, m.knownOf v = m.initialOf v)
  (htskel : t.skeleton = m.skeleton) (htop : ∀ v, t.knownOf v ≤ m.initialOf v)
  (htclosed : t.Closed f) (hentry : (m.blocksOf f).head? = some entry)
include hf hfresh htskel htop htclosed hentry

/-- The solver starts above every closed state. -/
theorem above_start :
    Solver.Above (· = f) (m.IsLocal lists f) t ⟨m₁, [entry], []⟩ := by
  have hskel := (resetReachability_learns hreset).skeleton_eq
  obtain ⟨m₂, hreset', hfalse⟩ := resetReachability_eq hm.owned (Array.getElem?_eq_getElem hf)
  cases hreset.symm.trans hreset'
  refine ⟨htskel.trans hskel.symm, fun {c g} hc hg hr => ?_, fun {c g} hc _ _ => ?_,
    fun {v} hv => ?_⟩
  · subst hg
    rw [hfalse c (funcOf_of_skeleton hskel ▸ hc)] at hr
    cases hr
  · rw [List.mem_singleton.1 hc]
    refine htclosed.entry entry ?_
    rw [blocksOf_of_skeleton htskel]
    exact hentry
  · refine (htop v).trans (le_of_eq ?_)
    show m.initialOf v = m₁.knownOf v
    rw [knownOf_of_reset hreset]
    obtain hother | ⟨c, hc, hvc⟩ := hv
    · exact (hm.primed.knownOf_eq hother).symm
    · exact (hfresh c (hm.owned.mem_blocksOf.2 hc) v (hm.instsOf_eq hc ▸ hvc)).symm

include hrun in
/-- The solver ends above every closed state. -/
theorem above_of_solve (hlocal : m.OperandsLocal f) :
    Solver.Above (· = f) (m.IsLocal lists f) t ⟨m', [], []⟩ := by
  have hlearns := resetReachability_learns hreset
  have hregion := (hlocal.region hm).of_skeleton hlearns.skeleton_eq
  exact Solver.above_of_run (hm.learns hlearns) hregion (fun _ hg => hg ▸ htclosed)
    (above_start hm hreset hf hfresh htskel htop htclosed hentry) hrun

end Run

/-- Constant propagation over a function of a module that was built and accepted, starting from what
is known when values are created, ends with the greatest closed state. The state is closed; what is
known of each instruction in a marked block is all that its operands tell; and in any other closed
state of the module that starts no higher, the same blocks are marked at least, and no more is known
of any instruction in them. -/
theorem solve_greatest (hbuilt : m.Built) (hverify : m.verify = .ok none)
    (hf : f.idx < m.funcs.size) (hphis : m.PhisListPreds f) (hlocal : m.OperandsLocal f)
    (hfresh : ∀ b ∈ m.blocksOf f, ∀ v ∈ m.instsOf b, m.knownOf v = m.initialOf v) :
    ∃ n m', m.solve f = .ok (n, m') ∧ m'.skeleton = m.skeleton ∧ m'.Closed f ∧
      (∀ b ∈ m.blocksOf f, m'.reachedOf b = true → ∀ v ∈ m.instsOf b,
        m'.transfer v = .ok (m'.knownOf v)) ∧
      ∀ t : Module, t.skeleton = m.skeleton → (∀ v, t.knownOf v ≤ m.initialOf v) → t.Closed f →
        ∀ b ∈ m.blocksOf f, m'.reachedOf b = true →
          t.reachedOf b = true ∧ ∀ v ∈ m.instsOf b, t.knownOf v ≤ m'.knownOf v := by
  obtain ⟨lists, hm⟩ := hbuilt.wellFormed hverify
  obtain ⟨n, m', hsolve, hlearns, hsolved⟩ :=
    hm.solve (hm.predsListed hphis) (Array.getElem?_eq_getElem hf)
  have hm' := hm.learns hlearns
  have hskel := hlearns.skeleton_eq
  have hclosed := hsolved.closed hm'
  refine ⟨n, m', hsolve, hskel, hclosed, ?_⟩
  obtain ⟨m₁, hreset, hstart⟩ := solve_start hsolve
  rw [blocksOf_of_skeleton (resetReachability_learns hreset).skeleton_eq] at hstart
  rcases hstart with hnone | ⟨entry, hentry, hrun⟩
  · rw [hnone]
    exact ⟨nofun, fun _ _ _ _ => nofun⟩
  refine ⟨fun b hb hr v hv => ?_, fun t htskel htop htclosed b hb hr => ?_⟩
  · have hb' := hm.owned.mem_blocksOf.1 hb
    have hmem : v ∈ lists b := hm.instsOf_eq hb' ▸ hv
    have htight := transferOf_le_of_run hm hreset hrun hmem (hfresh b hb v hv)
    rw [hm'.transfer (funcOf_of_skeleton hskel ▸ hb') hmem]
    refine congrArg Except.ok (le_antisymm htight (hclosed.known b ?_ hr v ?_))
    · rw [blocksOf_of_skeleton hskel]
      exact hb
    · rw [instsOf_of_skeleton hskel]
      exact hv
  · have habove := above_of_solve hm hreset hrun hf hfresh htskel htop htclosed hentry hlocal
    have hb := hm.owned.mem_blocksOf.1 hb
    refine ⟨habove.reached (funcOf_of_skeleton hskel ▸ hb) rfl hr, fun v hv => habove.known ?_⟩
    exact .inr ⟨b, hb, hm.instsOf_eq hb ▸ hv⟩

/-- The state of a module in which every block is marked and every value varies. -/
def pessimistic (m : Module) : Module :=
  { m with
    values := m.values.map fun x => { x with known := .varying }
    blocks := m.blocks.map fun b => { b with reachable := true } }

theorem skeleton_pessimistic (m : Module) : m.pessimistic.skeleton = m.skeleton := by
  simp [skeleton, pessimistic, Function.comp_def]

theorem knownOf_pessimistic_le (m : Module) (v : ValueId) :
    m.pessimistic.knownOf v ≤ m.initialOf v := by
  rw [knownOf, valueField, pessimistic, Array.getElem?_map, initialOf, kindOf, valueField]
  cases m.values[v.idx]? with
  | none => exact le_rfl
  | some x => exact Constness.varying_le _

/-- The solver goes around the loop, and the pessimistic state of the module is closed, too. -/
theorem solve_greatest_loop :
    ∃ n m', loopModule.solve ⟨0⟩ = .ok (n, m') ∧ m'.Closed ⟨0⟩ ∧
      (∀ b ∈ loopModule.blocksOf ⟨0⟩, m'.reachedOf b = true → ∀ v ∈ loopModule.instsOf b,
        m'.transfer v = .ok (m'.knownOf v)) ∧
      loopModule.pessimistic.Closed ⟨0⟩ ∧
      ∀ b ∈ loopModule.blocksOf ⟨0⟩, m'.reachedOf b = true → ∀ v ∈ loopModule.instsOf b,
        loopModule.pessimistic.knownOf v ≤ m'.knownOf v := by
  obtain ⟨n, m', hsolve, -, hclosed, hknown, hgreatest⟩ := solve_greatest (m := loopModule)
    (f := ⟨0⟩) ⟨loopActions, rfl⟩ (by decide +kernel) (by decide +kernel) (by decide +kernel)
    (by decide +kernel) (by decide +kernel)
  have hpess : loopModule.pessimistic.Closed ⟨0⟩ := by
    constructor <;> decide +kernel
  exact ⟨n, m', hsolve, hclosed, hknown, hpess, fun b hb hr => (hgreatest _
    (skeleton_pessimistic _) (knownOf_pessimistic_le _) hpess b hb hr).2⟩

/-- Calls that build a function of three blocks. The second one adds two constants and branches by a
comparison that stands in the first. -/
def midwayActions : List Action := [
  .addFunction "f" .void [], .addBlock ⟨0⟩ "entry", .addBlock ⟨0⟩ "mid", .addBlock ⟨0⟩ "exit",
  .build ⟨0⟩ (.i32 1), .build ⟨0⟩ (.compare .eq ⟨3⟩ ⟨3⟩), .build ⟨0⟩ (.br ⟨1⟩),
  .build ⟨1⟩ (.binary .add ⟨3⟩ ⟨3⟩), .build ⟨1⟩ (.condBr ⟨4⟩ ⟨2⟩ ⟨1⟩), .build ⟨2⟩ (.ret none)]

/-- The module that `midwayActions` build. -/
def midwayModule : Module := (midwayActions.foldlM Action.run {}).toOption.getD {}

/-- The same module, except that the second block has no first instruction. -/
def headlessModule : Module := midwayModule.setBlock ⟨1⟩
  { name := "mid", func := ⟨0⟩, label := ⟨1⟩, first := none, last := some ⟨7⟩ }

/-- It takes more than a clean verdict and uses that mirror operands: a block that has lost its first
instruction is accepted. The walk along it meets nothing, so that nothing is learnt of the sum in
it, although the block is marked and the operands of the sum tell what it is. Its branch is visited
all the same, as a user of the comparison, and marks a block that a closed state need not mark. -/
theorem solve_misses_headless :
    headlessModule.Mirrored ∧ headlessModule.verify = .ok none ∧ headlessModule.PhisListPreds ⟨0⟩ ∧
      headlessModule.OperandsLocal ⟨0⟩ ∧ (∀ x ∈ headlessModule.values, x.known = x.kind.initial) ∧
      ∃ n m', headlessModule.solve ⟨0⟩ = .ok (n, m') ∧
        ((m'.linkOf ⟨6⟩).block = some ⟨1⟩ ∧ m'.reachedOf ⟨1⟩ = true ∧
          m'.transfer ⟨6⟩ = .ok (.const 2) ∧ m'.knownOf ⟨6⟩ = .top) ∧
        m'.reachedOf ⟨2⟩ = true ∧
          ∃ t : Module, t.skeleton = headlessModule.skeleton ∧
            (∀ v, t.knownOf v ≤ headlessModule.initialOf v) ∧ t.Closed ⟨0⟩ ∧
            t.reachedOf ⟨2⟩ = false := by
  have hbuilt : midwayModule.Built := ⟨midwayActions, rfl⟩
  have hset {m : Module} {x : Block} (h : m.Mirrored) : (m.setBlock ⟨1⟩ x).Mirrored :=
    h.congr rfl rfl
  refine ⟨hset hbuilt.mirrored, by decide +kernel, by decide +kernel, by decide +kernel,
    by decide +kernel, ?_⟩
  obtain ⟨⟨n, m'⟩, hsolve, hsum, hexit⟩ := exists_eq_ok (x := headlessModule.solve ⟨0⟩)
    (p := fun r => ((r.2.linkOf ⟨6⟩).block = some ⟨1⟩ ∧ r.2.reachedOf ⟨1⟩ = true ∧
      r.2.transfer ⟨6⟩ = .ok (.const 2) ∧ r.2.knownOf ⟨6⟩ = .top) ∧ r.2.reachedOf ⟨2⟩ = true)
    (by decide +kernel)
  -- all is marked but the third block, and nothing is known of any value
  have hx : headlessModule.pessimistic.blocks[2]? =
      some ⟨"exit", ⟨0⟩, ⟨2⟩, true, some ⟨8⟩, some ⟨8⟩⟩ := by decide +kernel
  refine ⟨n, m', hsolve, hsum, hexit, _, (skeleton_setBlock (b := ⟨2⟩) hx false).trans
    (skeleton_pessimistic _), knownOf_pessimistic_le _, ?_, by decide +kernel⟩
  constructor <;> decide +kernel

end Module

end SsaCodegen
