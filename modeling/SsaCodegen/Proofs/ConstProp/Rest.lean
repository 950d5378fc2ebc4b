import SsaCodegen.Proofs.ConstProp.Greatest
import SsaCodegen.Proofs.ConstProp.Optimized

/-!
# The passes are done after one run

A function is *at rest* when constant propagation over it has nothing to add and nothing in it is
left to fold. Its marks and lattice values are then a solution, and no block is marked but those that
branches lead to from the entry, by what is known of their conditions. Propagation and folding bring
a function to rest, and they leave every other function at rest that was, provided that functions do
not use each other's instructions.

Over a module whose functions are all at rest, the solver takes away the marks of a function and puts
the same ones back. On the way fewer blocks are marked than at the end, so phis see fewer incoming
values and their operands tell more than is known of them already: no lattice value moves.

## Main definitions

* `Module.Grounded` — branches lead to a block from the entry of a function
* `Module.AtRest` — a function that another run has nothing to do at
* `Module.UsesOwn` — functions do not use each other's instructions

## Main results

* `Module.Tidy.foldFunction` — propagation and folding bring a function to rest
* `Module.Tidy.foldFunction_of_atRest` — at rest they change nothing
* `Module.optimize_again` — a second run of the passes leaves the module as it is
-/

namespace SsaCodegen

namespace Module

/-! ## Where branches lead -/

/-- A branch in a block can go to another block, by what is known of its condition. -/
def Goes (m : Module) (lists : BlockId → List ValueId) (b c : BlockId) : Prop :=
  ∃ v ∈ lists b, m.kindOf v = some (.inst .br) ∧ c ∈ m.headsOf v

/-- Branches lead to a block from the entry of a function. -/
inductive Grounded (m : Module) (lists : BlockId → List ValueId) (f : FuncId) : BlockId → Prop
  | entry {b} (h : (m.blocksOf f).head? = some b) : Grounded m lists f b
  | goes {b c} (hb : Grounded m lists f b) (h : m.Goes lists b c) : Grounded m lists f c

variable {m m' : Module} {lists lists' : BlockId → List ValueId} {f : FuncId} {b : BlockId}

theorem Grounded.funcOf (hm : WellFormed m lists) (h : m.Grounded lists f b) :
    m.funcOf b = some f := by
  induction h with
  | entry h => exact hm.owned.mem_blocksOf.1 (List.mem_of_head? h)
  | goes _ h ih =>
    obtain ⟨v, hv, hk, hc⟩ := h
    exact hm.headsOf_subset ih hv hk hc

theorem Grounded.mono (hm : WellFormed m lists) (hblocks : m'.blocksOf f = m.blocksOf f)
    (hgoes : ∀ {b c}, m.funcOf b = some f → m.Goes lists b c → m'.Goes lists' b c)
    (h : m.Grounded lists f b) : m'.Grounded lists' f b := by
  induction h with
  | entry h => exact .entry (hblocks ▸ h)
  | goes hb h ih => exact .goes ih (hgoes (hb.funcOf hm) h)

/-- In a solution all blocks that branches lead to are marked. -/
theorem Solved.reached_of_grounded (h : m.Solved lists f) (hm : WellFormed m lists)
    (hb : m.Grounded lists f b) : m.reachedOf b = true := by
  induction hb with
  | entry hb => exact (h.closed hm).entry _ hb
  | goes hb hgoes ih =>
    obtain ⟨v, hv, hk, hc⟩ := hgoes
    exact h.heads ⟨_, hb.funcOf hm, ih, hv⟩ hk _ hc

end Module

namespace Solver

open SsaCodegen.Module

variable {lists : BlockId → List ValueId} {f : FuncId} {s s' : Solver}

/-- Branches lead to the blocks of a function that are marked or wait. -/
def Rooted (lists : BlockId → List ValueId) (f : FuncId) (s : Solver) : Prop :=
  ∀ b, s.module.funcOf b = some f → s.module.reachedOf b = true ∨ b ∈ s.blocks →
    s.module.Grounded lists f b

theorem Move.rooted (hm : WellFormed s.module lists) (h : Move lists s s')
    (hs : Rooted lists f s) : Rooted lists f s' := by
  have hskel := h.learns.skeleton_eq
  -- conditions are known to be less and less, so that branches lead to more and more blocks
  have hmono {b : BlockId} (hb : s.module.Grounded lists f b) : s'.module.Grounded lists f b := by
    refine hb.mono hm (by rw [blocksOf_of_skeleton hskel]) fun _ hgoes => ?_
    obtain ⟨v, hv, hk, hc⟩ := hgoes
    refine ⟨v, hv, ?_, headsOf_mono hskel (fun o _ => h.knownOf_le hm o) hc⟩
    rw [kindOf_of_skeleton hskel]
    exact hk
  intro c hc hor
  rw [funcOf_of_skeleton hskel] at hc
  refine hmono ?_
  cases h with
  | wait => exact hs c hc hor
  | drop => exact hs c hc (hor.imp_right (List.mem_cons_of_mem _))
  | @enter m m' b blocks values h =>
    refine hs c hc (hor.elim (fun hr => ?_) fun hmem => .inr (List.mem_cons_of_mem _ hmem))
    replace hr : m'.reachedOf c = true := hr
    rw [reachedOf_setReachable h] at hr
    split at hr
    · rename_i hcb
      exact .inr (by simp [hcb])
    · exact .inl hr
  | lower _ _ h =>
    refine hs c hc (hor.imp_left fun hr => ?_)
    exact (congrFun (reachedOf_propagate h) c).symm.trans hr
  | @branch m b c' v blocks values hr hv hk hhead =>
    rcases hor with hr' | hmem
    · exact hs c hc (.inl hr')
    rcases List.mem_cons.1 hmem with rfl | hmem
    · obtain ⟨g, hb⟩ := hm.exists_funcOf_of_mem hv
      cases (hm.headsOf_subset hb hv hk hhead).symm.trans hc
      exact .goes (hs b hb (.inl hr)) ⟨v, hv, hk, hhead⟩
    · exact hs c hc (.inr hmem)

end Solver

namespace Module

variable {m m' : Module} {lists lists' : BlockId → List ValueId} {f g : FuncId} {b c : BlockId}
  {v o : ValueId} {n : Nat} {sub : ValueId → ValueId}

/-! ## One more run of the solver -/

section Solve

variable {entry : BlockId} (hm : WellFormed m lists)
  (hentry : (m.blocksOf f).head? = some entry) (hsolve : m.solve f = .ok (n, m'))
include hentry hsolve

/-- The solver forgets the marks of a function and starts with its entry. -/
theorem run_of_solve : ∃ m₁, m.resetReachability f = .ok m₁ ∧ m₁.skeleton = m.skeleton ∧
    Solver.run ⟨m₁, [entry], []⟩ = .ok (n, m') := by
  obtain ⟨m₁, hreset, hstart⟩ := solve_start hsolve
  have hskel := (resetReachability_learns hreset).skeleton_eq
  refine ⟨m₁, hreset, hskel, ?_⟩
  rw [blocksOf_of_skeleton hskel] at hstart
  rcases hstart with hnone | ⟨b, hb, hrun⟩
  · rw [hnone] at hentry
    cases hentry
  · cases hentry.symm.trans hb
    exact hrun

include hm

/-- What every move keeps holds after the solver. -/
theorem solve_keeps_moves {P : Solver → Prop}
    (hmove : ∀ {s s' : Solver}, WellFormed s.module lists → Solver.Move lists s s' → P s → P s')
    (hs : ∀ m₁, m.resetReachability f = .ok m₁ → m₁.skeleton = m.skeleton → P ⟨m₁, [entry], []⟩) :
    P ⟨m', [], []⟩ := by
  obtain ⟨m₁, hreset, hskel, hrun⟩ := run_of_solve hentry hsolve
  exact Solver.run_keeps_moves hmove (hm.learns (resetReachability_learns hreset))
    (hs m₁ hreset hskel) hrun

theorem knownOf_le_of_solve (v : ValueId) : m'.knownOf v ≤ m.knownOf v := by
  refine solve_keeps_moves (P := fun s => s.module.knownOf v ≤ m.knownOf v) hm hentry hsolve
    (fun hm hmove hs => (hmove.knownOf_le hm v).trans hs) fun m₁ hreset _ => ?_
  exact le_of_eq (knownOf_of_reset hreset v)

/-- Marks outside of the function stay. -/
theorem reachedOf_of_solve (hb : m.funcOf b ≠ some f) (hr : m.reachedOf b = true) :
    m'.reachedOf b = true := by
  refine solve_keeps_moves (P := fun s => s.module.reachedOf b = true) hm hentry hsolve
    (fun _ hmove => hmove.reached) fun m₁ hreset _ => ?_
  show m₁.reachedOf b = true
  rw [reachedOf_resetReachability hreset, if_neg fun hmem => hb (hm.owned.mem_blocksOf.1 hmem)]
  exact hr

/-- Branches lead to all blocks of the function that are marked. -/
theorem grounded_of_solve (hb : m'.funcOf b = some f) (hr : m'.reachedOf b = true) :
    m'.Grounded lists f b := by
  refine solve_keeps_moves (P := Solver.Rooted lists f) hm hentry hsolve
    (fun hm hmove => hmove.rooted hm) (fun m₁ hreset hskel c hc hor => ?_) b hb (.inl hr)
  rcases hor with hr' | hmem
  · replace hr' : m₁.reachedOf c = true := hr'
    replace hc : m.funcOf c = some f := funcOf_of_skeleton hskel ▸ hc
    rw [reachedOf_resetReachability hreset, if_pos (hm.owned.mem_blocksOf.2 hc)] at hr'
    cases hr'
  · rw [List.mem_singleton.1 hmem]
    refine .entry ?_
    rw [blocksOf_of_skeleton hskel]
    exact hentry

/-- A state that is closed at some functions is not overtaken there. -/
theorem above_self {funcs : FuncId → Prop} {values : ValueId → Prop}
    (hregion : Solver.Region m lists funcs values) (hclosed : ∀ g, funcs g → m.Closed g) :
    Solver.Above funcs values m ⟨m', [], []⟩ := by
  obtain ⟨m₁, hreset, hskel, hrun⟩ := run_of_solve hentry hsolve
  refine Solver.above_of_run (hm.learns (resetReachability_learns hreset))
    (hregion.of_skeleton hskel) hclosed ⟨hskel.symm, fun {c g} _ _ hr => ?_,
      fun {c g} hc hfunc hg => ?_, fun {v} _ => le_of_eq (knownOf_of_reset hreset v).symm⟩ hrun
  · replace hr : m₁.reachedOf c = true := hr
    rw [reachedOf_resetReachability hreset] at hr
    split at hr
    · cases hr
    · exact hr
  · replace hfunc : m.funcOf c = some g := funcOf_of_skeleton hskel ▸ hfunc
    rw [List.mem_singleton.1 hc] at hfunc ⊢
    cases (hm.owned.mem_blocksOf.1 (List.mem_of_head? hentry)).symm.trans hfunc
    exact (hclosed f hg).entry entry hentry

end Solve

/-! ## Functions at rest -/

/-- Constant propagation over a function has nothing to add, and nothing is left to fold. -/
structure AtRest (m : Module) (lists : BlockId → List ValueId) (f : FuncId) : Prop where
  solved : m.Solved lists f
  grounded : ∀ {b}, m.funcOf b = some f → m.reachedOf b = true → m.Grounded lists f b
  folded : ∀ {v n}, m.Live lists f v → ¬ m.Foldable v n

theorem AtRest.of_declaration (hm : WellFormed m lists) (hf : m.blocksOf f = []) :
    m.AtRest lists f := by
  have hnone (b : BlockId) : m.funcOf b ≠ some f := by
    rw [Ne, ← hm.owned.mem_blocksOf, hf]
    exact List.not_mem_nil
  have hlive {v : ValueId} : ¬ m.Live lists f v := fun ⟨b, hb, _⟩ => hnone b hb
  refine ⟨⟨fun {y b} hy hb => ?_, fun hv => absurd hv hlive, fun hv => absurd hv hlive⟩,
    fun {b} hb => absurd hb (hnone b), fun hv => absurd hv hlive⟩
  exact absurd (hm.owned.mem.2 ⟨y, hy, List.mem_of_head? hb⟩) (hnone b)

/-- A value stands in no block outside of a function. -/
def Within (m : Module) (lists : BlockId → List ValueId) (f : FuncId) (v : ValueId) : Prop :=
  ∀ b, v ∈ lists b → m.funcOf b = some f

/-- A function stays at rest as long as the marks of its blocks stay, and what is known of values
within it. -/
theorem AtRest.congr (h : m.AtRest lists f) (hm : WellFormed m lists)
    (hown : ∀ {b v o}, m.funcOf b = some f → v ∈ lists b → o ∈ m.operandsOf v →
      m.Within lists f o)
    (hskel : m'.skeleton = m.skeleton)
    (hknown : ∀ {v}, m.Within lists f v → m'.knownOf v = m.knownOf v)
    (hreached : ∀ {b}, m.funcOf b = some f → m'.reachedOf b = m.reachedOf b) :
    m'.AtRest lists f := by
  have hkind := kindOf_of_skeleton hskel
  have hfunc := funcOf_of_skeleton hskel
  have hfuncs := funcs_of_skeleton hskel
  have hself {b v} (hb : m.funcOf b = some f) (hv : v ∈ lists b) : m.Within lists f v :=
    fun c hc => hm.threads.eq_of_mem hv hc ▸ hb
  have hlive {v} (hv : m'.Live lists f v) : m.Live lists f v := by
    obtain ⟨b, hb, hr, hmem⟩ := hv
    rw [hfunc] at hb
    rw [hreached hb] at hr
    exact ⟨b, hb, hr, hmem⟩
  have hheads {b v} (hb : m.funcOf b = some f) (hv : v ∈ lists b) : m'.headsOf v = m.headsOf v :=
    headsOf_congr hskel fun o ho => hknown (hown hb hv ho)
  refine ⟨⟨fun {y b} hy hb => ?_, fun {v} hv => ?_, fun {v} hv hk c hc => ?_⟩,
    fun {b} hb hr => ?_, fun {v n} hv hfold => h.folded (hlive hv) (n := n) ?_⟩
  · rw [hfuncs] at hy
    rw [hreached (hm.owned.mem.2 ⟨y, hy, List.mem_of_head? hb⟩)]
    exact h.solved.entry hy hb
  · have hv := hlive hv
    obtain ⟨b, hb, -, hmem⟩ := id hv
    have htransfer : m'.transferOf v = m.transferOf v := by
      refine transferOf_congr hskel (fun o ho => hknown (hown hb hmem ho)) fun hphi i hi => ?_
      have hfits : m.PhiPairs f (m.operandsOf v) := hm.fits hb hmem (of_decide_eq_true hphi)
      exact hreached (hfits.funcOf hi)
    rw [Settled, hknown (hself hb hmem), htransfer]
    exact h.solved.settled hv
  · have hv := hlive hv
    obtain ⟨b, hb, -, hmem⟩ := id hv
    rw [hkind] at hk
    rw [hheads hb hmem] at hc
    rw [hreached (hm.headsOf_subset hb hmem hk hc)]
    exact h.solved.heads hv hk c hc
  · rw [hfunc] at hb
    rw [hreached hb] at hr
    refine (h.grounded hb hr).mono hm (by rw [blocksOf_of_skeleton hskel]) ?_
    rintro b c hb ⟨v, hv, hk, hc⟩
    refine ⟨v, hv, ?_, by rw [hheads hb hv]; exact hc⟩
    rw [hkind]
    exact hk
  · obtain ⟨b, hb, -, hmem⟩ := hlive hv
    rw [Foldable, hkind, hknown (hself hb hmem)] at hfold
    exact hfold

/-! ## Folding keeps solutions -/

namespace Folding

variable (h : Folding m lists f sub m') (hm : WellFormed m lists)
include h hm

/-- What is known of a value is known of what stands in its place. -/
theorem knownOf_sub (ho : o.idx < m.values.size) : m'.knownOf (sub o) = m.knownOf o := by
  by_cases hkept : sub o = o
  · rw [hkept, h.grown.knownOf ho]
  · obtain ⟨n, ⟨-, hn⟩, hk, -⟩ := h.gone hkept
    rw [(h.wellFormed hm).primed.knownOf_eq (by rw [hk]; nofun), initialOf, hk, hn]
    rfl

theorem headsOf_eq (hkept : sub v = v) : m'.headsOf v = m.headsOf v := by
  have hblock {o : ValueId} (ho : o ∈ m.operandsOf v) : m'.blockOf? (sub o) = m.blockOf? o :=
    (h.thinned hm).blockOf?_eq (hm.operand_lt ho)
  have hknown {o : ValueId} (ho : o ∈ m.operandsOf v) : m'.knownOf (sub o) = m.knownOf o :=
    h.knownOf_sub hm (hm.operand_lt ho)
  have hlabels : m'.headLabels v = (m.headLabels v).map sub ∧
      m.headLabels v ⊆ m.operandsOf v := by
    rw [headLabels, headLabels, h.operands hkept]
    rcases ho : m.operandsOf v with _ | ⟨x, _ | ⟨y, _ | ⟨z, _ | ⟨w, rest⟩⟩⟩⟩
    · exact ⟨rfl, fun _ => id⟩
    · exact ⟨rfl, fun _ => id⟩
    · exact ⟨rfl, fun _ => id⟩
    · simp only [List.map_cons, List.map_nil]
      rw [hknown (by simp [ho])]
      split
      · simp
      · split <;> simp
      · simp
    · exact ⟨rfl, fun _ => id⟩
  rw [headsOf, headsOf, hlabels.1, List.filterMap_map]
  exact List.filterMap_congr fun o ho => hblock (hlabels.2 ho)

theorem transferOf_eq (hkept : sub v = v) (hv : v.idx < m.values.size) :
    m'.transferOf v = m.transferOf v := by
  have hknown {o : ValueId} (ho : o ∈ m.operandsOf v) : m'.knownOf (sub o) = m.knownOf o :=
    h.knownOf_sub hm (hm.operand_lt ho)
  have hincoming : m'.reachedIncoming v = (m.reachedIncoming v).map sub := by
    rw [reachedIncoming, reachedIncoming, (h.thinned hm).incoming_eq hkept, List.filter_map,
      List.map_map, List.map_map, h.grown.reachedOf]
    rfl
  have hphi : (m'.reachedIncoming v).foldl (fun acc u => acc.meet (m'.knownOf u)) Constness.top =
      (m.reachedIncoming v).foldl (fun acc u => acc.meet (m.knownOf u)) Constness.top := by
    rw [hincoming, List.foldl_map]
    refine List.foldl_ext _ _ _ fun acc u hu => ?_
    obtain ⟨i, hi, rfl⟩ := List.mem_map.1 hu
    rw [hknown (mem_of_mem_incomingPairs (List.mem_filter.1 hi).1)]
  have hpair {eval : Int64 → Int64 → Option Int64} {x y : ValueId} (ho : m.operandsOf v = [x, y]) :
      Constness.combine eval (m'.knownOf (sub x)) (m'.knownOf (sub y)) =
        .combine eval (m.knownOf x) (m.knownOf y) := by
    rw [hknown (by simp [ho]), hknown (by simp [ho])]
  rw [transferOf, transferOf, h.grown.kindOf hv, h.operands hkept]
  cases m.kindOf v with
  | none => rfl
  | some kind =>
    cases kind with
    | const | global | param | block => rfl
    | inst k =>
      cases k with
      | phi => exact hphi
      | sext | cast =>
        rcases ho : m.operandsOf v with _ | ⟨x, _ | ⟨y, rest⟩⟩
        · rfl
        · exact hknown (by simp [ho])
        · rfl
      | binary | compare =>
        rcases ho : m.operandsOf v with _ | ⟨x, _ | ⟨y, _ | ⟨z, rest⟩⟩⟩
        · rfl
        · rfl
        · exact hpair ho
        · rfl
      | br | ret | load | store | gep | call | alloca => rfl

omit hm in
theorem live_iff : m'.Live (fun b => (lists b).filter fun v => sub v = v) g v ↔
    m.Live lists g v ∧ sub v = v := by
  simp only [Live, h.grown.funcOf, h.grown.reachedOf, List.mem_filter, decide_eq_true_eq]
  grind

theorem grounded (hb : m.Grounded lists g b) :
    m'.Grounded (fun b => (lists b).filter fun v => sub v = v) g b := by
  refine hb.mono hm (h.thinned hm).blocksOf_eq ?_
  rintro b c - ⟨v, hv, hk, hc⟩
  have hkept := h.sub_eq_of_not_pure hk rfl
  refine ⟨v, List.mem_filter.2 ⟨hv, decide_eq_true hkept⟩, ?_, ?_⟩
  · rw [h.grown.kindOf (lt_of_kindOf hk)]
    exact hk
  · rw [h.headsOf_eq hm hkept]
    exact hc

theorem solved (hs : m.Solved lists g) :
    m'.Solved (fun b => (lists b).filter fun v => sub v = v) g := by
  refine ⟨fun {y b} hy hb => ?_, fun {v} hv => ?_, fun {v} hv hk c hc => ?_⟩
  · rw [h.grown.funcs] at hy
    rw [h.grown.reachedOf]
    exact hs.entry hy hb
  · obtain ⟨hv, hkept⟩ := h.live_iff.1 hv
    obtain ⟨b, -, -, hmem⟩ := id hv
    have hlt := hm.threads.lt_of_mem hmem
    rw [Settled, h.grown.knownOf hlt, h.transferOf_eq hm hkept hlt]
    exact hs.settled hv
  · obtain ⟨hv, hkept⟩ := h.live_iff.1 hv
    obtain ⟨b, -, -, hmem⟩ := id hv
    rw [h.grown.kindOf (hm.threads.lt_of_mem hmem)] at hk
    rw [h.headsOf_eq hm hkept] at hc
    rw [h.grown.reachedOf]
    exact hs.heads hv hk c hc

/-- After folding a function is at rest if propagation had nothing to add, and all that could be
folded is gone. -/
theorem atRest (hs : m.Solved lists g)
    (hground : ∀ {b}, m.funcOf b = some g → m.reachedOf b = true → m.Grounded lists g b)
    (hgone : ∀ {v n}, m.Live lists g v → m.Foldable v n → sub v ≠ v) :
    m'.AtRest (fun b => (lists b).filter fun v => sub v = v) g := by
  refine ⟨h.solved hm hs, fun {b} hb hr => ?_, fun {v n} hv hfold => ?_⟩
  · rw [h.grown.funcOf] at hb
    rw [h.grown.reachedOf] at hr
    exact h.grounded hm (hground hb hr)
  · obtain ⟨hv, hkept⟩ := h.live_iff.1 hv
    obtain ⟨b, -, -, hmem⟩ := id hv
    have hlt := hm.threads.lt_of_mem hmem
    rw [Foldable, h.grown.kindOf hlt, h.grown.knownOf hlt] at hfold
    exact hgone hv hfold hkept

end Folding

/-! ## What the passes ask of a module -/

/-- The functions of a module do not use each other's instructions. -/
def UsesOwn (m : Module) : Prop :=
  ∀ f ∈ m.bodies, ∀ b ∈ m.blocksOf f, ∀ v ∈ m.instsOf b, ∀ o ∈ m.operandsOf v,
    ∀ g ∈ m.bodies, ∀ c ∈ m.blocksOf g, o ∈ m.instsOf c → g = f

instance (m : Module) : Decidable m.UsesOwn :=
  inferInstanceAs (Decidable (∀ f ∈ m.bodies, ∀ b ∈ m.blocksOf f, ∀ v ∈ m.instsOf b,
    ∀ o ∈ m.operandsOf v, ∀ g ∈ m.bodies, ∀ c ∈ m.blocksOf g, o ∈ m.instsOf c → g = f))

/-- A well-formed module in which phis list only predecessors and instructions use none of other
functions. -/
structure Tidy (m : Module) (lists : BlockId → List ValueId) : Prop where
  wellFormed : WellFormed m lists
  phis : ∀ f, m.PhisListPreds f
  own : ∀ {f b v o}, m.funcOf b = some f → v ∈ lists b → o ∈ m.operandsOf v → m.Within lists f o

theorem mem_bodies_of_funcOf (hm : WellFormed m lists) (hb : m.funcOf b = some f) :
    f ∈ m.bodies := by
  obtain ⟨y, hy, hmem⟩ := hm.owned.mem.1 hb
  refine mem_bodies.2 ⟨y, hy, ?_⟩
  rw [Func.isDeclaration, List.isEmpty_eq_false_iff]
  exact List.ne_nil_of_mem hmem

theorem WellFormed.tidy (hm : WellFormed m lists) (hphis : ∀ f ∈ m.bodies, m.PhisListPreds f)
    (hown : m.UsesOwn) : Tidy m lists where
  wellFormed := hm
  phis f b hb :=
    hphis f (mem_bodies_of_funcOf hm (hm.owned.mem_blocksOf.1 hb)) b hb
  own {f b v o} hb hv ho c hc := by
    obtain ⟨g, hg⟩ := hm.exists_funcOf_of_mem hc
    have hgf : g = f := hown f (mem_bodies_of_funcOf hm hb) b (hm.owned.mem_blocksOf.2 hb) v
      (by rw [hm.instsOf_eq hb]; exact hv) o ho g (mem_bodies_of_funcOf hm hg) c
      (hm.owned.mem_blocksOf.2 hg) (by rw [hm.instsOf_eq hg]; exact hc)
    rw [hg, hgf]

theorem Thinned.phisListPreds (h : Thinned m lists sub m') (hp : m.PhisListPreds f) :
    m'.PhisListPreds f := by
  intro b hb v hv hphi i hi
  rw [h.blocksOf_eq] at hb
  rw [h.instsOf_eq, List.mem_filter, decide_eq_true_eq] at hv
  obtain ⟨hv, hkept⟩ := hv
  have hfunc := h.before.owned.mem_blocksOf.1 hb
  have hmem : v ∈ lists b := h.before.instsOf_eq hfunc ▸ hv
  have hphi : m.isPhi v = true := by
    obtain ⟨k, hk⟩ := h.before.threads.inst hmem
    rw [isPhi, h.kind hk, ← hk] at hphi
    exact hphi
  rw [h.incoming_eq hkept] at hi
  obtain ⟨j, hj, rfl⟩ := List.mem_map.1 hi
  have hfits : m.PhiPairs f (m.operandsOf v) := h.before.fits hfunc hmem (of_decide_eq_true hphi)
  rw [h.succsOf_eq (hfits.funcOf hj)]
  exact hp b hb v hv hphi j hj

theorem Thinned.tidy (h : Thinned m lists sub m') (ht : Tidy m lists) :
    Tidy m' fun b => (lists b).filter fun v => sub v = v where
  wellFormed := h.after
  phis f := h.phisListPreds (ht.phis f)
  own {f b v o} hb hv ho c hc := by
    rw [h.funcOf_eq] at hb ⊢
    obtain ⟨hv, hkept⟩ := List.mem_filter.1 hv
    rw [h.operands (of_decide_eq_true hkept)] at ho
    obtain ⟨u, hu, rfl⟩ := List.mem_map.1 ho
    -- what stands in a block is no constant, so nothing stands in the place of the operand
    have hsub : sub u = u := by
      by_contra hne
      obtain ⟨-, -, n, hk⟩ := h.gone hne
      obtain ⟨k, hk'⟩ := h.after.threads.inst hc
      cases hk.symm.trans hk'
    rw [hsub] at hc
    exact ht.own hb hv hu c (List.mem_filter.1 hc).1

/-! ## The first run -/

namespace Tidy

variable {entry : BlockId}

theorem of_learns (ht : Tidy m lists) (hl : Learns m m') : Tidy m' lists := by
  have hthin := Thinned.of_skeleton hl.skeleton_eq ht.wellFormed (ht.wellFormed.learns hl)
  simpa using hthin.tidy ht

theorem region (ht : Tidy m lists) (f : FuncId) :
    Solver.Region m lists (· = f) (m.Within lists f) where
  placed hv hb := ⟨f, hv _ hb, rfl⟩
  uses hb hf hv ho := ht.own (hf ▸ hb) hv ho

/-- Propagation over a function leaves every other function at rest that was. -/
theorem atRest_of_solve (ht : Tidy m lists) (hentry : (m.blocksOf f).head? = some entry)
    (hsolve : m.solve f = .ok (n, m')) (hne : g ≠ f) (hg : m.AtRest lists g) :
    m'.AtRest lists g := by
  have hm := ht.wellFormed
  have hskel := (solve_learns hsolve).skeleton_eq
  have habove := above_self hm hentry hsolve (ht.region g)
    fun _ heq => heq ▸ hg.solved.closed hm
  refine hg.congr hm ht.own hskel (fun {v} hv => ?_) fun {b} hb => ?_
  · exact le_antisymm (knownOf_le_of_solve hm hentry hsolve v) (habove.known hv)
  · have hbf : m.funcOf b ≠ some f := fun hf => hne (Option.some.inj (hb.symm.trans hf))
    refine Bool.eq_iff_iff.2 ⟨fun hr => ?_, reachedOf_of_solve hm hentry hsolve hbf⟩
    exact habove.reached (funcOf_of_skeleton hskel ▸ hb) rfl hr

/-- Propagation and folding bring a function to rest, and leave every other function at rest that
was. -/
theorem foldFunction (ht : Tidy m lists) (hentry : (m.blocksOf f).head? = some entry) :
    ∃ changed m' lists', m.foldFunction f = .ok (.ok changed, m') ∧ Tidy m' lists' ∧
      m'.funcs = m.funcs ∧ ∀ g, g = f ∨ m.AtRest lists g → m'.AtRest lists' g := by
  have hm := ht.wellFormed
  obtain ⟨y, hy, -⟩ := hm.owned.mem.1 (hm.owned.mem_blocksOf.1 (List.mem_of_head? hentry))
  obtain ⟨n, m₁, hsolve, hlearns, hsolved⟩ := hm.solve (hm.predsListed (ht.phis f)) hy
  have ht₁ := ht.of_learns hlearns
  have hm₁ := ht₁.wellFormed
  have hfuncs := funcs_of_skeleton hlearns.skeleton_eq
  obtain ⟨count, sub, m₂, hfold, hfolding, hgone⟩ :=
    hm₁.foldConstants_all (f := f) (by rw [hfuncs]; exact hy)
  refine ⟨decide (count > 0), m₂, _, bind_eq_ok.2 ⟨_, hsolve, bind_eq_ok.2 ⟨_, hfold, rfl⟩⟩,
    (hfolding.thinned hm₁).tidy ht₁, hfolding.grown.funcs.trans hfuncs, fun g hg => ?_⟩
  by_cases hgf : g = f
  · subst hgf
    exact hfolding.atRest hm₁ hsolved (grounded_of_solve hm hentry hsolve) hgone
  · have hrest := ht.atRest_of_solve hentry hsolve hgf (hg.resolve_left hgf)
    exact hfolding.atRest hm₁ hrest.solved hrest.grounded
      fun hv hfold => absurd hfold (hrest.folded hv)

/-- One function after the other is brought to rest. -/
theorem foldFunctions {funcs : List FuncId} (acc : Bool) (ht : Tidy m lists)
    (hf : ∀ f ∈ funcs, ∃ entry, (m.blocksOf f).head? = some entry) :
    ∃ changed m' lists', editFold Module.foldFunction or acc m funcs = .ok (.ok changed, m') ∧
      Tidy m' lists' ∧ m'.funcs = m.funcs ∧
      ∀ g, g ∈ funcs ∨ m.AtRest lists g → m'.AtRest lists' g := by
  induction funcs generalizing m lists acc with
  | nil => exact ⟨acc, m, lists, rfl, ht, rfl, fun g hg => hg.resolve_left List.not_mem_nil⟩
  | cons f rest ih =>
    obtain ⟨⟨entry, hentry⟩, hrest⟩ := List.forall_mem_cons.1 hf
    obtain ⟨changed, m₁, lists₁, hfold, ht₁, hfuncs, hat₁⟩ := ht.foldFunction hentry
    obtain ⟨changed', m', lists', hfolds, ht', hfuncs', hat⟩ := ih (acc || changed) ht₁
      (by simpa only [blocksOf, hfuncs] using hrest)
    refine ⟨changed', m', lists', bind_eq_ok.2 ⟨_, hfold, hfolds⟩, ht', hfuncs'.trans hfuncs,
      fun g hg => hat g ?_⟩
    rw [List.mem_cons] at hg
    rcases hg with (rfl | hg) | hg
    · exact .inr (hat₁ g (.inl rfl))
    · exact .inl hg
    · exact .inr (hat₁ g (.inr hg))

end Tidy

/-! ## The second run -/

/-- Edits that change nothing and give nothing to gather. -/
theorem editFold_unchanged {edit : Module → α → Except Fault (Edited β)} {gather : γ → β → γ}
    {acc : γ} {r : β} {l : List α} (hedit : ∀ a ∈ l, edit m a = .ok (.ok r, m))
    (hgather : gather acc r = acc) : editFold edit gather acc m l = .ok (.ok acc, m) := by
  induction l with
  | nil => rfl
  | cons a rest ih =>
    obtain ⟨ha, hrest⟩ := List.forall_mem_cons.1 hedit
    refine bind_eq_ok.2 ⟨_, ha, ?_⟩
    dsimp only
    rw [hgather]
    exact ih hrest

/-- Modules with the same skeleton, the same lattice values and the same marks are the same. -/
theorem eq_of_skeleton (h : m'.skeleton = m.skeleton) (hknown : ∀ v, m'.knownOf v = m.knownOf v)
    (hreached : ∀ b, m'.reachedOf b = m.reachedOf b) : m' = m := by
  have hvalues : m'.values = m.values := by
    refine Array.ext_getElem? fun i => ?_
    have hx : m'.skeleton.values[i]? = m.skeleton.values[i]? := by rw [h]
    have hk := hknown ⟨i⟩
    rw [skeleton_values, skeleton_values] at hx
    simp only [knownOf, valueField] at hk
    generalize m'.values[i]? = x' at hx hk ⊢
    generalize m.values[i]? = x at hx hk ⊢
    rcases x' with _ | x' <;> rcases x with _ | x
    · rfl
    · cases hx
    · cases hx
    · cases x
      cases x'
      simp_all
  have hblocks : m'.blocks = m.blocks := by
    refine Array.ext_getElem? fun i => ?_
    have hx : m'.skeleton.blocks[i]? = m.skeleton.blocks[i]? := by rw [h]
    have hr := hreached ⟨i⟩
    rw [skeleton_blocks, skeleton_blocks] at hx
    simp only [reachedOf, blockField] at hr
    generalize m'.blocks[i]? = x' at hx hr ⊢
    generalize m.blocks[i]? = x at hx hr ⊢
    rcases x' with _ | x' <;> rcases x with _ | x
    · rfl
    · cases hx
    · cases hx
    · cases x
      cases x'
      simp_all
  calc m' = { m'.skeleton with values := m'.values, blocks := m'.blocks } := rfl
    _ = { m.skeleton with values := m.values, blocks := m.blocks } := by rw [h, hvalues, hblocks]
    _ = m := rfl

theorem reachedOf_of_funcOf_none (h : m.funcOf b = none) : m.reachedOf b = false := by
  rw [funcOf, blockField] at h
  rw [reachedOf, blockField]
  cases hx : m.blocks[b.idx]? with
  | none => rfl
  | some x =>
    rw [hx] at h
    cases h

namespace Tidy

variable {entry : BlockId}

variable (ht : Tidy m lists) (hrest : ∀ g, m.AtRest lists g)
include ht hrest

/-- The solver takes the marks of a function away and puts them back. -/
theorem solve_of_atRest (hentry : (m.blocksOf f).head? = some entry) :
    ∃ n, m.solve f = .ok (n, m) := by
  have hm := ht.wellFormed
  obtain ⟨y, hy, -⟩ := hm.owned.mem.1 (hm.owned.mem_blocksOf.1 (List.mem_of_head? hentry))
  obtain ⟨n, m', hsolve, hlearns, hsolved⟩ := hm.solve (hm.predsListed (ht.phis f)) hy
  have hskel := hlearns.skeleton_eq
  have hm' := hm.learns hlearns
  have hregion : Solver.Region m lists (fun _ => True) fun _ => True :=
    ⟨fun _ hb => (hm.exists_funcOf_of_mem hb).imp fun _ hg => ⟨hg, trivial⟩, fun _ _ _ _ => trivial⟩
  have habove := above_self hm hentry hsolve hregion fun g _ => (hrest g).solved.closed hm
  have hknown (v : ValueId) : m'.knownOf v = m.knownOf v :=
    le_antisymm (knownOf_le_of_solve hm hentry hsolve v) (habove.known trivial)
  suffices heq : m' = m from ⟨n, heq ▸ hsolve⟩
  refine eq_of_skeleton hskel hknown fun b => ?_
  cases hb : m.funcOf b with
  | none =>
    have hb' : m'.funcOf b = none := funcOf_of_skeleton hskel ▸ hb
    rw [reachedOf_of_funcOf_none hb, reachedOf_of_funcOf_none hb']
  | some g =>
    refine Bool.eq_iff_iff.2 ⟨habove.reached (funcOf_of_skeleton hskel ▸ hb) trivial, fun hr => ?_⟩
    by_cases hgf : g = f
    · subst hgf
      -- branches lead to the block by what was known, and no less is known now
      refine hsolved.reached_of_grounded hm' (((hrest g).grounded hb hr).mono hm ?_ ?_)
      · rw [blocksOf_of_skeleton hskel]
      · rintro b c - ⟨v, hv, hk, hc⟩
        refine ⟨v, hv, ?_, ?_⟩
        · rw [kindOf_of_skeleton hskel]
          exact hk
        · rw [headsOf_congr hskel fun o _ => hknown o]
          exact hc
    · exact reachedOf_of_solve hm hentry hsolve (by rw [hb]; simpa using hgf) hr

/-- Nothing is folded. -/
theorem foldConstants_of_atRest {y : Func} (hy : m.funcs[f.idx]? = some y) :
    m.foldConstants f = .ok (.ok 0, m) := by
  have hm := ht.wellFormed
  refine bind_eq_ok.2 ⟨y, lookupOr_eq_ok.2 hy, editFold_unchanged (r := 0) (fun b hb => ?_) rfl⟩
  have hfunc := hm.owned.mem.2 ⟨y, hy, hb⟩
  obtain ⟨x, hx, hr, -⟩ := block_eq (lt_of_funcOf hfunc)
  refine bind_eq_ok.2 ⟨x, hx, ?_⟩
  split
  · rename_i hreached
    refine bind_eq_ok.2 ⟨_, hm.insts hfunc, editFold_unchanged (r := 0) (fun v hv => ?_) rfl⟩
    rcases foldInst_eq hm.threads hm.mirrored hv with ⟨heq, -⟩ | ⟨n, -, hfold, -⟩
    · exact heq
    · exact absurd hfold ((hrest f).folded ⟨b, hfunc, hr.trans hreached, hv⟩)
  · rfl

theorem foldFunction_of_atRest (hentry : (m.blocksOf f).head? = some entry) :
    m.foldFunction f = .ok (.ok false, m) := by
  have hm := ht.wellFormed
  obtain ⟨y, hy, -⟩ := hm.owned.mem.1 (hm.owned.mem_blocksOf.1 (List.mem_of_head? hentry))
  obtain ⟨n, hsolve⟩ := ht.solve_of_atRest hrest hentry
  exact bind_eq_ok.2 ⟨_, hsolve, bind_eq_ok.2 ⟨_, ht.foldConstants_of_atRest hrest hy, rfl⟩⟩

end Tidy

theorem exists_entry (hf : f ∈ m.bodies) : ∃ entry, (m.blocksOf f).head? = some entry := by
  obtain ⟨y, hy, hdef⟩ := mem_bodies.1 hf
  rw [Func.isDeclaration, List.isEmpty_eq_false_iff] at hdef
  rw [blocksOf_of_func hy]
  exact ⟨_, List.head?_eq_some_head hdef⟩

/-- After one run over all functions with a body all functions are at rest. -/
theorem Tidy.optimize (ht : Tidy m lists) :
    ∃ changed m' lists', m.optimize = .ok (.ok changed, m') ∧ Tidy m' lists' ∧
      ∀ g, m'.AtRest lists' g := by
  have hentries : ∀ f ∈ m.bodies, ∃ entry, (m.blocksOf f).head? = some entry := fun f hf =>
    exists_entry hf
  obtain ⟨changed, m', lists', hfolds, ht', -, hrest⟩ := ht.foldFunctions false hentries
  refine ⟨false || changed, m', lists', bind_eq_ok.2 ⟨_, hfolds, rfl⟩, ht', fun g => hrest g ?_⟩
  by_cases hg : g ∈ m.bodies
  · exact .inl hg
  · refine .inr (.of_declaration ht.wellFormed (List.eq_nil_iff_forall_not_mem.2 fun b hb => hg ?_))
    exact mem_bodies_of_funcOf ht.wellFormed (ht.wellFormed.owned.mem_blocksOf.1 hb)

/-- A module that was built and accepted is optimized in one run, if its phis list only predecessors
of their block and its functions do not use each other's instructions: the run ends with a module,
and a second run finds nothing to change and ends with exactly the same module. -/
theorem optimize_again (hbuilt : m.Built) (hverify : m.verify = .ok none)
    (hphis : ∀ f ∈ m.bodies, m.PhisListPreds f) (hown : m.UsesOwn) :
    ∃ changed m', m.optimize = .ok (.ok changed, m') ∧ m'.optimize = .ok (.ok false, m') := by
  obtain ⟨lists, hm⟩ := hbuilt.wellFormed hverify
  obtain ⟨changed, m', lists', hoptimize, ht', hrest⟩ := (hm.tidy hphis hown).optimize
  refine ⟨changed, m', hoptimize, ?_⟩
  have hfolds : editFold foldFunction or false m' m'.bodies = .ok (.ok false, m') := by
    refine editFold_unchanged (r := false) (fun f hf => ?_) rfl
    obtain ⟨entry, hentry⟩ := exists_entry hf
    exact ht'.foldFunction_of_atRest hrest hentry
  exact bind_eq_ok.2 ⟨_, hfolds, rfl⟩

/-- The function with the loop, and another that calls it. The other branches on a condition that is
constant, so one of its blocks is never marked and its phi has one incoming value that counts. -/
def callerActions : List Action := loopActions ++ [
  .addFunction "g" .i32 [],
  .addBlock ⟨1⟩ "entry", .addBlock ⟨1⟩ "dead", .addBlock ⟨1⟩ "done",
  .build ⟨4⟩ (.i32 7), .build ⟨4⟩ (.compare .slt ⟨18⟩ ⟨18⟩), .build ⟨4⟩ (.condBr ⟨19⟩ ⟨5⟩ ⟨6⟩),
  .build ⟨5⟩ (.binary .add ⟨18⟩ ⟨18⟩), .build ⟨5⟩ (.br ⟨6⟩),
  .build ⟨6⟩ (.phi .i32), .build ⟨6⟩ (.call ⟨0⟩ [⟨23⟩]), .build ⟨6⟩ (.ret (some ⟨24⟩)),
  .build ⟨6⟩ (.addIncoming ⟨23⟩ ⟨18⟩ ⟨4⟩), .build ⟨6⟩ (.addIncoming ⟨23⟩ ⟨21⟩ ⟨5⟩)]

/-- The module that `callerActions` build. -/
def callerModule : Module := (callerActions.foldlM Action.run {}).toOption.getD {}

/-- The first run folds something in it, and the second does not. -/
theorem optimize_again_caller :
    callerModule.Built ∧ callerModule.verify = .ok none ∧
      (∀ f ∈ callerModule.bodies, callerModule.PhisListPreds f) ∧ callerModule.UsesOwn ∧
      ∃ m', callerModule.optimize = .ok (.ok true, m') ∧ m'.optimize = .ok (.ok false, m') := by
  have hbuilt : callerModule.Built := ⟨callerActions, rfl⟩
  have hverify : callerModule.verify = .ok none := by decide +kernel
  have hphis : ∀ f ∈ callerModule.bodies, callerModule.PhisListPreds f := by decide +kernel
  have hown : callerModule.UsesOwn := by decide +kernel
  have hfirst : callerModule.optimize.toOption.map (·.1.toOption) = some (some true) := by
    decide +kernel
  obtain ⟨changed, m', h, hagain⟩ := optimize_again hbuilt hverify hphis hown
  rw [h] at hfirst
  cases hfirst
  exact ⟨hbuilt, hverify, hphis, hown, m', h, hagain⟩

end Module

end SsaCodegen
