import SsaCodegen.Compile
import SsaCodegen.Proofs.ConstProp.FoldedWord
import SsaCodegen.Proofs.Module.Accepted

/-!
# Optimized modules

The passes take every module that was built and accepted to one that is accepted again, and they
meet no fault and are never refused on the way. For the analysis this needs less than its
correctness does: whether phis list only predecessors matters to what it finds, and not to whether
it ends.

## Main results

* `Module.WellFormed.exists_solve` — the analysis of a well-formed module meets no fault
* `Module.WellFormed.exists_foldFunction` — propagation and folding keep a module well-formed
* `Module.optimize_accepted` — the passes end with a module that is accepted, so that compiling it
  comes as far as selection
-/

namespace SsaCodegen

open Target

/-- The invariant of the solver, for a function that the module does not have, asks for no more than
a well-formed module and sane stacks. -/
theorem Solver.Sane.invariant {s : Solver} {lists : BlockId → List ValueId} (hs : Sane s)
    (hm : Module.WellFormed s.module lists) : Invariant lists ⟨s.module.funcs.size⟩ s := by
  have hfunc (b : BlockId) : s.module.funcOf b ≠ some ⟨s.module.funcs.size⟩ := by
    intro hb
    obtain ⟨y, hy, -⟩ := hm.owned.mem.1 hb
    exact Nat.lt_irrefl _ (Array.getElem?_eq_some_iff.1 hy).1
  refine ⟨hm, fun c _ _ hc => absurd hc (hfunc c), hs, ?_, fun {y b} hy => ?_⟩
  · rintro v ⟨b, hb, -⟩
    exact absurd hb (hfunc b)
  · exact absurd (Array.getElem?_eq_some_iff.1 hy).1 (Nat.lt_irrefl _)

namespace Module

variable {m : Module} {lists : BlockId → List ValueId} {f : FuncId} {y : Func}

/-! ## One function -/

/-- The analysis of a function of a well-formed module meets no fault. -/
theorem WellFormed.exists_solve (hm : WellFormed m lists) (hy : m.funcs[f.idx]? = some y) :
    ∃ n m', m.solve f = .ok (n, m') ∧ Learns m m' := by
  obtain ⟨m₁, h₁, -⟩ := resetReachability_eq hm.owned hy
  have hlearns := resetReachability_learns h₁
  have hm₁ := hm.learns hlearns
  have hy₁ : m₁.funcs[f.idx]? = some y := by
    rw [funcs_of_skeleton hlearns.skeleton_eq]
    exact hy
  cases hentry : y.entry with
  | none =>
    refine ⟨0, m₁, bind_eq_ok.2 ⟨m₁, h₁, bind_eq_ok.2 ⟨y, lookupOr_eq_ok.2 hy₁, ?_⟩⟩, hlearns⟩
    rw [hentry]
    rfl
  | some entry =>
    have hfunc : m₁.funcOf entry = some f :=
      hm₁.owned.mem.2 ⟨y, hy₁, List.mem_of_head? hentry⟩
    have hsane : Solver.Sane ⟨m₁, [entry], []⟩ := ⟨by simpa using ⟨f, hfunc⟩, nofun⟩
    obtain ⟨n, m', hrun, -⟩ := Solver.run_invariant (hsane.invariant hm₁)
    refine ⟨n, m', bind_eq_ok.2 ⟨m₁, h₁, bind_eq_ok.2 ⟨y, lookupOr_eq_ok.2 hy₁, ?_⟩⟩,
      hlearns.trans (Solver.run_learns hrun)⟩
    rw [hentry]
    exact hrun

/-- Propagation and folding meet no fault in a well-formed module, are not refused and leave a
well-formed module with the same functions. -/
theorem WellFormed.exists_foldFunction (hm : WellFormed m lists) (hf : f.idx < m.funcs.size) :
    ∃ changed m' lists', m.foldFunction f = .ok (.ok changed, m') ∧ WellFormed m' lists' ∧
      m'.funcs = m.funcs := by
  have hy := Array.getElem?_eq_getElem hf
  obtain ⟨n, m₁, hsolve, hlearns⟩ := hm.exists_solve hy
  have hm₁ := hm.learns hlearns
  have hfuncs := funcs_of_skeleton hlearns.skeleton_eq
  obtain ⟨count, sub, m₂, hfold, hfolding⟩ := hm₁.foldConstants (by rw [hfuncs]; exact hy)
  exact ⟨decide (count > 0), m₂, _, bind_eq_ok.2 ⟨_, hsolve, bind_eq_ok.2 ⟨_, hfold, rfl⟩⟩,
    hfolding.wellFormed hm₁, hfolding.grown.funcs.trans hfuncs⟩

/-! ## All functions -/

theorem WellFormed.exists_foldFunctions {funcs : List FuncId} (acc : Bool)
    (hm : WellFormed m lists) (hf : ∀ f ∈ funcs, f.idx < m.funcs.size) :
    ∃ changed m' lists', editFold foldFunction or acc m funcs = .ok (.ok changed, m') ∧
      WellFormed m' lists' := by
  induction funcs generalizing m lists acc with
  | nil => exact ⟨acc, m, lists, rfl, hm⟩
  | cons f rest ih =>
    obtain ⟨hlt, hrest⟩ := List.forall_mem_cons.1 hf
    obtain ⟨changed, m₁, lists₁, hfold, hm₁, hfuncs⟩ := hm.exists_foldFunction hlt
    obtain ⟨changed', m', lists', hfolds, hm'⟩ := ih (acc || changed) hm₁ (hfuncs ▸ hrest)
    exact ⟨changed', m', lists', bind_eq_ok.2 ⟨_, hfold, hfolds⟩, hm'⟩

/-- The passes meet no fault in a well-formed module, are not refused and leave a well-formed
module. -/
theorem WellFormed.exists_optimize (hm : WellFormed m lists) :
    ∃ changed m' lists', m.optimize = .ok (.ok changed, m') ∧ WellFormed m' lists' := by
  have hlt : ∀ f ∈ m.bodies, f.idx < m.funcs.size := by
    intro f hf
    obtain ⟨y, hy, -⟩ := mem_bodies.1 hf
    exact (Array.getElem?_eq_some_iff.1 hy).1
  obtain ⟨changed, m', lists', hfolds, hm'⟩ := hm.exists_foldFunctions false hlt
  exact ⟨false || changed, m', lists', bind_eq_ok.2 ⟨_, hfolds, rfl⟩, hm'⟩

theorem checkIf_eq (h : m.verify = .ok none) (wanted : Bool) :
    m.checkIf wanted = .ok (.ok (), m) := by
  cases wanted with
  | false => rfl
  | true => exact bind_eq_ok.2 ⟨none, h, rfl⟩

/-- A module that was built and accepted is optimized without fault or refusal into one that is
accepted. So compiling it never ends before selection: both verdicts are clean, and the output is
what is emitted for the optimized module. -/
theorem optimize_accepted (hbuilt : m.Built) (hverify : m.verify = .ok none) :
    ∃ changed m', m.optimize = .ok (.ok changed, m') ∧ m'.verify = .ok none ∧
      ∀ (opts : CompileOptions) (t : Spec), m.compile opts t =
        if opts.foldConstants then return (← m'.emit opts t, m')
        else return (← m.emit opts t, m) := by
  obtain ⟨lists, hm⟩ := hbuilt.wellFormed hverify
  obtain ⟨changed, m', lists', hoptimize, hm'⟩ := hm.exists_optimize
  refine ⟨changed, m', hoptimize, hm'.verify, fun opts t => ?_⟩
  rw [compile, checkIf_eq hverify]
  show (m.optimizeIf opts >>= _) = _
  cases hfold : opts.foldConstants with
  | false =>
    rw [optimizeIf, hfold]
    rfl
  | true =>
    have hopt : m.optimizeIf opts = .ok (.ok (), m') := by
      rw [optimizeIf, if_pos hfold]
      exact bind_eq_ok.2 ⟨_, hoptimize, checkIf_eq hm'.verify _⟩
    rw [hopt]
    rfl

/-- A loop whose phi lists the exit, from which no branch leads back. All of the loop is folded, down
to the branch at its end. -/
def strayActions : List Action := [
  .addFunction "g" .void [], .addFunction "f" .i32 [("n", .i32)],
  .addBlock ⟨0⟩ "only", .build ⟨0⟩ (.ret none),
  .addBlock ⟨1⟩ "entry", .addBlock ⟨1⟩ "loop", .addBlock ⟨1⟩ "exit",
  .build ⟨1⟩ (.i32 2), .build ⟨1⟩ (.br ⟨2⟩),
  .build ⟨2⟩ (.phi .i32), .build ⟨2⟩ (.binary .and ⟨8⟩ ⟨6⟩), .build ⟨2⟩ (.compare .slt ⟨9⟩ ⟨6⟩),
  .build ⟨2⟩ (.condBr ⟨10⟩ ⟨2⟩ ⟨3⟩), .build ⟨3⟩ (.ret (some ⟨9⟩)),
  .build ⟨2⟩ (.addIncoming ⟨8⟩ ⟨6⟩ ⟨1⟩), .build ⟨2⟩ (.addIncoming ⟨8⟩ ⟨9⟩ ⟨3⟩)]

/-- The module that `strayActions` build. -/
def strayModule : Module := (strayActions.foldlM Action.run {}).toOption.getD {}

theorem optimize_accepted_stray :
    strayModule.Built ∧ strayModule.verify = .ok none ∧
      ∃ changed m', strayModule.optimize = .ok (.ok changed, m') ∧ m'.verify = .ok none ∧
        ∀ (opts : CompileOptions) (t : Spec), strayModule.compile opts t =
          if opts.foldConstants then return (← m'.emit opts t, m')
          else return (← strayModule.emit opts t, strayModule) := by
  have hbuilt : strayModule.Built := ⟨strayActions, rfl⟩
  have hverify : strayModule.verify = .ok none := by decide +kernel
  exact ⟨hbuilt, hverify, optimize_accepted hbuilt hverify⟩

end Module

end SsaCodegen
