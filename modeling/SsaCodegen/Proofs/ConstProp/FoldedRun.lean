import SsaCodegen.Proofs.ConstProp.Folding
import SsaCodegen.Proofs.ConstProp.Reference
import SsaCodegen.Proofs.ConstProp.Worklist
import SsaCodegen.Proofs.Semantics.Thinned

/-!
# Runs of a folded function

A run of a function and a run of it after folding go in step. They visit the same blocks, and on
each visit the folded function evaluates what is left of the block with the same operands and the
same results. This needs that the run before folding has a meaning at all: a function may use an
instruction before it has been evaluated, or enter a block from one that a phi does not list, and
then it is stuck where the folded function goes on, since there the instruction or the phi can be
a constant.

## Main definitions

* `Visit.restrict` — a visit without the evaluations of some instructions
* `Dialect.Same` — two dialects agree on the instructions of a module
* `Module.Folding.Follows` — the results before folding can be read afterwards

## Main results

* `Module.Folding.runFunc_eq` — the run of a folded function
* `Module.foldFunction_preserves` — the pass as a whole, in the 64-bit dialect
-/

namespace SsaCodegen

/-- A visit with the evaluations of some instructions only. -/
def Visit.restrict (V : Visit W σ) (keep : ValueId → Bool) : Visit W σ :=
  { V with events := V.events.filter fun e => keep e.inst }

/-- Two dialects agree on what stands in the blocks of a module, and pure instructions leave the
world as it is. -/
structure Dialect.Same (D D' : Dialect W σ) (m : Module) (lists : BlockId → List ValueId) :
    Prop where
  lit : D'.lit = D.lit
  test : D'.test = D.test
  enter : D'.enter = D.enter
  leaf : ∀ {v}, v.idx < m.values.size → D'.leaf v = D.leaf v
  exec : ∀ {b v k}, v ∈ lists b → m.kindOf v = some (.inst k) → D'.exec v = D.exec v
  quiet : ∀ {v k}, m.kindOf v = some (.inst k) → k.isPure = true →
    ∀ args world, (D.exec v args world).2 = world

namespace Module.Folding

variable {m m' : Module} {lists : BlockId → List ValueId} {f g : FuncId} {b : BlockId}
  {v : ValueId} {sub : ValueId → ValueId} {D D' : Dialect W σ} {env env' : Env W} {world : σ}

/-- Folding makes a module thinner. -/
theorem thinned (h : Folding m lists f sub m') (hm : WellFormed m lists) :
    Thinned m lists sub m' where
  before := hm
  after := h.wellFormed hm
  funcs := h.grown.funcs
  types := by
    obtain ⟨extra, hbare⟩ := h.grown
    exact congrArg (fun m => m.types) hbare
  kind hk := (h.grown.kindOf (lt_of_kindOf hk)).trans hk
  ty {v} hv := by
    by_cases hkept : sub v = v
    · rw [hkept]
      exact h.grown.valueField (fun _ => rfl) hv
    · obtain ⟨n, -, -, hty⟩ := h.gone hkept
      exact hty
  operands := h.operands
  gone {v} hv := by
    obtain ⟨b, -, -, hmem⟩ := h.live hv
    obtain ⟨n, ⟨hk, -⟩, hn, -⟩ := h.gone hv
    exact ⟨⟨b, hmem⟩, hk, n, hn⟩

/-- The results before folding can be read afterwards under the substitution. -/
structure Follows (D' : Dialect W σ) (m m' : Module) (sub : ValueId → ValueId)
    (env env' : Env W) : Prop where
  read : ∀ {v k w}, m.kindOf v = some (.inst k) → env v = some w →
    D'.read m' env' (sub v) = some w

/-- An evaluation agrees with what is known, if its instruction is one of those that are gone. -/
def Foreseen (D : Dialect W σ) (m : Module) (sub : ValueId → ValueId) (e : Event W) : Prop :=
  sub e.inst ≠ e.inst → Dialect.Respects.Right D m e

section Step

variable (h : Folding m lists f sub m') (hD : D.Same D' m lists)
include h hD

/-- The constant in the place of an instruction that is gone. -/
theorem read_gone {n : Int64} (hv : sub v ≠ v) (hn : m.knownOf v = .const n) (env' : Env W) :
    D'.read m' env' (sub v) = some (D.lit n) := by
  obtain ⟨n', ⟨-, hn'⟩, hk, -⟩ := h.gone hv
  cases hn.symm.trans hn'
  rw [Dialect.read, hk, ← hD.lit]
  rfl

theorem read {w : W} (hf : Follows D' m m' sub env env') (hw : D.read m env v = some w) :
    D'.read m' env' (sub v) = some w := by
  cases hk : m.kindOf v with
  | none =>
    rw [Dialect.read, hk] at hw
    cases hw
  | some kind =>
    by_cases hinst : ∃ k, kind = .inst k
    · obtain ⟨k, rfl⟩ := hinst
      rw [Dialect.read, hk] at hw
      exact hf.read hk hw
    · have hkept : sub v = v := h.sub_eq fun k hk' => hinst ⟨k, Option.some.inj (hk.symm.trans hk')⟩
      have hlt := lt_of_kindOf hk
      rw [Dialect.read, hk] at hw
      rw [hkept, Dialect.read, h.grown.kindOf hlt, hk, hD.lit, hD.leaf hlt]
      cases kind with
      | inst k => exact absurd ⟨k, rfl⟩ hinst
      | _ => exact hw

theorem readAll {operands : List ValueId} {args : List W} (hf : Follows D' m m' sub env env')
    (hargs : D.readAll m env operands = some args) :
    D'.readAll m' env' (operands.map sub) = some args := by
  rw [Dialect.readAll_eq_some] at hargs ⊢
  rw [List.forall₂_map_left_iff]
  exact hargs.imp fun _ _ hw => h.read hD hf hw

omit hD in
theorem blockOf?_eq {b : BlockId} (hb : m.blockOf? v = some b) :
    m'.blockOf? (sub v) = some b := by
  have hk := blockOf?_eq_some.1 hb
  rw [h.sub_eq (by rw [hk]; nofun)]
  exact blockOf?_eq_some.2 ((h.grown.kindOf (lt_of_kindOf hk)).trans hk)

/-- An instruction that is left does what it did. -/
theorem step_eq (hf : Follows D' m m' sub env env') (hv : v ∈ lists b) (hkept : sub v = v)
    (hstuck : D.step m env world v ≠ .stuck) :
    D'.step m' env' world v = D.step m env world v := by
  have hops := h.operands hkept
  have hkind {k : InstKind} (hk : m.kindOf v = some (.inst k)) : m'.kindOf v = some (.inst k) :=
    (h.grown.kindOf (lt_of_kindOf hk)).trans hk
  cases hstep : D.step m env world v with
  | stuck => exact absurd hstep hstuck
  | next e world' =>
    obtain ⟨k, args, hk, hphi, hterm, hargs, rfl, rfl⟩ := Dialect.step_eq_next hstep
    rw [Dialect.step_body (hkind hk) hphi hterm, hops, h.readAll hD hf hargs, hD.exec hv hk]
  | leave e exit =>
    rcases Dialect.step_eq_leave hstep with ⟨args, hk, hargs, rfl, rfl⟩ |
      ⟨dest, c, hk, ho, hc, rfl, rfl⟩ | ⟨cond, thenLabel, elseLabel, w, c, hk, ho, hw, hc, rfl, rfl⟩
    · rw [Dialect.step_ret (hkind hk), hops, h.readAll hD hf hargs]
    · rw [Dialect.step_jump (hkind hk) (by rw [hops, ho]; rfl), h.blockOf?_eq hc]
    · rw [Dialect.step_branch (hkind hk) (by rw [hops, ho]; rfl), h.read hD hf hw, hD.test]
      dsimp only
      rw [← apply_ite sub, h.blockOf?_eq hc]

/-- An instruction that is gone hands over to the next. -/
theorem step_gone (hgone : sub v ≠ v) (hstuck : D.step m env world v ≠ .stuck) :
    ∃ e, D.step m env world v = .next e world := by
  obtain ⟨n, ⟨⟨k, hk, hpure⟩, -⟩, -⟩ := h.gone hgone
  cases hstep : D.step m env world v with
  | stuck => exact absurd hstep hstuck
  | next e world' =>
    obtain ⟨k', args, hk', -, -, -, -, rfl⟩ := Dialect.step_eq_next hstep
    cases hk.symm.trans hk'
    exact ⟨e, by rw [hD.quiet hk hpure]⟩
  | leave e exit =>
    have hterm : m.kindOf v = some (.inst .ret) ∨ m.kindOf v = some (.inst .br) := by
      rcases Dialect.step_eq_leave hstep with ⟨_, hk, -⟩ | ⟨_, _, hk, -⟩ | ⟨_, _, _, _, _, hk, -⟩
      · exact .inl hk
      · exact .inr hk
      · exact .inr hk
    rcases hterm with hk' | hk' <;> cases hk.symm.trans hk' <;> cases hpure

/-! ## Results -/

omit hD in
/-- Both record the evaluation of an instruction that is left. -/
theorem record_kept {e : Event W} {k : InstKind} (hf : Follows D' m m' sub env env')
    (hk : m.kindOf e.inst = some (.inst k)) (hkept : sub e.inst = e.inst) :
    Follows D' m m' sub (Dialect.record env e) (Dialect.record env' e) := by
  refine ⟨fun {v k' w} hk' hv => ?_⟩
  by_cases hve : v = e.inst
  · subst hve
    rw [hkept, Dialect.read, h.grown.kindOf (lt_of_kindOf hk), hk]
    rw [Dialect.record, Function.update_self] at hv ⊢
    exact hv
  · rw [Dialect.record, Function.update_of_ne hve] at hv
    have hread := hf.read hk' hv
    have hne := h.sub_ne hk hve
    rw [Dialect.read] at hread ⊢
    split at hread
    · rw [Dialect.record, Function.update_of_ne hne]
      exact hread
    all_goals exact hread

/-- The evaluation of an instruction that is gone need not be recorded any more. -/
theorem record_gone {e : Event W} (hf : Follows D' m m' sub env env')
    (hgone : sub e.inst ≠ e.inst) (he : Foreseen D m sub e) :
    Follows D' m m' sub (Dialect.record env e) env' := by
  refine ⟨fun {v k' w} hk' hv => ?_⟩
  by_cases hve : v = e.inst
  · subst hve
    rw [Dialect.record, Function.update_self] at hv
    obtain ⟨n, ⟨-, hn⟩, -⟩ := h.gone hgone
    have hright : (m.knownOf e.inst).Admits D.lit e.result := he hgone
    rw [hn, hv] at hright
    rw [h.read_gone hD hgone hn, ← show some w = some (D.lit n) from hright]
  · rw [Dialect.record, Function.update_of_ne hve] at hv
    exact hf.read hk' hv

/-- Several evaluations are recorded. -/
theorem record_all {events : List (Event W)} (hf : Follows D' m m' sub env env')
    (hinst : ∀ e ∈ events, ∃ k, m.kindOf e.inst = some (.inst k))
    (hforeseen : ∀ e ∈ events, Foreseen D m sub e) :
    Follows D' m m' sub (events.foldl Dialect.record env)
      ((events.filter fun e => sub e.inst = e.inst).foldl Dialect.record env') := by
  induction events generalizing env env' with
  | nil => exact hf
  | cons e rest ih =>
    obtain ⟨⟨k, hk⟩, hinst⟩ := List.forall_mem_cons.1 hinst
    obtain ⟨he, hforeseen⟩ := List.forall_mem_cons.1 hforeseen
    by_cases hkept : sub e.inst = e.inst
    · rw [List.filter_cons_of_pos (by simpa using hkept)]
      exact ih (h.record_kept hf hk hkept) hinst hforeseen
    · rw [List.filter_cons_of_neg (by simpa using hkept)]
      exact ih (h.record_gone hD hf hkept he) hinst hforeseen

/-! ## Blocks -/

/-- What is left of a list of instructions does what the list did. -/
theorem code_eq {l : List ValueId} (hl : l ⊆ lists b) (hf : Follows D' m m' sub env env')
    (hstuck : (D.code m b env world l).1.exit ≠ .stuck)
    (hforeseen : ∀ e ∈ (D.code m b env world l).1.events, Foreseen D m sub e) :
    ∃ env'', D'.code m' b env' world (l.filter fun v => sub v = v) =
        ((D.code m b env world l).1.restrict fun v => sub v = v, env'') ∧
      Follows D' m m' sub (D.code m b env world l).2 env'' := by
  induction l generalizing env env' world with
  | nil => exact absurd rfl hstuck
  | cons v rest ih =>
    obtain ⟨hv, hrest⟩ := List.cons_subset.1 hl
    have hstep_ne : D.step m env world v ≠ .stuck := by
      intro hstep
      rw [Dialect.code, hstep] at hstuck
      exact hstuck rfl
    by_cases hkept : sub v = v
    · rw [List.filter_cons_of_pos (by simpa using hkept), Dialect.code,
        h.step_eq hD hf hv hkept hstep_ne]
      rw [Dialect.code] at hstuck hforeseen ⊢
      cases hstep : D.step m env world v with
      | stuck => exact absurd hstep hstep_ne
      | leave e exit =>
        refine ⟨env', ?_, hf⟩
        simp [Visit.restrict, Dialect.inst_of_step_eq_leave hstep, hkept]
      | next e world' =>
        rw [hstep] at hstuck hforeseen
        have hinst := Dialect.inst_of_step_eq_next hstep
        obtain ⟨k, args, hk, -⟩ := Dialect.step_eq_next hstep
        have hf' : Follows D' m m' sub (Dialect.record env e) (Dialect.record env' e) :=
          h.record_kept hf (hinst ▸ hk) (by rw [hinst]; exact hkept)
        obtain ⟨env'', hcode, hf''⟩ := ih hrest hf' hstuck (List.forall_mem_cons.1 hforeseen).2
        refine ⟨env'', ?_, hf''⟩
        simp only [hcode]
        simp [Visit.restrict, hinst, hkept]
    · obtain ⟨e, hstep⟩ := h.step_gone hD hkept hstep_ne
      have hinst := Dialect.inst_of_step_eq_next hstep
      rw [List.filter_cons_of_neg (by simpa using hkept)]
      rw [Dialect.code, hstep] at hstuck hforeseen ⊢
      obtain ⟨he, hforeseen⟩ := List.forall_mem_cons.1 hforeseen
      have hf' : Follows D' m m' sub (Dialect.record env e) env' :=
        h.record_gone hD hf (by rw [hinst]; exact hkept) he
      obtain ⟨env'', hcode, hf''⟩ := ih hrest hf' hstuck hforeseen
      refine ⟨env'', ?_, hf''⟩
      rw [hcode]
      simp [Visit.restrict, hinst, hkept]

omit hD in
theorem incomingFrom_eq {pred : BlockId} {value : ValueId} (hm : WellFormed m lists)
    (hkept : sub v = v) (hv : m.incomingFrom v pred = some value) :
    m'.incomingFrom v pred = some (sub value) := by
  obtain ⟨i, hfind, rfl⟩ := Option.map_eq_some_iff.1 hv
  rw [incomingFrom, (h.thinned hm).incoming_eq hkept, List.find?_map]
  show (((m.incoming v).find? (·.2 = pred)).map _).map _ = _
  rw [hfind]
  rfl

/-- What is left of the phis takes the values that it took. -/
theorem phis_eq {pred : BlockId} {vs : List ValueId} {events : List (Event W)}
    (hm : WellFormed m lists) (hf : Follows D' m m' sub env env')
    (hphis : D.phis m env pred vs = some events) :
    D'.phis m' env' pred (vs.filter fun v => sub v = v) =
      some (events.filter fun e => sub e.inst = e.inst) := by
  induction vs generalizing events with
  | nil =>
    cases hphis
    rfl
  | cons v rest ih =>
    obtain ⟨w, hw, hphis⟩ := Option.bind_eq_some_iff.1 hphis
    obtain ⟨value, hvalue, hw⟩ := Option.bind_eq_some_iff.1 hw
    obtain ⟨events', hevents, rfl⟩ := Option.map_eq_some_iff.1 hphis
    by_cases hkept : sub v = v
    · rw [List.filter_cons_of_pos (by simpa using hkept), Dialect.phis,
        h.incomingFrom_eq hm hkept hvalue, Option.bind_some, h.read hD hf hw, Option.bind_some,
        ih hevents, List.filter_cons_of_pos (by simpa using hkept)]
      rfl
    · rw [List.filter_cons_of_neg (by simpa using hkept), ih hevents,
        List.filter_cons_of_neg (by simpa using hkept)]

end Step

/-! ## Runs -/

section Run

variable (h : Folding m lists f sub m') (hm : WellFormed m lists) (hD : D.Same D' m lists)
include h hm hD

theorem visit_eq (pred : Option BlockId) (world : σ) (hb : m.funcOf b = some g)
    (hf : Follows D' m m' sub env env')
    (hstuck : (D.visit m pred b env world).1.exit ≠ .stuck)
    (hforeseen : ∀ e ∈ (D.visit m pred b env world).1.events, Foreseen D m sub e) :
    ∃ env'', D'.visit m' pred b env' world =
        ((D.visit m pred b env world).1.restrict fun v => sub v = v, env'') ∧
      Follows D' m m' sub (D.visit m pred b env world).2 env'' := by
  obtain ⟨phis, body, term, hlist, hlaid⟩ := hm.laid hb
  obtain ⟨hlist', hlaid'⟩ := h.laid hm hlaid
  have hb' : m'.funcOf b = some g := by rw [h.grown.funcOf]; exact hb
  have hcode : body.filter (fun v => sub v = v) ++ [term] =
      (body ++ [term]).filter fun v => sub v = v := by
    rw [List.append_assoc, List.append_assoc, List.filter_append] at hlist'
    exact (List.append_cancel_left hlist').symm
  rw [hm.visit_eq D hb hlist hlaid] at hstuck hforeseen ⊢
  rw [(h.wellFormed hm).visit_eq D' hb' (by rw [hlist, hlist']) hlaid', hcode, hD.enter]
  cases harrive : D.arrive m env pred phis with
  | none =>
    rw [harrive] at hstuck
    exact absurd rfl hstuck
  | some events =>
    rw [harrive] at hstuck hforeseen
    have harrive' : D'.arrive m' env' pred (phis.filter fun v => sub v = v) =
        some (events.filter fun e => sub e.inst = e.inst) := by
      cases pred with
      | none =>
        cases harrive
        rfl
      | some p => exact h.phis_eq hD hm hf harrive
    have hinst : ∀ e ∈ events, ∃ k, m.kindOf e.inst = some (.inst k) := by
      cases pred with
      | none =>
        cases harrive
        nofun
      | some p =>
        intro e he
        have hmem : e.inst ∈ events.map Event.inst := List.mem_map.2 ⟨e, he, rfl⟩
        rw [Dialect.phis_map_inst harrive] at hmem
        exact ⟨_, hlaid.isPhi hmem⟩
    have hrecord := h.record_all hD hf hinst fun e he => hforeseen e (List.mem_append_left _ he)
    have hsub : body ++ [term] ⊆ lists b := by
      rw [hlist, List.append_assoc]
      exact List.subset_append_right _ _
    obtain ⟨env'', hcode', hf''⟩ := h.code_eq hD hsub hrecord hstuck
      fun e he => hforeseen e (List.mem_append_right _ he)
    refine ⟨env'', ?_, hf''⟩
    rw [harrive']
    simp only [hcode']
    simp [Visit.restrict]

/-- The run of a function after folding is the run before, as far as that has a meaning, without
the evaluations of instructions that are gone. -/
theorem run_eq {n : Nat} {pred : Option BlockId} (hb : m.funcOf b = some g)
    (hf : Follows D' m m' sub env env')
    (hstuck : ∀ V ∈ D.run m n pred b env world, V.exit ≠ .stuck)
    (hforeseen : ∀ V ∈ D.run m n pred b env world, ∀ e ∈ V.events, Foreseen D m sub e) :
    D'.run m' n pred b env' world =
      (D.run m n pred b env world).map fun V => V.restrict fun v => sub v = v := by
  induction n generalizing pred b env env' world with
  | zero => rfl
  | succ n ih =>
    have hvisit := h.visit_eq hm hD pred world hb hf
    have hgoto (c : BlockId) := hm.funcOf_of_visit_goto (c := c) D hb pred env world
    rw [Dialect.run] at hstuck hforeseen
    rw [Dialect.run, Dialect.run]
    generalize D.visit m pred b env world = r at *
    obtain ⟨V, env₁⟩ := r
    obtain ⟨hstuck₁, hstuck⟩ := List.forall_mem_cons.1 hstuck
    obtain ⟨hforeseen₁, hforeseen⟩ := List.forall_mem_cons.1 hforeseen
    obtain ⟨env'', hvisit, hf''⟩ := hvisit hstuck₁ hforeseen₁
    rw [hvisit, List.map_cons]
    refine congrArg (List.cons _) ?_
    dsimp only [Visit.restrict] at hstuck hforeseen ⊢
    split
    · rename_i c hexit
      rw [hexit] at hstuck hforeseen
      exact ih (hgoto c hexit) hf'' hstuck hforeseen
    · rfl
    · rfl

theorem runFunc_eq (n : Nat) (hstuck : ∀ V ∈ D.runFunc m g world n, V.exit ≠ .stuck)
    (hforeseen : ∀ V ∈ D.runFunc m g world n, ∀ e ∈ V.events, Foreseen D m sub e) :
    D'.runFunc m' g world n =
      (D.runFunc m g world n).map fun V => V.restrict fun v => sub v = v := by
  rw [Dialect.runFunc] at hstuck hforeseen ⊢
  rw [Dialect.runFunc, h.grown.funcs]
  cases hentry : m.funcs[g.idx]?.bind Func.entry with
  | none => rfl
  | some entry =>
    rw [hentry] at hstuck hforeseen
    obtain ⟨y, hy, hentry⟩ := Option.bind_eq_some_iff.1 hentry
    have hb : m.funcOf entry = some g := hm.owned.mem.2 ⟨y, hy, List.mem_of_head? hentry⟩
    exact h.run_eq hm hD hb ⟨by rintro _ _ _ _ ⟨⟩⟩ hstuck hforeseen

end Run

end Module.Folding

/-! ## The 64-bit dialect -/

namespace Module

variable {m m' : Module} {lists : BlockId → List ValueId} {f : FuncId} {sub : ValueId → ValueId}

theorem Folding.reference_same (h : Folding m lists f sub m') (input : ValueId → Int64)
    (choice : Nat → ValueId → Int64) :
    (Dialect.reference m input choice).Same (Dialect.reference m' input choice) m lists where
  lit := rfl
  test := rfl
  enter := rfl
  leaf _ := rfl
  exec {b v k} _ hk := by
    funext args n
    simp only [Dialect.reference, h.grown.kindOf (lt_of_kindOf hk)]
  quiet {v k} hk hpure args n := by
    simp only [Dialect.reference]
    split <;> rfl

/-- What is left of the blocks. -/
theorem Folding.instsOf_eq (h : Folding m lists f sub m') (hm : WellFormed m lists) (b : BlockId) :
    m'.instsOf b = (m.instsOf b).filter fun v => sub v = v :=
  (h.thinned hm).instsOf_eq b

/-- Constant propagation and folding of a function of a module that was built and accepted are not
refused and take pure instructions only. Whenever a run of the function has a meaning, so has the
run afterwards: it visits the same blocks, and evaluates the instructions that are left at the same
points, with the same operands and results. -/
theorem foldFunction_preserves {m : Module} {f : FuncId} (hbuilt : m.Built)
    (hverify : m.verify = .ok none) (hf : f.idx < m.funcs.size) (hphis : m.PhisListPreds f) :
    ∃ changed m', m.foldFunction f = .ok (.ok changed, m') ∧
      (∀ b v k, v ∈ m.instsOf b → m.kindOf v = some (.inst k) → k.isPure = false →
        v ∈ m'.instsOf b) ∧
      ∀ input choice n,
        (∀ V ∈ (Dialect.reference m input choice).runFunc m f 0 n, V.exit ≠ .stuck) →
        (Dialect.reference m' input choice).runFunc m' f 0 n =
          ((Dialect.reference m input choice).runFunc m f 0 n).map fun V =>
            V.restrict fun v => v ∈ m'.instsOf V.block := by
  obtain ⟨lists, hm⟩ := hbuilt.wellFormed hverify
  obtain ⟨n, m₁, hsolve, hlearns, hsolved⟩ :=
    hm.solve (hm.predsListed hphis) (Array.getElem?_eq_getElem hf)
  have hm₁ := hm.learns hlearns
  have hskel := hlearns.skeleton_eq
  obtain ⟨count, sub, m', hfold, h⟩ := hm₁.foldConstants (f := f)
    (by rw [funcs_of_skeleton hskel]; exact Array.getElem?_eq_getElem hf)
  refine ⟨decide (count > 0), m', bind_eq_ok.2 ⟨_, hsolve, bind_eq_ok.2 ⟨_, hfold, rfl⟩⟩,
    fun b v k hv hk hpure => ?_, fun input choice n hstuck => ?_⟩
  · have hkept : sub v = v :=
      h.sub_eq_of_not_pure (by rw [kindOf_of_skeleton hskel]; exact hk) hpure
    rw [h.instsOf_eq hm₁, instsOf, insts_of_skeleton hskel]
    exact List.mem_filter.2 ⟨hv, decide_eq_true hkept⟩
  · rw [← Dialect.runFunc_of_skeleton hskel, ← Dialect.reference_of_skeleton hskel] at hstuck ⊢
    have hright := Dialect.Respects.runFunc_right hm₁ hsolved
      (Dialect.reference_respects hm₁ input choice) 0 n
    rw [h.runFunc_eq hm₁ (h.reference_same input choice) n hstuck
      fun V hV e he _ => (hright V hV).2 e he]
    refine List.map_congr_left fun V hV => ?_
    obtain ⟨hb, hmem⟩ := hm₁.mem_runFunc hV
    refine congrArg (fun events => { V with events }) (List.filter_congr fun e he => ?_)
    rw [h.instsOf_eq hm₁, hm₁.instsOf_eq hb]
    simp [hmem e he]

/-- The loop is folded, and a run through it goes as before. -/
theorem foldFunction_preserves_loop :
    ∃ changed m', loopModule.foldFunction ⟨0⟩ = .ok (.ok changed, m') ∧
      (Dialect.reference m' (fun _ => 7) fun _ _ => 0).runFunc m' ⟨0⟩ 0 6 =
        ((Dialect.reference loopModule (fun _ => 7) fun _ _ => 0).runFunc loopModule ⟨0⟩ 0 6).map
          fun V => V.restrict fun v => v ∈ m'.instsOf V.block := by
  obtain ⟨changed, m', hfold, -, hrun⟩ :=
    foldFunction_preserves (m := loopModule) (f := ⟨0⟩) ⟨loopActions, rfl⟩ (by decide +kernel)
      (by decide +kernel) (by decide +kernel)
  exact ⟨changed, m', hfold, hrun (fun _ => 7) (fun _ _ => 0) 6 (by decide +kernel)⟩

/-- Calls that build a function which adds one to a sum before the sum has been evaluated. -/
def earlyActions : List Action := [
  .addFunction "f" .i32 [], .addBlock ⟨0⟩ "entry", .addBlock ⟨0⟩ "exit",
  .build ⟨0⟩ (.i32 2), .build ⟨0⟩ (.i32 3), .build ⟨0⟩ (.i32 1),
  .build ⟨0⟩ (.binary .add ⟨2⟩ ⟨3⟩), .build ⟨0⟩ (.binary .add ⟨5⟩ ⟨4⟩), .moveToEnd ⟨5⟩ ⟨0⟩,
  .build ⟨0⟩ (.br ⟨1⟩), .build ⟨1⟩ (.ret (some ⟨6⟩))]

/-- The module that `earlyActions` build. -/
def earlyModule : Module := (earlyActions.foldlM Action.run {}).toOption.getD {}

/-- The first visits of a run of the first function, and how control leaves them. -/
def trail (m : Module) : List (BlockId × Exit Int64) :=
  ((Dialect.reference m (fun _ => 0) fun _ _ => 0).runFunc m ⟨0⟩ 0 2).map fun V => (V.block, V.exit)

/-- An accepted function that is stuck in its first block is folded into one that returns. -/
theorem foldFunction_revives_early_use :
    earlyModule.Built ∧ earlyModule.verify = .ok none ∧ earlyModule.PhisListPreds ⟨0⟩ ∧
      earlyModule.trail = [(⟨0⟩, .stuck)] ∧
      ∃ m', earlyModule.foldFunction ⟨0⟩ = .ok (.ok true, m') ∧
        m'.trail = [(⟨0⟩, .goto ⟨1⟩), (⟨1⟩, .ret (some 6))] := by
  refine ⟨⟨earlyActions, rfl⟩, by decide +kernel, by decide +kernel, by decide +kernel, ?_⟩
  obtain ⟨⟨r, m'⟩, hfold, rfl, htrail⟩ := exists_eq_ok (x := earlyModule.foldFunction ⟨0⟩)
    (p := fun r => r.1 = .ok true ∧ r.2.trail = [(⟨0⟩, .goto ⟨1⟩), (⟨1⟩, .ret (some 6))])
    (by decide +kernel)
  exact ⟨m', hfold, htrail⟩

end Module

end SsaCodegen
