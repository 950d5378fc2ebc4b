import SsaCodegen.Pass
import SsaCodegen.Proofs.ConstProp.FoldedRun
import SsaCodegen.Proofs.ConstProp.Narrow
import SsaCodegen.Proofs.Semantics.Thinned

/-!
# 32-bit runs of folded functions

Folding computes with numbers of 64 bits. A function that is run on words of 32 bits does the same
before and after all functions of its module were folded, if the constants that were folded are
narrow enough. The constants of a function matter only when it is folded itself: to the others it
makes no difference.

## Main definitions

* `Visit.outline` — the block, the exit and the world of a visit
* `Module.SameOutlines` — runs of one module are runs of another
* `Module.foldsNarrowly` — the constants are narrow enough in each of some functions in turn

## Main results

* `Module.optimize_outlines` — 32-bit runs before and after the passes
-/

namespace SsaCodegen

/-- What a visit shows: its block, how control leaves it and the world afterwards. -/
def Visit.outline (V : Visit W σ) : BlockId × Exit W × σ := (V.block, V.exit, V.world)

namespace Module

variable {m m₁ m' : Module} {lists : BlockId → List ValueId} {f g : FuncId}
  {sub : ValueId → ValueId} {funcs : List FuncId}

/-! ## Thinner modules -/

section Skeleton

variable (h : m'.skeleton = m.skeleton)
include h

theorem types_of_skeleton : m'.types = m.types := show m'.skeleton.types = m.skeleton.types by rw [h]

theorem tyOf_of_skeleton : m'.tyOf = m.tyOf := valueField_of_skeleton h fun _ _ => rfl

/-- What is known of values makes no difference. -/
theorem Thinned.of_skeleton (hm : WellFormed m lists) (hm' : WellFormed m' lists) :
    Thinned m lists id m' where
  before := hm
  after := by simpa using hm'
  funcs := funcs_of_skeleton h
  types := types_of_skeleton h
  kind hk := by rw [kindOf_of_skeleton h]; exact hk
  ty _ := by rw [tyOf_of_skeleton h, id]
  operands _ := by rw [operandsOf_of_skeleton h, List.map_id]
  gone hv := absurd rfl hv

theorem bytesOf_of_skeleton : m'.bytesOf = m.bytesOf := by
  funext v
  rw [bytesOf, tyOf_of_skeleton h, types_of_skeleton h, bytesOf]

theorem pointeeOf_of_skeleton : m'.pointeeOf = m.pointeeOf := by
  funext v
  rw [pointeeOf, tyOf_of_skeleton h, pointeeOf]

theorem fieldOffsetOf_of_skeleton : m'.fieldOffsetOf = m.fieldOffsetOf := by
  funext base index
  rw [fieldOffsetOf, pointeeOf_of_skeleton h, types_of_skeleton h, constOf, kindOf_of_skeleton h,
    fieldOffsetOf, constOf]

theorem yields_of_skeleton : m'.yields = m.yields := by
  funext v
  rw [yields, kindOf_of_skeleton h, tyOf_of_skeleton h, yields]

end Skeleton

end Module

namespace Dialect

open SsaCodegen.Module

variable {m m' : Module} {lists : BlockId → List ValueId} {f : FuncId} {sub : ValueId → ValueId}

theorem word_of_skeleton (h : m'.skeleton = m.skeleton) (p : Target.Platform) (a : Activation) :
    word m' p a = word m p a := by
  have hpass : a.pass m' = a.pass m := by
    funext index l world
    induction l generalizing index world with
    | nil => rfl
    | cons arg rest ih => simp only [Activation.pass, ih, bytesOf_of_skeleton h]
  simp only [word, kindOf_of_skeleton h, operandsOf_of_skeleton h, types_of_skeleton h, hpass,
    pointeeOf_of_skeleton h, fieldOffsetOf_of_skeleton h, yields_of_skeleton h]

/-- The 32-bit dialects of a module and of a thinner one agree. -/
theorem word_same (h : Thinned m lists sub m') (hfields : m.FieldsNumbered) (p : Target.Platform)
    (a : Activation) : (word m p a).Same (word m' p a) m lists where
  lit := rfl
  test := rfl
  enter := rfl
  leaf {v} hv := by
    obtain ⟨k, hk⟩ := exists_kindOf hv
    simp only [word, h.kind hk, hk]
  exec hv _ := h.exec_eq hfields hv
  quiet {v k} hk hpure args world := by
    simp only [word, hk]
    cases k with
    | phi | sext | cast | binary | compare =>
      rcases args with _ | ⟨x, _ | ⟨y, _ | ⟨z, args⟩⟩⟩ <;> rfl
    | _ => cases hpure

end Dialect

/-! ## One function -/

namespace Module

variable {m m₁ m' : Module} {lists : BlockId → List ValueId} {f g : FuncId}
  {sub : ValueId → ValueId} {funcs : List FuncId}

/-- Whenever a 32-bit run of a function of a module has a meaning, the run of the function of the
same number of another module shows the same. -/
def SameOutlines (m m' : Module) : Prop :=
  ∀ f p a world n, (∀ V ∈ (Dialect.word m p a).runFunc m f world n, V.exit ≠ .stuck) →
    ((Dialect.word m' p a).runFunc m' f world n).map Visit.outline =
      ((Dialect.word m p a).runFunc m f world n).map Visit.outline

namespace SameOutlines

theorem of_skeleton (h : m'.skeleton = m.skeleton) : SameOutlines m m' := by
  intro f p a world n _
  rw [Dialect.word_of_skeleton h, Dialect.runFunc_of_skeleton h]

theorem exit_ne_stuck {l l' : List (Visit W σ)} (h : l'.map Visit.outline = l.map Visit.outline)
    (hl : ∀ V ∈ l, V.exit ≠ .stuck) : ∀ V ∈ l', V.exit ≠ .stuck := by
  intro V hV
  have hmem : V.outline ∈ l.map Visit.outline := h ▸ List.mem_map_of_mem hV
  obtain ⟨V₀, hV₀, heq⟩ := List.mem_map.1 hmem
  have hexit : V₀.exit = V.exit := congrArg (fun o => o.2.1) heq
  rw [← hexit]
  exact hl V₀ hV₀

theorem trans (h : SameOutlines m m₁) (h' : SameOutlines m₁ m') : SameOutlines m m' := by
  intro f p a world n hstuck
  have heq := h f p a world n hstuck
  rw [h' f p a world n (exit_ne_stuck heq hstuck), heq]

end SameOutlines

/-- Folding a function with narrow constants changes the runs of no function. -/
theorem Folding.sameOutlines (h : Folding m lists g sub m') (hm : WellFormed m lists)
    (hsolved : m.Solved lists g) (hnarrow : m.NarrowIn g) (hfields : m.FieldsNumbered) :
    SameOutlines m m' := by
  intro f p a world n hstuck
  have hforeseen : ∀ V ∈ (Dialect.word m p a).runFunc m f world n, ∀ e ∈ V.events,
      Foreseen (Dialect.word m p a) m sub e := by
    intro V hV e he hne
    -- an instruction that is gone stood in the function that was folded
    obtain ⟨hb, hmem⟩ := hm.mem_runFunc hV
    obtain ⟨b, hb', -, hmem'⟩ := h.live hne
    obtain rfl := hm.threads.eq_of_mem (hmem e he) hmem'
    obtain rfl : f = g := Option.some.inj (hb.symm.trans hb')
    have hright := Dialect.Respects.runFunc_right hm hsolved
      (Dialect.word_respects hm hnarrow p a) world n V hV
    exact hright.2 e he
  rw [h.runFunc_eq hm (Dialect.word_same (h.thinned hm) hfields p a) n hstuck hforeseen,
    List.map_map]
  rfl

/-- Phis of a function in SSA form list only predecessors. -/
theorem SsaForm.phisListPreds (h : m.SsaForm f) (hm : WellFormed m lists) : m.PhisListPreds f := by
  intro b hb v hv hphi i hi
  obtain ⟨body, term, hlist, -, hlaid, -⟩ := hm.layout (hm.owned.mem_blocksOf.1 hb)
  have hmem : v ∈ m.phisOf b := by
    rw [hm.instsOf_eq (hm.owned.mem_blocksOf.1 hb), hlist, List.append_assoc] at hv
    rcases List.mem_append.1 hv with hv | hv
    · exact hv
    · rw [hlaid.not_isPhi_of_mem hv] at hphi
      cases hphi
  exact ((h.preds hb hmem).1 (List.mem_map_of_mem hi)).2

/-- Whether the constants that the analysis of a function finds are narrow enough. -/
def solvesNarrowly (m : Module) (f : FuncId) : Bool :=
  match m.solve f with
  | .ok (_, m') => m'.NarrowIn f
  | .error _ => true

/-- Propagation and folding in a function in SSA form with narrow constants. -/
theorem foldFunction_outlines {r : Except GraphError Bool} (hm : WellFormed m lists)
    (hfields : m.FieldsNumbered) (hf : f.idx < m.funcs.size) (hssa : m.SsaForm f)
    (hnarrow : m.solvesNarrowly f = true) (h : m.foldFunction f = .ok (r, m')) :
    (∃ sub, Thinned m lists sub m') ∧ SameOutlines m m' := by
  obtain ⟨n, m₁, hsolve, hlearns, hsolved⟩ :=
    hm.solve (hm.predsListed (hssa.phisListPreds hm)) (Array.getElem?_eq_getElem hf)
  have hm₁ := hm.learns hlearns
  have hskel := hlearns.skeleton_eq
  have hthin₁ := Thinned.of_skeleton hskel hm hm₁
  obtain ⟨count, sub, m₂, hfold, hfolding⟩ := hm₁.foldConstants (f := f)
    (by rw [funcs_of_skeleton hskel]; exact Array.getElem?_eq_getElem hf)
  have hm₂ : m₂ = m' := by
    have heq : m.foldFunction f = .ok (.ok (decide (count > 0)), m₂) :=
      bind_eq_ok.2 ⟨_, hsolve, bind_eq_ok.2 ⟨_, hfold, rfl⟩⟩
    exact congrArg Prod.snd (Except.ok.inj (heq.symm.trans h))
  subst hm₂
  have hnarrow : m₁.NarrowIn f := by
    rw [solvesNarrowly, hsolve] at hnarrow
    exact of_decide_eq_true hnarrow
  have hthin := hfolding.thinned hm₁
  refine ⟨⟨sub ∘ id, hthin₁.trans ?_⟩, (SameOutlines.of_skeleton hskel).trans
    (hfolding.sameOutlines hm₁ hsolved hnarrow (hthin₁.fieldsNumbered hfields))⟩
  simpa using hthin

/-! ## All functions -/

/-- Whether the constants of each of some functions are narrow enough, when they are folded one
after the other. -/
def foldsNarrowly (m : Module) : List FuncId → Bool
  | [] => true
  | f :: rest => m.solvesNarrowly f &&
    match m.foldFunction f with
    | .ok (.ok _, m') => m'.foldsNarrowly rest
    | _ => true

theorem foldFunctions_outlines {acc : Bool} {r : Except GraphError Bool} (hm : WellFormed m lists)
    (hfields : m.FieldsNumbered) (hf : ∀ f ∈ funcs, f.idx < m.funcs.size)
    (hssa : ∀ f ∈ funcs, m.SsaForm f) (hnarrow : m.foldsNarrowly funcs = true)
    (h : editFold foldFunction or acc m funcs = .ok (r, m')) :
    (∃ sub, Thinned m lists sub m') ∧ SameOutlines m m' := by
  induction funcs generalizing m lists acc with
  | nil =>
    cases h
    exact ⟨⟨id, .of_skeleton rfl hm hm⟩, .of_skeleton rfl⟩
  | cons f rest ih =>
    obtain ⟨hlt, hrest⟩ := List.forall_mem_cons.1 hf
    obtain ⟨hssa₁, hssa⟩ := List.forall_mem_cons.1 hssa
    obtain ⟨hnarrow₁, hnarrow⟩ := Bool.and_eq_true_iff.1 hnarrow
    obtain ⟨⟨r₁, m₁⟩, hfold, h⟩ := bind_eq_ok.1 h
    obtain ⟨⟨sub, hthin⟩, hsame⟩ :=
      foldFunction_outlines hm hfields hlt hssa₁ hnarrow₁ hfold
    rw [hfold] at hnarrow
    cases r₁ with
    | error e =>
      cases h
      exact ⟨⟨sub, hthin⟩, hsame⟩
    | ok changed =>
      obtain ⟨⟨sub', hthin'⟩, hsame'⟩ := ih hthin.after (hthin.fieldsNumbered hfields)
        (fun g hg => by rw [hthin.funcs]; exact hrest g hg)
        (fun g hg => hthin.ssaForm (hssa g hg)) hnarrow h
      exact ⟨⟨sub' ∘ sub, hthin.trans hthin'⟩, hsame.trans hsame'⟩

/-- The functions with a body. -/
def bodies (m : Module) : List FuncId :=
  m.funcIds.filter fun f => m.funcs[f.idx]?.any fun y => !y.isDeclaration

theorem mem_bodies : f ∈ m.bodies ↔ ∃ y, m.funcs[f.idx]? = some y ∧ y.isDeclaration = false := by
  rw [bodies, List.mem_filter]
  constructor
  · rintro ⟨-, hany⟩
    obtain ⟨y, hy, hdef⟩ := (Option.any_eq_true _ _).1 hany
    exact ⟨y, hy, by simpa using hdef⟩
  · rintro ⟨y, hy, hdef⟩
    have hlt := (Array.getElem?_eq_some_iff.1 hy).1
    exact ⟨List.mem_map.2 ⟨f.idx, List.mem_range.2 hlt, rfl⟩, by simp [hy, hdef]⟩

/-- The passes change no 32-bit run of any function, if all functions are in SSA form and their
constants are narrow enough. -/
theorem optimize_outlines {r : Except GraphError Bool} (hm : WellFormed m lists)
    (hfields : m.FieldsNumbered) (hssa : ∀ f ∈ m.bodies, m.SsaForm f)
    (hnarrow : m.foldsNarrowly m.bodies = true) (h : m.optimize = .ok (r, m')) :
    (∃ sub, Thinned m lists sub m') ∧ SameOutlines m m' := by
  obtain ⟨⟨r₁, m₁⟩, hfold, h⟩ := bind_eq_ok.1 h
  have hm' : m₁ = m' := by
    cases r₁ with
    | error e => cases h; rfl
    | ok changed => cases h; rfl
  subst hm'
  refine foldFunctions_outlines hm hfields (fun f hf => ?_) hssa hnarrow hfold
  obtain ⟨y, hy, -⟩ := mem_bodies.1 hf
  exact (Array.getElem?_eq_some_iff.1 hy).1

end Module

end SsaCodegen
