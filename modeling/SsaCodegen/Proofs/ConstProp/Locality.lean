import SsaCodegen.Proofs.ConstProp.Greatest
import SsaCodegen.Proofs.ConstProp.Optimized
import SsaCodegen.Proofs.ConstProp.Propagate
import SsaCodegen.Proofs.Module.Sequences

/-!
# The pass over a function stays in it

The stacks of the solver know nothing of functions: it follows use lists, which go through the whole
module, and folding redirects uses wherever they are. Functions that do not use each other's
instructions and labels are apart all the same. A linked user of an instruction of a
function is in the function too, and so are the blocks behind its labels, so all blocks that wait
belong to the function, and of the values that wait those that stand in blocks. Users that stand in
no block wait as well and are passed over when their turn comes.

Folding then takes instructions of the function only, one after the other. A use list changes if it
is that of an instruction that is taken or of one of its operands. The operands may be constants by
then that were put in for other instructions, but those are new.

## Main definitions

* `Module.Owns`, `Module.Secluded` — which function values belong to, and that none uses another's
* `Solver.WorksOn` — the solver is at work on one function
* `Module.Trimmed` — instructions have been taken and constants put in
* `Module.Confined` — what a pass over one function can have changed

## Main results

* `Solver.step_worksOn` — the solver stays in the function
* `Module.foldFunction_confined` — and so does the pass
-/

namespace SsaCodegen

namespace Module

variable {m m' : Module} {f : FuncId} {b : BlockId} {v : ValueId} {owner : ValueId → Option FuncId}

/-! ## Functions that are apart -/

/-- Which function values belong to. Instructions belong to the function that they stand in, and
labels to that of their block. An instruction that stands in no block may belong to any one function
or to none. So may other values: nothing is ever learnt of parameters. -/
structure Owns (m : Module) (owner : ValueId → Option FuncId) : Prop where
  inst : ∀ b, ∀ v ∈ m.instsOf b, owner v = m.funcOf b
  label : ∀ v b, m.kindOf v = some (.block b) → owner v = m.funcOf b

/-- No instruction uses a value of another function. -/
def Secluded (m : Module) (owner : ValueId → Option FuncId) : Prop :=
  ∀ u v g h, m.IsInst u → v ∈ m.operandsOf u → owner u = some g → owner v = some h → g = h

theorem owns_iff : m.Owns owner ↔
    (∀ i < m.blocks.size, ∀ v ∈ m.instsOf ⟨i⟩, owner v = m.funcOf ⟨i⟩) ∧
    ∀ i < m.values.size, ∀ b ∈ m.blockOf? ⟨i⟩, owner ⟨i⟩ = m.funcOf b := by
  constructor
  · intro h
    exact ⟨fun i _ => h.inst ⟨i⟩, fun i _ b hb => h.label ⟨i⟩ b (blockOf?_eq_some.1 hb)⟩
  · rintro ⟨hinst, hlabel⟩
    refine ⟨fun b v hv => ?_, fun v b hk => ?_⟩
    · by_cases hb : b.idx < m.blocks.size
      · exact hinst b.idx hb v hv
      · have hnone : m.funcOf b = none := by
          rw [funcOf, blockField, Array.getElem?_eq_none (Nat.le_of_not_lt hb)]
          rfl
        rw [instsOf_eq_nil hnone] at hv
        cases hv
    · exact hlabel v.idx (lt_of_kindOf hk) b (blockOf?_eq_some.2 hk)

instance : Decidable (m.Owns owner) := decidable_of_iff _ owns_iff.symm

theorem secluded_iff : m.Secluded owner ↔ ∀ i < m.values.size,
    ((m.kindOf ⟨i⟩).bind ValueKind.asInst).isSome = true → ∀ v ∈ m.operandsOf ⟨i⟩,
      ∀ g ∈ owner ⟨i⟩, ∀ h ∈ owner v, g = h := by
  constructor
  · intro hsec i _ hinst v hv g hg h hh
    exact hsec ⟨i⟩ v g h (isInst_iff_asInst.2 hinst) hv hg hh
  · intro hsec u v g h hinst hv hg hh
    exact hsec u.idx (lt_of_mem_operandsOf hv) (isInst_iff_asInst.1 hinst) v hv g hg h hh

instance : Decidable (m.Secluded owner) := decidable_of_iff _ secluded_iff.symm

/-- What stands in a block and uses an instruction of a function, or is the block of a label that
one uses, is in the function. -/
structure Enclosed (m : Module) (f : FuncId) : Prop where
  users : ∀ {b c v u}, m.funcOf b = some f → v ∈ m.instsOf b → u ∈ m.instsOf c →
    v ∈ m.operandsOf u → m.funcOf c = some f
  labels : ∀ {b c v l}, m.funcOf b = some f → v ∈ m.instsOf b → l ∈ m.operandsOf v →
    m.kindOf l = some (.block c) → m.funcOf c = some f

theorem Secluded.enclosed (h : m.Secluded owner) (ho : m.Owns owner)
    (hm : WellFormed m m.instsOf) (f : FuncId) : m.Enclosed f where
  users {b c v u} hb hv hu huse := by
    obtain ⟨g, hc⟩ := hm.exists_funcOf_of_mem hu
    have hgf := h u v g f (hm.threads.inst hu) huse ((ho.inst c u hu).trans hc)
      ((ho.inst b v hv).trans hb)
    rw [hc, hgf]
  labels {b c v l} hb hv hl hk := by
    have hexit : c ∈ m.exitsOf v := List.mem_filterMap.2 ⟨l, hl, blockOf?_eq_some.2 hk⟩
    obtain ⟨g, hc⟩ := hm.exists_funcOf hexit
    have hfg := h v l f g (hm.threads.inst hv) hl ((ho.inst b v hv).trans hb)
      ((ho.label l c hk).trans hc)
    rw [hc, hfg]

end Module

/-! ## The solver -/

namespace Solver

open SsaCodegen.Module

variable {m : Module} {f : FuncId} {s s' : Solver} {b : BlockId} {v : ValueId}

/-- The solver is at work on a function of a module. The blocks that wait are in the function, so
are the values that wait and stand in blocks, and elsewhere nothing has been learnt. -/
structure WorksOn (m : Module) (f : FuncId) (s : Solver) : Prop where
  learns : Learns m s.module
  blocks : ∀ c ∈ s.blocks, m.funcOf c = some f
  values : ∀ v ∈ s.values, ∀ b, v ∈ m.instsOf b → m.funcOf b = some f
  known : ∀ v, (∀ b, m.funcOf b = some f → v ∉ m.instsOf b) → s.module.knownOf v = m.knownOf v
  reached : ∀ b, m.funcOf b ≠ some f → s.module.reachedOf b = m.reachedOf b

theorem WorksOn.funcOf (hs : WorksOn m f s) (b : BlockId) : s.module.funcOf b = m.funcOf b :=
  congrFun (funcOf_of_skeleton hs.learns.skeleton_eq) b

section Steps

variable (hm : WellFormed m m.instsOf) (hf : m.Enclosed f)
include hm hf

theorem refresh_worksOn (hs : WorksOn m f s) (hb : m.funcOf b = some f) (hv : v ∈ m.instsOf b)
    (h : s.refresh v = .ok s') : WorksOn m f s' := by
  have hlearns {changed m₁} (hp : s.module.propagate v = .ok (changed, m₁)) : Learns m m₁ :=
    hs.learns.tail (.value hp)
  have hknown {changed m₁} (hp : s.module.propagate v = .ok (changed, m₁)) (w : ValueId)
      (hw : ∀ b, m.funcOf b = some f → w ∉ m.instsOf b) : m₁.knownOf w = m.knownOf w := by
    obtain ⟨x, hx, t, -, rfl, -⟩ := propagate_eq_ok.1 hp
    have hne : w ≠ v := by
      rintro rfl
      exact hw b hb hv
    rw [knownOf_setValue hx, if_neg hne, hs.known w hw]
  have hreached {changed m₁} (hp : s.module.propagate v = .ok (changed, m₁)) (c : BlockId)
      (hc : m.funcOf c ≠ some f) : m₁.reachedOf c = m.reachedOf c := by
    rw [reachedOf_propagate hp, hs.reached c hc]
  obtain ⟨m₁, ⟨hp, rfl⟩ | ⟨us, hp, hus, rfl⟩⟩ := refresh_cases h
  · exact ⟨hlearns hp, hs.blocks, hs.values, hknown hp, hreached hp⟩
  · refine ⟨hlearns hp, hs.blocks, fun u hu c hc => ?_, hknown hp, hreached hp⟩
    rcases List.mem_append.1 hu with hu | hu
    · have huse := ((hm.learns (hlearns hp)).mirrored.mem_users hus).1 (List.mem_reverse.1 hu)
      rw [operandsOf_of_skeleton (hlearns hp).skeleton_eq] at huse
      exact hf.users hb hv hc huse
    · exact hs.values u hu c hc

theorem visitInst_worksOn (hs : WorksOn m f s) (hb : m.funcOf b = some f) (hv : v ∈ m.instsOf b)
    (h : s.visitInst v = .ok s') : WorksOn m f s' := by
  obtain ⟨s₁, h₁, rfl | ⟨labels, blocks, hk, hl, hpush, rfl⟩⟩ := visitInst_cases h
  · exact refresh_worksOn hm hf hs hb hv h₁
  · have hs₁ := refresh_worksOn hm hf hs hb hv h₁
    have hm₁ := hm.learns hs₁.learns
    have hb₁ := (hs₁.funcOf b).trans hb
    obtain ⟨k', hk'⟩ := hm₁.threads.inst hv
    cases hk.symm.trans (instKind_eq hk')
    cases (bind_eq_ok.2 ⟨labels, hl, hpush⟩).symm.trans (hm₁.pushBlocks hb₁ hv hk' s₁.blocks)
    refine { hs₁ with blocks := fun c hc => ?_ }
    rcases List.mem_append.1 hc with hc | hc
    · rw [← hs₁.funcOf]
      exact hm₁.headsOf_subset hb₁ hv hk' (List.mem_filter.1 (List.mem_reverse.1 hc)).1
    · exact hs₁.blocks c hc

theorem visitAll_worksOn {insts : List ValueId} (hs : WorksOn m f s) (hb : m.funcOf b = some f)
    (hv : ∀ v ∈ insts, v ∈ m.instsOf b) (h : s.visitAll insts = .ok s') : WorksOn m f s' := by
  induction insts generalizing s with
  | nil =>
    cases h
    exact hs
  | cons v rest ih =>
    obtain ⟨hv, hrest⟩ := List.forall_mem_cons.1 hv
    obtain ⟨s₁, h₁, h⟩ := bind_eq_ok.1 h
    exact ih (visitInst_worksOn hm hf hs hb hv h₁) hrest h

theorem refreshAll_worksOn {insts : List ValueId} (hs : WorksOn m f s) (hb : m.funcOf b = some f)
    (hv : ∀ v ∈ insts, v ∈ m.instsOf b) (h : s.refreshAll insts = .ok s') : WorksOn m f s' := by
  induction insts generalizing s with
  | nil =>
    cases h
    exact hs
  | cons v rest ih =>
    obtain ⟨hv, hrest⟩ := List.forall_mem_cons.1 hv
    obtain ⟨s₁, h₁, h⟩ := bind_eq_ok.1 h
    exact ih (refresh_worksOn hm hf hs hb hv h₁) hrest h

theorem visitPhis_worksOn {blocks : List BlockId} (hs : WorksOn m f s)
    (hblocks : ∀ c ∈ blocks, m.funcOf c = some f) (h : s.visitPhis blocks = .ok s') :
    WorksOn m f s' := by
  induction blocks generalizing s with
  | nil =>
    cases h
    exact hs
  | cons c rest ih =>
    obtain ⟨hc, hrest⟩ := List.forall_mem_cons.1 hblocks
    obtain h | ⟨x, phis, s₁, -, -, hphis, h₁, h⟩ := visitPhis_cases h
    · exact ih hs hrest h
    · obtain ⟨phis', hphis', hmem⟩ := (hm.learns hs.learns).instsWhile ((hs.funcOf c).trans hc)
      cases hphis.symm.trans hphis'
      exact ih (refreshAll_worksOn hm hf hs hc (fun v hv => ((hmem v).1 hv).1) h₁) hrest h

/-- Entering a block of the function. Its last instruction can be a return that uses a label, which
is that of a block of the function, too. -/
theorem visitBlock_worksOn (hs : WorksOn m f s) (hb : m.funcOf b = some f)
    (h : s.visitBlock b = .ok s') : WorksOn m f s' := by
  obtain ⟨x, -, rfl | ⟨m₁, insts, s₂, succs, -, hset, hinsts, h₂, hsuccs, h⟩⟩ := visitBlock_cases h
  · exact hs
  · have hs₁ : WorksOn m f { s with module := m₁ } := by
      refine ⟨hs.learns.tail (.reach hset), hs.blocks, hs.values, fun v hv => ?_, fun c hc => ?_⟩
      · obtain ⟨y, -, rfl⟩ := modifyBlock_eq_ok.1 hset
        exact hs.known v hv
      · have hne : c ≠ b := by
          rintro rfl
          exact hc hb
        exact ((reachedOf_setReachable hset c).trans (if_neg hne)).trans (hs.reached c hc)
    cases hinsts.symm.trans ((hm.learns hs₁.learns).insts ((hs₁.funcOf b).trans hb))
    have hs₂ := visitAll_worksOn hm hf hs₁ hb (fun v hv => hv) h₂
    refine visitPhis_worksOn hm hf hs₂ (fun c hc => ?_) h
    obtain ⟨phis, body, term, hlist, -⟩ := hm.laid hb
    cases hsuccs.symm.trans
      ((hm.learns hs₂.learns).successors ((hs₂.funcOf b).trans hb) hlist)
    rw [List.mem_eraseDups, exitsOf_of_skeleton hs₂.learns.skeleton_eq] at hc
    obtain ⟨l, hl, hk⟩ := List.mem_filterMap.1 hc
    exact hf.labels hb (v := term) (by simp [hlist]) hl (blockOf?_eq_some.1 hk)

theorem revisit_worksOn (hs : WorksOn m f s) (hv : ∀ b, v ∈ m.instsOf b → m.funcOf b = some f)
    (h : s.revisit v = .ok s') : WorksOn m f s' := by
  obtain rfl | ⟨x, b, y, hx, hb, -, -, h⟩ := revisit_cases h
  · exact hs
  · have hlink : s.module.linkOf v = x.link := valueField_eq (value_eq_ok.1 hx)
    have hmem : v ∈ m.instsOf b := (hm.learns hs.learns).threads.mem_of_block (by rw [hlink, hb])
    exact visitInst_worksOn hm hf hs (hv b hmem) hmem h

/-- One item of work on a function is done inside of it. -/
theorem step_worksOn (hs : WorksOn m f s) (h : s.step = .ok (some s')) : WorksOn m f s' := by
  obtain ⟨m₁, rest, values, ⟨b, rfl, h₁⟩ | ⟨v, rfl, h₁⟩⟩ := step_cases h
  · obtain ⟨hb, hrest⟩ := List.forall_mem_cons.1 hs.blocks
    exact visitBlock_worksOn hm hf (s := ⟨m₁, rest, values⟩) { hs with blocks := hrest } hb h₁
  · obtain ⟨hv, hrest⟩ := List.forall_mem_cons.1 hs.values
    exact revisit_worksOn hm hf (s := ⟨m₁, [], values⟩) { hs with values := hrest } hv h₁

end Steps

end Solver

namespace Module

variable {m m₁ m' : Module} {f : FuncId} {b : BlockId} {inst u v w : ValueId}
  {owner : ValueId → Option FuncId} {lists : BlockId → List ValueId}

/-- Propagation over a function is done inside of it. -/
theorem Enclosed.solve {n : Nat} (hf : m.Enclosed f) (hm : WellFormed m m.instsOf)
    (h : m.solve f = .ok (n, m')) : Solver.WorksOn m f ⟨m', [], []⟩ := by
  obtain ⟨m₁, hreset, h⟩ := bind_eq_ok.1 h
  obtain ⟨y, hy, h⟩ := bind_eq_ok.1 h
  have hlearns := resetReachability_learns hreset
  have hstart : Solver.WorksOn m f ⟨m₁, [], []⟩ := by
    refine ⟨hlearns, List.forall_mem_nil _, List.forall_mem_nil _,
      fun v _ => knownOf_of_reset hreset v, fun b hb => ?_⟩
    exact (reachedOf_resetReachability hreset b).trans
      (if_neg fun hmem => hb (hm.owned.mem_blocksOf.1 hmem))
  split at h
  · cases h
    exact hstart
  · rename_i entry hentry
    have hb : m.funcOf entry = some f := by
      rw [← hstart.funcOf]
      exact (hm.learns hlearns).owned.mem.2 ⟨y, lookupOr_eq_ok.1 hy, List.mem_of_head? hentry⟩
    have hentry : Solver.WorksOn m f ⟨m₁, [entry], []⟩ :=
      ⟨hlearns, by simpa using hb, hstart.values, hstart.known, hstart.reached⟩
    exact Solver.run_keeps (fun hs hstep => Solver.step_worksOn hm hf hs hstep) hentry h

/-! ## Folding -/

/-- An instruction has been taken out of its block. -/
def Taken (m m' : Module) (v : ValueId) : Prop := ∃ b, v ∈ m.instsOf b ∧ v ∉ m'.instsOf b

/-- Instructions have been taken out of their blocks, and constants put in for them. -/
structure Trimmed (m m' : Module) : Prop where
  grown : Grown m m'
  created : ∀ v, m.values.size ≤ v.idx → v.idx < m'.values.size →
    ∃ n, m'.kindOf v = some (.const (.int n))
  insts : ∀ b, ∀ v ∈ m'.instsOf b, v ∈ m.instsOf b
  operands : ∀ v, ∀ o ∈ m'.operandsOf v, o ∈ m.operandsOf v ∨ m.values.size ≤ o.idx
  uses : ∀ v, v.idx < m.values.size → m'.usesOf v ≠ m.usesOf v →
    ∃ u, Taken m m' u ∧ (v = u ∨ v ∈ m.operandsOf u)

namespace Trimmed

theorem refl (m : Module) : Trimmed m m where
  grown := .of_bare rfl
  created _ hle hlt := absurd hlt (Nat.not_lt.2 hle)
  insts _ _ hv := hv
  operands _ _ ho := .inl ho
  uses _ _ hne := absurd rfl hne

theorem trans (h₁ : Trimmed m m₁) (h : Trimmed m₁ m') : Trimmed m m' where
  grown := h₁.grown.trans h.grown
  created v hle hlt := by
    by_cases hv : v.idx < m₁.values.size
    · obtain ⟨n, hn⟩ := h₁.created v hle hv
      exact ⟨n, (h.grown.kindOf hv).trans hn⟩
    · exact h.created v (Nat.le_of_not_lt hv) hlt
  insts b v hv := h₁.insts b v (h.insts b v hv)
  operands v o ho := by
    rcases h.operands v o ho with ho | hle
    · exact h₁.operands v o ho
    · exact .inr (h₁.grown.size_le.trans hle)
  uses v hlt hne := by
    by_cases hsame : m₁.usesOf v = m.usesOf v
    · obtain ⟨u, ⟨b, hu, hgone⟩, hv⟩ :=
        h.uses v (hlt.trans_le h₁.grown.size_le) (hsame ▸ hne)
      refine ⟨u, ⟨b, h₁.insts b u hu, hgone⟩, hv.imp_right fun hv => ?_⟩
      -- a value of the first module is no new constant
      exact (h₁.operands u v hv).resolve_right (Nat.not_le.2 hlt)
    · obtain ⟨u, ⟨b, hu, hgone⟩, hv⟩ := h₁.uses v hlt hsame
      exact ⟨u, ⟨b, hu, fun hmem => hgone (h.insts b u hmem)⟩, hv⟩

end Trimmed

/-- A constant is put in for an instruction. -/
theorem Threads.trimmed_replaceAllUses {n : Int64} {ty : Ty} {r : Except GraphError Unit}
    (ht : Threads m lists) (hm : Mirrored m) (hv : inst ∈ lists b)
    (h : (m.addConst (.int n) ty).2.replaceAllUses inst m.nextValue = .ok (r, m')) :
    Trimmed m m' := by
  have hgrown : Grown m (m.addConst (.int n) ty).2 := .addConst _ _
  have hsize : (m.addConst (.int n) ty).2.values.size = m.values.size + 1 := by
    simp [addConst, addValue]
  have hkind : (m.addConst (.int n) ty).2.kindOf m.nextValue = some (.const (.int n)) := by
    simp [kindOf, valueField, addConst, addValue, nextValue]
  have hops : (m.addConst (.int n) ty).2.operandsOf = m.operandsOf := valueField_addValue _ _ _ rfl
  have huses : (m.addConst (.int n) ty).2.usesOf = m.usesOf := valueField_addValue _ _ _ rfl
  have ht₁ := (Still.addConst m (.int n) ty).threads ht
  have hm₁ : Mirrored (m.addConst (.int n) ty).2 := Step.mirrored (.const m _ _) hm
  generalize (m.addConst (.int n) ty).2 = m₁ at *
  have hnew {v : ValueId} (hlt : v.idx < m.values.size) : v ≠ m.nextValue := by
    rintro rfl
    exact Nat.lt_irrefl _ hlt
  rcases ht₁.cases_replaceAllUses hm₁ h with
    ⟨-, heq, -⟩ | ⟨rfl, -, m₂, hred, ⟨hnot, -⟩ | ⟨-, hrem, hdis⟩⟩
  · exact absurd heq (hnew (ht.lt_of_mem hv))
  · exact absurd (ht₁.inst hv) hnot
  have hbare := hrem.bare.trans hred.bare
  have hinsts (c : BlockId) : m'.instsOf c = (lists c).filter (· ∉ [inst]) :=
    congrFun hrem.threads.instsOf_eq c
  refine ⟨hgrown.trans (.of_bare hbare), fun v hle hlt => ?_, fun c v hv => ?_, fun v o ho => ?_,
    fun v hlt hne => ⟨inst, ⟨b, ?_, ?_⟩, ?_⟩⟩
  · have hv : v = m.nextValue := by
      rw [size_of_bare hbare, hsize] at hlt
      exact ValueId.ext (Nat.le_antisymm (Nat.le_of_lt_succ hlt) hle)
    exact ⟨n, by rw [kindOf_of_bare hbare, hv, hkind]⟩
  · rw [hinsts] at hv
    rw [ht.instsOf_eq]
    exact (List.mem_filter.1 hv).1
  · rw [hrem.operands] at ho
    split at ho
    · cases ho
    · rw [hred.operands, hops] at ho
      obtain ⟨o', ho', rfl⟩ := List.mem_map.1 ho
      split
      · exact .inr (Nat.le_refl _)
      · exact .inl ho'
  · rw [ht.instsOf_eq]
    exact hv
  · rw [hinsts]
    simp
  · by_contra hnone
    obtain ⟨hself, hoperand⟩ := not_or.1 hnone
    refine hne ?_
    rw [hrem.usesOf_eq hred.mirrored (usesOf_sublist_disconnect hdis), hred.uses,
      if_neg (hnew hlt), if_neg hself, huses, List.filter_eq_self]
    intro use huse
    have hop := hm.mem.1 huse
    have huser : use.user ≠ inst := by
      rintro rfl
      exact hoperand (List.mem_of_getElem? hop)
    simpa using huser

theorem Threads.trimmed_foldInst {r : Except GraphError Nat} (ht : Threads m lists)
    (hm : Mirrored m) (hv : inst ∈ lists b) (h : m.foldInst inst = .ok (r, m')) : Trimmed m m' := by
  obtain ⟨x, -, h⟩ := bind_eq_ok.1 h
  split at h
  · cases h
    exact .refl m
  · split at h
    · obtain ⟨⟨r₁, m₁⟩, h₁, h⟩ := bind_eq_ok.1 h
      have htrim := ht.trimmed_replaceAllUses hm hv h₁
      cases r₁ <;> cases h <;> exact htrim
    · cases h
      exact .refl m

theorem Threads.trimmed_foldInsts {l : List ValueId} {acc : Nat} {r : Except GraphError Nat}
    (ht : Threads m lists) (hm : Mirrored m) (hl : ∀ v ∈ l, v ∈ lists b) (hnodup : l.Nodup)
    (h : editFold foldInst (· + ·) acc m l = .ok (r, m')) : Trimmed m m' := by
  induction l generalizing m lists acc with
  | nil =>
    cases h
    exact .refl _
  | cons v rest ih =>
    obtain ⟨hv, hrest⟩ := List.forall_mem_cons.1 hl
    obtain ⟨hnotin, hnodup⟩ := List.nodup_cons.1 hnodup
    obtain ⟨⟨r₁, m₁⟩, h₁, h⟩ := bind_eq_ok.1 h
    have htrim := ht.trimmed_foldInst hm hv h₁
    have hm₁ : Mirrored m₁ := (foldInst_steps h₁).keep (fun h hs => hs.mirrored h) hm
    rcases foldInst_eq ht hm hv with ⟨heq, -⟩ | ⟨n, m₂, -, heq, -, ht₂, -⟩
    · cases h₁.symm.trans heq
      exact ih ht hm hrest hnodup h
    · cases h₁.symm.trans heq
      refine htrim.trans (ih ht₂ hm₁ (fun w hw => ?_) hnodup h)
      have hne : w ≠ v := by
        rintro rfl
        exact hnotin hw
      exact (List.mem_erase_of_ne hne).2 (hrest w hw)

theorem Threads.trimmed_foldBlock {r : Except GraphError Nat} (ht : Threads m lists)
    (hm : Mirrored m) (h : m.foldBlock b = .ok (r, m')) : Trimmed m m' := by
  obtain ⟨x, hx, h⟩ := bind_eq_ok.1 h
  split at h
  · obtain ⟨insts, hinsts, h⟩ := bind_eq_ok.1 h
    cases hinsts.symm.trans (ht.insts (block_eq_ok.1 hx))
    exact ht.trimmed_foldInsts hm (fun v hv => hv) (ht.nodup b) h
  · cases h
    exact .refl m

theorem Threads.trimmed_foldConstants {r : Except GraphError Nat} (ht : Threads m lists)
    (hm : Mirrored m) (h : m.foldConstants f = .ok (r, m')) : Trimmed m m' := by
  obtain ⟨y, -, h⟩ := bind_eq_ok.1 h
  -- the lists and the use lists of the modules on the way are consistent, too
  refine (editFold_chain (R := fun m m' => Steps m m' ∧ ((∃ lists, Threads m lists) → Mirrored m →
    Trimmed m m')) (fun m => ⟨.refl, fun _ _ => .refl m⟩) ?_ ?_ h).2 ⟨lists, ht⟩ hm
  · rintro m m₁ m' ⟨hsteps₁, h₁⟩ ⟨hsteps, h⟩
    refine ⟨hsteps₁.trans hsteps, fun ht hm => (h₁ ht hm).trans (h ?_ ?_)⟩
    · exact hsteps₁.keep (fun h hs => hs.threads h) ht
    · exact hsteps₁.keep (fun h hs => hs.mirrored h) hm
  · intro m m' b r h
    refine ⟨foldBlock_steps h, ?_⟩
    rintro ⟨lists, ht⟩ hm
    exact ht.trimmed_foldBlock hm h

/-! ## The pass -/

/-- A pure instruction of a function has been taken out of its block. -/
def FoldedIn (m : Module) (f : FuncId) (m' : Module) (u : ValueId) : Prop :=
  ∃ b k, m.funcOf b = some f ∧ u ∈ m.instsOf b ∧ u ∉ m'.instsOf b ∧
    m.kindOf u = some (.inst k) ∧ k.isPure = true

/-- What a pass over one function can have changed. Blocks of other functions have the same
instructions and the same marks, and instructions of other functions the same operands. Lattice
values differ for instructions of the function only, and use lists for instructions that have been
folded and for their operands. All new values are constants. -/
structure Confined (m : Module) (owner : ValueId → Option FuncId) (f : FuncId) (m' : Module) :
    Prop where
  funcs : m'.funcs = m.funcs
  insts : ∀ b, m.funcOf b ≠ some f → m'.instsOf b = m.instsOf b
  reached : ∀ b, m.funcOf b ≠ some f → m'.reachedOf b = m.reachedOf b
  operands : ∀ u g, m.IsInst u → owner u = some g → g ≠ f → m'.operandsOf u = m.operandsOf u
  known : ∀ v, v.idx < m.values.size → (∀ b, m.funcOf b = some f → v ∉ m.instsOf b) →
    m'.knownOf v = m.knownOf v
  uses : ∀ v, v.idx < m.values.size → m'.usesOf v ≠ m.usesOf v →
    ∃ u, m.FoldedIn f m' u ∧ (v = u ∨ v ∈ m.operandsOf u)
  created : ∀ v, m.values.size ≤ v.idx → v.idx < m'.values.size →
    ∃ n, m'.kindOf v = some (.const (.int n))

/-- What the solver has done to a function, and folding after it. -/
theorem Confined.of_folding {s : Module} {sub : ValueId → ValueId} (hm : WellFormed m m.instsOf)
    (ho : m.Owns owner) (hsec : m.Secluded owner) (hs : Solver.WorksOn m f ⟨s, [], []⟩)
    (hfold : Folding s m.instsOf f sub m') (htrim : Trimmed s m') : m.Confined owner f m' := by
  have hskel : s.skeleton = m.skeleton := hs.learns.skeleton_eq
  have hsize := values_size_of_skeleton hskel
  have hinsts : s.instsOf = m.instsOf := instsOf_of_skeleton hskel
  have hinsts' (b : BlockId) : m'.instsOf b = (m.instsOf b).filter fun v => sub v = v :=
    congrFun hfold.threads.instsOf_eq b
  -- an instruction that is gone stands in the function
  have hgone {v : ValueId} (hv : sub v ≠ v) : ∃ b, m.funcOf b = some f ∧ v ∈ m.instsOf b := by
    obtain ⟨b, hb, -, hmem⟩ := hfold.live hv
    exact ⟨b, funcOf_of_skeleton hskel ▸ hb, hmem⟩
  have hblock {b : BlockId} {v : ValueId} (hv : v ∈ m.instsOf b) (hne : sub v ≠ v) :
      m.funcOf b = some f := by
    obtain ⟨c, hc, hmem⟩ := hgone hne
    cases (hm.threads.block_of_mem hv).symm.trans (hm.threads.block_of_mem hmem)
    exact hc
  have howner {v : ValueId} (hv : sub v ≠ v) : owner v = some f := by
    obtain ⟨b, hb, hmem⟩ := hgone hv
    exact (ho.inst b v hmem).trans hb
  refine ⟨hfold.grown.funcs.trans (funcs_of_skeleton hskel), fun b hb => ?_, fun b hb => ?_,
    fun u g hu hg hne => ?_, fun v hlt hv => ?_, fun v hlt hne => ?_, ?_⟩
  · rw [hinsts', List.filter_eq_self]
    exact fun v hv => decide_eq_true (by_contra fun hne => hb (hblock hv hne))
  · rw [hfold.grown.reachedOf]
    exact hs.reached b hb
  · have hkept : sub u = u := by
      by_contra hsub
      exact hne (Option.some.inj (hg.symm.trans (howner hsub)))
    rw [hfold.operands hkept, operandsOf_of_skeleton hskel]
    refine (List.map_congr_left fun o ho => ?_).trans (List.map_id _)
    by_contra hsub
    exact hne (hsec u o g f hu ho hg (howner hsub))
  · rw [hfold.grown.knownOf (hsize ▸ hlt)]
    exact hs.known v hv
  · have huses : s.usesOf = m.usesOf := valueField_of_skeleton hskel fun _ _ => rfl
    obtain ⟨u, ⟨b, hu, hnot⟩, hv⟩ := htrim.uses v (hsize ▸ hlt) (huses ▸ hne)
    rw [hinsts] at hu
    rw [operandsOf_of_skeleton hskel] at hv
    have hsub : sub u ≠ u := fun hkept =>
      hnot ((hinsts' b).symm ▸ List.mem_filter.2 ⟨hu, decide_eq_true hkept⟩)
    obtain ⟨n, ⟨⟨k, hk, hpure⟩, -⟩, -⟩ := hfold.gone hsub
    rw [kindOf_of_skeleton hskel] at hk
    exact ⟨u, ⟨b, k, hblock hu hsub, hu, hnot, hk, hpure⟩, hv⟩
  · exact hsize ▸ htrim.created

/-- In a module that was built and accepted, whose functions do not use each other's instructions
and labels, the pass over a function does its work and changes nothing outside of the function. -/
theorem foldFunction_confined (hbuilt : m.Built) (hverify : m.verify = .ok none)
    (hf : f.idx < m.funcs.size) (ho : m.Owns owner) (hsec : m.Secluded owner) :
    ∃ changed m', m.foldFunction f = .ok (.ok changed, m') ∧ m.Confined owner f m' := by
  obtain ⟨lists, hm⟩ := hbuilt.wellFormed hverify
  obtain rfl := hm.threads.instsOf_eq
  have hy := Array.getElem?_eq_getElem hf
  obtain ⟨n, s, hsolve, hlearns⟩ := hm.exists_solve hy
  have hm₁ := hm.learns hlearns
  obtain ⟨count, sub, m', hfold, hfolding⟩ :=
    hm₁.foldConstants (by rw [funcs_of_skeleton hlearns.skeleton_eq]; exact hy)
  have hs := (hsec.enclosed ho hm f).solve hm hsolve
  refine ⟨decide (count > 0), m', bind_eq_ok.2 ⟨_, hsolve, bind_eq_ok.2 ⟨_, hfold, rfl⟩⟩, ?_⟩
  exact .of_folding hm ho hsec hs hfolding (hm₁.threads.trimmed_foldConstants hm₁.mirrored hfold)

/-- Calls that build two functions over the same constants. Each has a sum that can be folded, and
an instruction that stands in no block uses it. -/
def twinActions : List Action := [
  .addFunction "f" .i32 [("n", .i32)], .addFunction "g" .i32 [("n", .i32)],
  .addBlock ⟨0⟩ "entry", .addBlock ⟨1⟩ "entry",
  .build ⟨0⟩ (.i32 2), .build ⟨0⟩ (.i32 3),
  .build ⟨0⟩ (.binary .add ⟨4⟩ ⟨5⟩), .build ⟨0⟩ (.binary .mul ⟨6⟩ ⟨0⟩),
  .build ⟨0⟩ (.ret (some ⟨7⟩)),
  .build ⟨1⟩ (.binary .add ⟨4⟩ ⟨5⟩), .build ⟨1⟩ (.ret (some ⟨9⟩)),
  .createInst (.binary .sub) .i32 [⟨6⟩, ⟨4⟩] none,
  .createInst (.binary .sub) .i32 [⟨9⟩, ⟨5⟩] none]

/-- The module that `twinActions` build. -/
def twinModule : Module := (twinActions.foldlM Action.run {}).toOption.getD {}

/-- The function that each value of the module belongs to. The constants belong to none. -/
def twinOwner (v : ValueId) : Option FuncId :=
  if v.idx ∈ [0, 2, 6, 7, 8, 11] then some ⟨0⟩
  else if v.idx ∈ [1, 3, 9, 10, 12] then some ⟨1⟩
  else none

/-- The sum of the second function is not looked at, and its users keep it. -/
theorem foldFunction_confined_twin :
    ∃ changed m', twinModule.foldFunction ⟨0⟩ = .ok (.ok changed, m') ∧
      twinModule.Confined twinOwner ⟨0⟩ m' ∧ m'.instsOf ⟨1⟩ = [⟨9⟩, ⟨10⟩] ∧
      m'.knownOf ⟨9⟩ = .top ∧ m'.operandsOf ⟨12⟩ = [⟨9⟩, ⟨5⟩] := by
  have howns : twinModule.Owns twinOwner := by decide +kernel
  obtain ⟨changed, m', hfold, h⟩ := foldFunction_confined (m := twinModule) (f := ⟨0⟩)
    ⟨twinActions, rfl⟩ (by decide +kernel) (by decide +kernel) howns (by decide +kernel)
  refine ⟨changed, m', hfold, h, ?_, ?_, ?_⟩
  · exact (h.insts ⟨1⟩ (by decide +kernel)).trans (by decide +kernel)
  · refine (h.known ⟨9⟩ (by decide +kernel) fun b hb hv => ?_).trans (by decide +kernel)
    exact absurd ((howns.inst b _ hv).trans hb) (by decide)
  · exact (h.operands ⟨12⟩ ⟨1⟩ (isInst_iff_asInst.2 (by decide +kernel)) (by decide)
      (by decide)).trans (by decide +kernel)

end Module

end SsaCodegen
