import Mathlib.Data.List.TakeWhile
import SsaCodegen.Proofs.Semantics.Graph

/-!
# Static single assignment

A function is in SSA form when every use of a value is dominated by its definition, when each phi
lists every predecessor of its block once and nothing else, and when no branch goes to the entry.
Dominance is said in terms of ways through the function: whichever way control comes to a use, the
definition was passed. A phi is defined where its block is entered along an edge, so the phis of the
entry are never defined, and an instruction without a result defines nothing.

A value may be computed anew each time around a loop. What is asked of an instruction that was moved
away from its operands, such as a comparison that is carried out by a branch, is that none of the
operands was computed anew in between. In SSA form that never happens between the definition and a
use: otherwise there would be a way to the use that avoids the definition.

## Main definitions

* `Module.Reaches` — the ways from one place in a function to another
* `Module.SsaForm` — a function is in SSA form
* `Module.PhisMatchPreds` — the part of that which is about the operands of phis
* `Module.Availability` — evidence for that: what is available at the start of each block
* `Module.Stale` — an operand of an instruction may have been computed anew since the instruction

## Main results

* `Module.Availability.ssaForm` — the evidence is enough
* `Module.SsaForm.not_stale` — where a value is used, its operands are what they were
-/

namespace SsaCodegen

/-- A place in a function: a block and those of its instructions that are still to come. -/
structure Point where
  block : BlockId
  rest : List ValueId

namespace Module

variable {m : Module} {f : FuncId} {lists : BlockId → List ValueId}

/-! ## Ways through a function -/

/-- One move of control and what is evaluated on it: an instruction, or the phis of a block that is
entered. -/
inductive Move (m : Module) : Point → List ValueId → Point → Prop where
  | inst {b : BlockId} {pre rest : List ValueId} {v w : ValueId} :
    m.bodyOf b = pre ++ v :: w :: rest → Move m ⟨b, v :: w :: rest⟩ [v] ⟨b, w :: rest⟩
  | jump {b c : BlockId} {pre : List ValueId} {t : ValueId} :
    m.bodyOf b = pre ++ [t] → c ∈ m.succsOf b → Move m ⟨b, [t]⟩ (m.phisOf c) ⟨c, m.bodyOf c⟩

/-- A way from one place to another and what is evaluated on it, the latest first. -/
inductive Reaches (m : Module) (p : Point) : List ValueId → Point → Prop where
  | refl : Reaches m p [] p
  | move {q r : Point} {ds es : List ValueId} :
    Reaches m p ds q → Move m q es r → Reaches m p (es ++ ds) r

theorem Reaches.trans {p q r : Point} {ds es : List ValueId} (h : m.Reaches p ds q)
    (h' : m.Reaches q es r) : m.Reaches p (es ++ ds) r := by
  induction h' with
  | refl => exact h
  | move _ hmove ih =>
    rw [List.append_assoc]
    exact ih.move hmove

/-- A way from the entry of a function to a place, and what is evaluated on it. -/
def Walk (m : Module) (f : FuncId) (ds : List ValueId) (q : Point) : Prop :=
  ∃ entry, (m.blocksOf f).head? = some entry ∧ m.Reaches ⟨entry, m.bodyOf entry⟩ ds q

theorem Walk.move {q r : Point} {ds es : List ValueId} (h : m.Walk f ds q) (hm : m.Move q es r) :
    m.Walk f (es ++ ds) r := by
  obtain ⟨entry, hentry, h⟩ := h
  exact ⟨entry, hentry, h.move hm⟩

/-! ## SSA form -/

/-- The parameters of a function. -/
def paramsOf (m : Module) (f : FuncId) : List ValueId := (m.funcs[f.idx]?.map Func.params).getD []

theorem paramsOf_of_func {m : Module} {f : FuncId} {y : Func} (h : m.funcs[f.idx]? = some y) :
    m.paramsOf f = y.params := by
  rw [paramsOf, h]
  rfl

/-- Whether a value can be used in a function after some instructions were evaluated: it is the
result of one of them, a parameter of the function, or no matter of evaluation at all. -/
def available (m : Module) (f : FuncId) (ds : List ValueId) (o : ValueId) : Bool :=
  match m.kindOf o with
  | some (.inst _) => ds.contains o && m.yields o
  | some (.param _ _) => (m.paramsOf f).contains o
  | _ => true

/-- A function is in SSA form. -/
structure SsaForm (m : Module) (f : FuncId) : Prop where
  use : ∀ {ds b v rest}, m.Walk f ds ⟨b, v :: rest⟩ →
    ∀ o ∈ m.operandsOf v, m.available f ds o = true
  phiUse : ∀ {ds b t c v o}, m.Walk f ds ⟨b, [t]⟩ → c ∈ m.succsOf b → v ∈ m.phisOf c →
    (o, b) ∈ m.incoming v → m.available f ds o = true
  nodup : ∀ {b v}, b ∈ m.blocksOf f → v ∈ m.phisOf b → ((m.incoming v).map Prod.snd).Nodup
  preds : ∀ {b v p}, b ∈ m.blocksOf f → v ∈ m.phisOf b →
    (p ∈ (m.incoming v).map Prod.snd ↔ p ∈ m.blocksOf f ∧ b ∈ m.succsOf p)
  entry : ∀ {b c}, b ∈ m.blocksOf f → c ∈ m.succsOf b → (m.blocksOf f).head? ≠ some c

/-- The phis of a function list each predecessor of their block once and nothing else. -/
def PhisMatchPreds (m : Module) (f : FuncId) : Prop :=
  ∀ b ∈ m.blocksOf f, ∀ v ∈ m.phisOf b,
    ((m.incoming v).map Prod.snd).Perm ((m.blocksOf f).filter fun p => b ∈ m.succsOf p)

instance (m : Module) (f : FuncId) : Decidable (m.PhisMatchPreds f) :=
  inferInstanceAs (Decidable (∀ b ∈ m.blocksOf f, ∀ v ∈ m.phisOf b,
    ((m.incoming v).map Prod.snd).Perm ((m.blocksOf f).filter fun p => b ∈ m.succsOf p)))

theorem SsaForm.phisMatchPreds (h : m.SsaForm f) (hblocks : (m.blocksOf f).Nodup) :
    m.PhisMatchPreds f := by
  intro b hb v hv
  rw [List.perm_ext_iff_of_nodup (h.nodup hb hv) (hblocks.filter _)]
  intro p
  rw [h.preds hb hv, List.mem_filter, decide_eq_true_eq]

namespace PhisMatchPreds

variable (h : m.PhisMatchPreds f) {b : BlockId} {v o : ValueId} (hb : b ∈ m.blocksOf f)
  (hv : v ∈ m.phisOf b)
include h hb hv

theorem mem_preds {p : BlockId} :
    p ∈ (m.incoming v).map Prod.snd ↔ p ∈ m.blocksOf f ∧ b ∈ m.succsOf p := by
  rw [(h b hb v hv).mem_iff, List.mem_filter, decide_eq_true_eq]

theorem succ_of_mem {p : BlockId} (ho : (o, p) ∈ m.incoming v) : b ∈ m.succsOf p :=
  ((h.mem_preds hb hv).1 (List.mem_map.2 ⟨_, ho, rfl⟩)).2

/-- A phi takes one value on the way from a predecessor. -/
theorem incomingFrom_eq_some (hblocks : (m.blocksOf f).Nodup) {p : BlockId} :
    m.incomingFrom v p = some o ↔ (o, p) ∈ m.incoming v := by
  have hnodup : ((m.incoming v).map Prod.snd).Nodup := (h b hb v hv).nodup_iff.2 (hblocks.filter _)
  rw [incomingFrom, Option.map_eq_some_iff]
  constructor
  · rintro ⟨⟨o', p'⟩, hfind, rfl⟩
    have hp' := List.find?_some hfind
    obtain rfl : p' = p := of_decide_eq_true hp'
    exact List.mem_of_find?_eq_some hfind
  · intro ho
    obtain ⟨q, hq⟩ := Option.isSome_iff_exists.1
      ((List.find?_isSome (p := fun i : ValueId × BlockId => decide (i.2 = p))).2
        ⟨_, ho, decide_eq_true rfl⟩)
    have hq' := List.find?_some hq
    have heq := List.inj_on_of_nodup_map hnodup (List.mem_of_find?_eq_some hq) ho
      (of_decide_eq_true hq')
    exact ⟨q, hq, congrArg Prod.fst heq⟩

theorem exists_incomingFrom (hblocks : (m.blocksOf f).Nodup) {p : BlockId} (hp : p ∈ m.blocksOf f)
    (hsucc : b ∈ m.succsOf p) : ∃ o, m.incomingFrom v p = some o := by
  obtain ⟨⟨o, p'⟩, ho, rfl⟩ := List.mem_map.1 ((h.mem_preds hb hv).2 ⟨hp, hsucc⟩)
  exact ⟨o, (h.incomingFrom_eq_some hb hv hblocks).2 ho⟩

end PhisMatchPreds

theorem available_inst {ds : List ValueId} {o : ValueId} {k : InstKind}
    (hk : m.kindOf o = some (.inst k)) :
    m.available f ds o = true ↔ o ∈ ds ∧ m.yields o = true := by
  simp [available, hk]

theorem available_mono {ds es : List ValueId} {o : ValueId} (h : m.available f ds o = true)
    (hsub : ds ⊆ es) : m.available f es o = true := by
  rw [available] at h ⊢
  split
  · rename_i k hk
    simp only [hk, Bool.and_eq_true, List.contains_iff_mem] at h ⊢
    exact ⟨hsub h.1, h.2⟩
  · rename_i g i hk
    simpa only [hk] using h
  · rfl

/-! ## Evidence for SSA form -/

/-- Whether the operands of a list of instructions are available, given what is before the
first. -/
def usesAvailable (m : Module) (f : FuncId) (ds : List ValueId) : List ValueId → Bool
  | [] => true
  | v :: rest => (m.operandsOf v).all (m.available f ds) && m.usesAvailable f (v :: ds) rest

/-- What is available at the end of a block, given what is at its start. -/
def availableAtEnd (m : Module) (avail : BlockId → List ValueId) (b : BlockId) : List ValueId :=
  (m.bodyOf b).dropLast ++ avail b

/-- `avail` says, rightly, what is available after the phis of each block, and it is enough. -/
structure Availability (m : Module) (f : FuncId) (avail : BlockId → List ValueId) : Prop where
  start : ∀ b ∈ (m.blocksOf f).head?, avail b = []
  uses : ∀ b ∈ m.blocksOf f, m.usesAvailable f (avail b) (m.bodyOf b) = true
  edge : ∀ b ∈ m.blocksOf f, ∀ c ∈ m.succsOf b, c ∈ m.blocksOf f ∧ (m.blocksOf f).head? ≠ some c ∧
    avail c ⊆ m.phisOf c ++ m.availableAtEnd avail b
  phiUses : ∀ b ∈ m.blocksOf f, ∀ v ∈ m.phisOf b, ∀ i ∈ m.incoming v,
    m.available f (m.availableAtEnd avail i.2) i.1 = true
  nodup : ∀ b ∈ m.blocksOf f, ∀ v ∈ m.phisOf b, ((m.incoming v).map Prod.snd).Nodup
  listed : ∀ b ∈ m.blocksOf f, ∀ v ∈ m.phisOf b, ∀ i ∈ m.incoming v,
    i.2 ∈ m.blocksOf f ∧ b ∈ m.succsOf i.2
  lists : ∀ b ∈ m.blocksOf f, ∀ c ∈ m.succsOf b, ∀ v ∈ m.phisOf c,
    b ∈ (m.incoming v).map Prod.snd

theorem usesAvailable_mem {ds pre rest : List ValueId} {v o : ValueId}
    (h : m.usesAvailable f ds (pre ++ v :: rest) = true) (ho : o ∈ m.operandsOf v) :
    m.available f (pre ++ ds) o = true := by
  induction pre generalizing ds with
  | nil =>
    rw [List.nil_append, usesAvailable, Bool.and_eq_true] at h
    exact List.all_eq_true.1 h.1 o ho
  | cons u pre ih =>
    rw [List.cons_append, usesAvailable, Bool.and_eq_true] at h
    refine available_mono (ih h.2) ?_
    intro x hx
    simp only [List.cons_append, List.mem_append, List.mem_cons] at hx ⊢
    rcases hx with hx | rfl | hx
    · exact .inr (.inl hx)
    · exact .inl rfl
    · exact .inr (.inr hx)

namespace Availability

variable {avail : BlockId → List ValueId}

/-- Whichever way control comes to a place, what is said to be available was evaluated. -/
theorem subset (h : Availability m f avail) {ds : List ValueId} {q : Point}
    (hw : m.Walk f ds q) : q.block ∈ m.blocksOf f ∧
      ∃ pre, m.bodyOf q.block = pre ++ q.rest ∧ pre ++ avail q.block ⊆ ds := by
  obtain ⟨entry, hentry, hw⟩ := hw
  induction hw with
  | refl =>
    refine ⟨List.mem_of_head? hentry, [], rfl, ?_⟩
    rw [h.start entry hentry]
    exact List.nil_subset _
  | move _ hmove ih =>
    obtain ⟨hb, pre, hpre, hsub⟩ := ih
    cases hmove with
    | @inst b _ rest v w hbody =>
      refine ⟨hb, pre ++ [v], by rw [List.append_assoc]; exact hpre, ?_⟩
      intro x hx
      simp only [List.mem_append, List.mem_singleton] at hx ⊢
      rcases hx with (hx | rfl) | hx
      · exact .inr (hsub (List.mem_append_left _ hx))
      · exact .inl rfl
      · exact .inr (hsub (List.mem_append_right _ hx))
    | @jump b c _ t hbody hc =>
      obtain ⟨hc', -, havail⟩ := h.edge b hb c hc
      refine ⟨hc', [], rfl, ?_⟩
      intro x hx
      rcases List.mem_append.1 (havail hx) with hx | hx
      · exact List.mem_append_left _ hx
      · refine List.mem_append_right _ (hsub ?_)
        rw [availableAtEnd, hpre, List.dropLast_concat] at hx
        exact hx

theorem ssaForm (h : Availability m f avail) : m.SsaForm f where
  use {ds b v rest} hw o ho := by
    obtain ⟨hb, pre, hpre, hsub⟩ := h.subset hw
    have huses := h.uses b hb
    rw [hpre] at huses
    exact available_mono (usesAvailable_mem huses ho) hsub
  phiUse {ds b t c v o} hw hc hv ho := by
    obtain ⟨hb, pre, hpre, hsub⟩ := h.subset hw
    refine available_mono (h.phiUses c (h.edge b hb c hc).1 v hv _ ho) ?_
    rw [availableAtEnd, hpre, List.dropLast_concat]
    exact hsub
  nodup {b v} hb hv := h.nodup b hb v hv
  preds {b v p} hb hv := by
    constructor
    · intro hp
      obtain ⟨i, hi, rfl⟩ := List.mem_map.1 hp
      exact h.listed b hb v hv i hi
    · rintro ⟨hp, hsucc⟩
      exact h.lists p hp b hsucc v hv
  entry {b c} hb hc := (h.edge b hb c hc).2.1

end Availability

/-! ## Operands that were computed anew -/

/-- A value has just been evaluated. -/
def After (m : Module) (x : ValueId) (q : Point) : Prop := ∃ p ds, m.Move p ds q ∧ x ∈ ds

/-- An operand of an instruction may have been evaluated since the instruction was. -/
def Stale (m : Module) (c : ValueId) (q : Point) : Prop :=
  ∃ x k p ds, x ∈ m.operandsOf c ∧ m.kindOf x = some (.inst k) ∧ m.After x p ∧
    m.Reaches p ds q ∧ c ∉ ds

theorem Stale.move {c : ValueId} {q r : Point} {ds : List ValueId} (h : m.Stale c q)
    (hmove : m.Move q ds r) (hc : c ∉ ds) : m.Stale c r := by
  obtain ⟨x, k, p, es, hx, hk, hafter, hreach, hes⟩ := h
  refine ⟨x, k, p, ds ++ es, hx, hk, hafter, hreach.move hmove, ?_⟩
  exact fun hmem => (List.mem_append.1 hmem).elim hc hes

theorem Stale.of_move {c x : ValueId} {k : InstKind} {q r : Point} {ds : List ValueId}
    (hmove : m.Move q ds r) (hmem : x ∈ ds) (hx : x ∈ m.operandsOf c)
    (hk : m.kindOf x = some (.inst k)) : m.Stale c r :=
  ⟨x, k, r, [], hx, hk, ⟨q, ds, hmove, hmem⟩, .refl, nofun⟩

theorem isPhi_of_mem_phisOf {b : BlockId} {v : ValueId} (hv : v ∈ m.phisOf b) : m.isPhi v = true :=
  List.mem_takeWhile_imp hv

namespace WellFormed

variable (hm : WellFormed m lists)
include hm

theorem mem_of_mem_instsOf {b : BlockId} {v : ValueId} (hv : v ∈ m.instsOf b) :
    v ∈ lists b ∧ ∃ g, m.funcOf b = some g := by
  cases hb : m.funcOf b with
  | none =>
    rw [instsOf_eq_nil hb] at hv
    cases hv
  | some g =>
    rw [hm.instsOf_eq hb] at hv
    exact ⟨hv, g, rfl⟩

theorem mem_of_mem_phisOf {b : BlockId} {v : ValueId} (hv : v ∈ m.phisOf b) : v ∈ lists b :=
  (hm.mem_of_mem_instsOf (List.takeWhile_subset _ hv)).1

theorem mem_of_mem_bodyOf {b : BlockId} {v : ValueId} (hv : v ∈ m.bodyOf b) :
    v ∈ lists b ∧ m.isPhi v = false := by
  obtain ⟨hmem, g, hb⟩ := hm.mem_of_mem_instsOf (List.dropWhile_subset _ hv)
  obtain ⟨body, term, -, hbody, hlaid, -⟩ := hm.layout hb
  rw [hbody] at hv
  exact ⟨hmem, hlaid.not_isPhi_of_mem hv⟩

/-- There is one place right after the evaluation of a value. -/
theorem after_unique {x : ValueId} {q q' : Point} (h : m.After x q) (h' : m.After x q') :
    q = q' := by
  obtain ⟨p, ds, hmove, hx⟩ := h
  obtain ⟨p', ds', hmove', hx'⟩ := h'
  cases hmove with
  | @inst b pre rest v w hbody =>
    obtain rfl := List.mem_singleton.1 hx
    obtain ⟨hmem, hphi⟩ := hm.mem_of_mem_bodyOf (v := x) (by rw [hbody]; simp)
    cases hmove' with
    | @inst b' pre' rest' v' w' hbody' =>
      obtain rfl := List.mem_singleton.1 hx'
      obtain ⟨hmem', -⟩ := hm.mem_of_mem_bodyOf (v := x) (by rw [hbody']; simp)
      obtain rfl := hm.threads.eq_of_mem hmem hmem'
      have hnodup : (m.bodyOf b).Nodup := by
        obtain ⟨-, g, hb⟩ := hm.mem_of_mem_instsOf (b := b) (v := x)
          (List.dropWhile_subset _ (by rw [← bodyOf, hbody]; simp))
        refine ((List.dropWhile_sublist _).nodup ?_)
        rw [hm.instsOf_eq hb]
        exact hm.threads.nodup b
      rw [hbody] at hbody'
      have hrest : w :: rest = w' :: rest' := by
        rw [hbody] at hnodup
        have hnot := (List.nodup_append.1 hnodup).2.2
        have hpre : x ∉ pre := fun h => hnot x h x (by simp) rfl
        have hpost : x ∉ w :: rest := (List.nodup_cons.1 (List.nodup_append.1 hnodup).2.1).1
        exact ((List.append_cons_inj_of_notMem hpre hpost).1 hbody').2.2
      rw [hrest]
    | jump _ _ =>
      rw [isPhi_of_mem_phisOf hx'] at hphi
      cases hphi
  | @jump b c pre t hbody hc =>
    cases hmove' with
    | inst hbody' =>
      obtain rfl := List.mem_singleton.1 hx'
      obtain ⟨-, hphi⟩ := hm.mem_of_mem_bodyOf (v := x) (by rw [hbody']; simp)
      rw [isPhi_of_mem_phisOf hx] at hphi
      cases hphi
    | jump _ _ =>
      rw [hm.threads.eq_of_mem (hm.mem_of_mem_phisOf hx) (hm.mem_of_mem_phisOf hx')]

end WellFormed

namespace SsaForm

variable {c x : ValueId} {k : InstKind} (h : m.SsaForm f)
include h

/-- The operands of an instruction stay available once it is evaluated. -/
theorem operand_available {ds : List ValueId} {q : Point} (hphi : m.isPhi c = false)
    (hx : x ∈ m.operandsOf c) (hw : m.Walk f ds q) (hc : c ∈ ds) :
    m.available f ds x = true := by
  obtain ⟨entry, hentry, hw⟩ := hw
  induction hw with
  | refl => cases hc
  | move hreach hmove ih =>
    refine available_mono ?_ (List.subset_append_right _ _)
    rcases List.mem_append.1 hc with hc | hc
    · cases hmove with
      | inst _ =>
        obtain rfl := List.mem_singleton.1 hc
        exact h.use ⟨entry, hentry, hreach⟩ x hx
      | jump _ _ =>
        rw [isPhi_of_mem_phisOf hc] at hphi
        cases hphi
    · exact ih hc

/-- The operands of an instruction are evaluated before it. -/
theorem operand_mem {ds : List ValueId} {q : Point} (hphi : m.isPhi c = false)
    (hx : x ∈ m.operandsOf c) (hk : m.kindOf x = some (.inst k)) (hw : m.Walk f ds q)
    (hc : c ∈ ds) : x ∈ ds :=
  ((available_inst hk).1 (h.operand_available hphi hx hw hc)).1

/-- There is a way to an operand of an instruction that avoids the instruction. -/
theorem exists_walk_after {ds : List ValueId} {q : Point} (hphi : m.isPhi c = false)
    (hx : x ∈ m.operandsOf c) (hk : m.kindOf x = some (.inst k)) (hw : m.Walk f ds q)
    (hmem : x ∈ ds) : ∃ es p, m.Walk f es p ∧ m.After x p ∧ c ∉ es := by
  obtain ⟨entry, hentry, hw⟩ := hw
  induction hw with
  | refl => cases hmem
  | @move q r ds es hreach hmove ih =>
    by_cases hds : x ∈ ds
    · exact ih hds
    · -- the way ends at the first evaluation of the operand, so the instruction is not on it
      have hes : x ∈ es := (List.mem_append.1 hmem).resolve_right hds
      refine ⟨es ++ ds, r, ⟨entry, hentry, hreach.move hmove⟩, ⟨q, es, hmove, hes⟩, fun hc => ?_⟩
      have hw : m.Walk f ds q := ⟨entry, hentry, hreach⟩
      rcases List.mem_append.1 hc with hc | hc
      · cases hmove with
        | inst _ =>
          obtain rfl := List.mem_singleton.1 hc
          exact hds ((available_inst hk).1 (h.use hw x hx)).1
        | jump _ _ =>
          rw [isPhi_of_mem_phisOf hc] at hphi
          cases hphi
      · exact hds (h.operand_mem hphi hx hk hw hc)

/-- Where the result of an instruction is used, none of its operands was evaluated since the
instruction was: the way to the operand that avoids the instruction and the way on from there would
make a way to the use that avoids it. -/
theorem not_stale (hm : WellFormed m lists) {ds : List ValueId} {b : BlockId} {t : ValueId}
    {rest : List ValueId} {kc : InstKind} (hkc : m.kindOf c = some (.inst kc)) (hphi : kc ≠ .phi)
    (hw : m.Walk f ds ⟨b, t :: rest⟩) (hc : c ∈ m.operandsOf t) :
    ¬m.Stale c ⟨b, t :: rest⟩ := by
  have hphi : m.isPhi c = false := by
    rw [isPhi, hkc]
    simpa using hphi
  have huse {es : List ValueId} (hw : m.Walk f es ⟨b, t :: rest⟩) : c ∈ es :=
    ((available_inst hkc).1 (h.use hw c hc)).1
  rintro ⟨x, k, p, es, hx, hk, hafter, hreach, hnot⟩
  have hmem := h.operand_mem hphi hx hk hw (huse hw)
  obtain ⟨es', p', ⟨entry, hentry, hreach'⟩, hafter', hnot'⟩ :=
    h.exists_walk_after hphi hx hk hw hmem
  obtain rfl := hm.after_unique hafter hafter'
  rcases List.mem_append.1 (huse ⟨entry, hentry, hreach'.trans hreach⟩) with hc | hc
  · exact hnot hc
  · exact hnot' hc

end SsaForm

end Module

end SsaCodegen
