import SsaCodegen.Proofs.Semantics.Ssa
import SsaCodegen.Proofs.Semantics.Word

/-!
# A module with fewer instructions

Pure instructions can be taken out of a module when each of them is replaced by a constant. Whatever
the constants are, the shape of a function stays: its blocks and the ways through them, its frame and
the arguments of its calls. In particular a function in SSA form remains so, because a way through
what is left is a way through all that was there.

## Main definitions

* `Module.Thinned` — a module with constants in the place of some pure instructions

## Main results

* `Module.Thinned.trans` — twice thinned is thinned
* `Module.Thinned.ssaForm` — SSA form is kept
* `Module.Thinned.compute_eq` — so are the frames
-/

namespace SsaCodegen

namespace Module

/-- Fields are given by constants. -/
def FieldsNumbered (m : Module) : Prop :=
  ∀ {b v base index}, v ∈ m.instsOf b → m.kindOf v = some (.inst (.gep true)) →
    m.operandsOf v = [base, index] → ∃ n, m.constOf index = some n

/-- A module with constants in the place of some pure instructions of its blocks, which are in no
block any more. -/
structure Thinned (m : Module) (lists : BlockId → List ValueId) (sub : ValueId → ValueId)
    (m' : Module) : Prop where
  before : WellFormed m lists
  after : WellFormed m' fun b => (lists b).filter fun v => sub v = v
  funcs : m'.funcs = m.funcs
  types : m'.types = m.types
  kind : ∀ {v k}, m.kindOf v = some k → m'.kindOf v = some k
  ty : ∀ {v}, v.idx < m.values.size → m'.tyOf (sub v) = m.tyOf v
  operands : ∀ {v}, sub v = v → m'.operandsOf v = (m.operandsOf v).map sub
  gone : ∀ {v}, sub v ≠ v → (∃ b, v ∈ lists b) ∧
    (∃ k, m.kindOf v = some (.inst k) ∧ k.isPure = true) ∧
    ∃ n, m'.kindOf (sub v) = some (.const (.int n))

namespace Thinned

variable {m m₁ m' : Module} {lists : BlockId → List ValueId} {f : FuncId} {b c : BlockId}
  {v o : ValueId} {sub sub' : ValueId → ValueId} {ds rest : List ValueId} {q : Point}

/-! ## Values -/

theorem sub_eq (h : Thinned m lists sub m') (hk : ∀ k, m.kindOf v ≠ some (.inst k)) :
    sub v = v := by
  by_contra hne
  obtain ⟨-, ⟨k, hk', -⟩, -⟩ := h.gone hne
  exact hk k hk'

theorem sub_eq_of_not_pure (h : Thinned m lists sub m') {k : InstKind}
    (hk : m.kindOf v = some (.inst k)) (hpure : k.isPure = false) : sub v = v := by
  by_contra hne
  obtain ⟨-, ⟨k', hk', hpure'⟩, -⟩ := h.gone hne
  cases hk.symm.trans hk'
  cases hpure.symm.trans hpure'

theorem trans (h : Thinned m lists sub m₁)
    (h' : Thinned m₁ (fun b => (lists b).filter fun v => sub v = v) sub' m') :
    Thinned m lists (sub' ∘ sub) m' := by
  -- a constant is not replaced again
  have hconst {v : ValueId} (hv : sub v ≠ v) : sub' (sub v) = sub v := by
    obtain ⟨-, -, n, hk⟩ := h.gone hv
    exact h'.sub_eq fun k hk' => by cases hk.symm.trans hk'
  have hkept {v : ValueId} : sub' (sub v) = v ↔ sub v = v ∧ sub' v = v := by
    by_cases hv : sub v = v
    · simp [hv]
    · simp [hv, hconst hv]
  refine ⟨h.before, ?_, h'.funcs.trans h.funcs, h'.types.trans h.types,
    fun hk => h'.kind (h.kind hk), fun {v} hv => ?_, fun {v} hv => ?_, fun {v} hv => ?_⟩
  · have hlists : (fun b => (lists b).filter fun v => (sub' ∘ sub) v = v) =
        fun b => ((lists b).filter fun v => sub v = v).filter fun v => sub' v = v := by
      funext b
      rw [List.filter_filter]
      refine List.filter_congr fun v _ => ?_
      rw [Function.comp_apply, decide_eq_decide.2 hkept, Bool.decide_and, Bool.and_comm]
    rw [hlists]
    exact h'.after
  · have hlt : (sub v).idx < m₁.values.size := by
      by_cases hne : sub v = v
      · obtain ⟨k, hk⟩ := exists_kindOf hv
        rw [hne]
        exact lt_of_kindOf (h.kind hk)
      · obtain ⟨-, -, n, hk⟩ := h.gone hne
        exact lt_of_kindOf hk
    exact (h'.ty hlt).trans (h.ty hv)
  · obtain ⟨hsub, hsub'⟩ := hkept.1 hv
    rw [h'.operands hsub', h.operands hsub, List.map_map]
  · by_cases hsub : sub v = v
    · have hv' : sub' v ≠ v := fun hsub' => hv (hkept.2 ⟨hsub, hsub'⟩)
      obtain ⟨⟨b, hb⟩, ⟨k, hk, hpure⟩, n, hn⟩ := h'.gone hv'
      have hb := List.mem_of_mem_filter hb
      obtain ⟨k', hk'⟩ := h.before.threads.inst hb
      cases hk.symm.trans (h.kind hk')
      rw [Function.comp_apply, hsub]
      exact ⟨⟨b, hb⟩, ⟨k, hk', hpure⟩, n, hn⟩
    · obtain ⟨hb, hk, n, hn⟩ := h.gone hsub
      rw [Function.comp_apply, hconst hsub]
      exact ⟨hb, hk, n, h'.kind hn⟩

section

variable (h : Thinned m lists sub m')
include h

theorem lt (hv : v.idx < m.values.size) : v.idx < m'.values.size := by
  obtain ⟨k, hk⟩ := exists_kindOf hv
  exact lt_of_kindOf (h.kind hk)

theorem tyOf_eq (hkept : sub v = v) (hv : v.idx < m.values.size) : m'.tyOf v = m.tyOf v := by
  rw [← h.ty hv, hkept]

theorem bytesOf_eq (hv : v.idx < m.values.size) : m'.bytesOf (sub v) = m.bytesOf v := by
  rw [bytesOf, h.ty hv, h.types, bytesOf]

theorem pointeeOf_eq (hv : v.idx < m.values.size) : m'.pointeeOf (sub v) = m.pointeeOf v := by
  rw [pointeeOf, h.ty hv, pointeeOf]

theorem yields_eq {k : InstKind} (hkept : sub v = v) (hk : m.kindOf v = some (.inst k)) :
    m'.yields v = m.yields v := by
  rw [yields, h.kind hk, h.tyOf_eq hkept (lt_of_kindOf hk), yields, hk]

/-- Labels stand for the blocks that they stood for, and nothing has become a label. -/
theorem blockOf?_eq (hv : v.idx < m.values.size) : m'.blockOf? (sub v) = m.blockOf? v := by
  obtain ⟨k, hk⟩ := exists_kindOf hv
  have hblock {m : Module} {v : ValueId} {k : ValueKind} (hk : m.kindOf v = some k) :
      m.blockOf? v = k.asBlock := by
    obtain ⟨x, hx, rfl⟩ := kindOf_eq_some.1 hk
    rw [blockOf?, hx]
    rfl
  rw [hblock hk]
  by_cases hkept : sub v = v
  · rw [hkept, hblock (h.kind hk)]
  · obtain ⟨-, ⟨k', hk', -⟩, n, hn⟩ := h.gone hkept
    cases hk.symm.trans hk'
    rw [hblock hn]
    rfl

/-! ## Functions and blocks -/

theorem blocksOf_eq : m'.blocksOf f = m.blocksOf f := by rw [blocksOf, h.funcs, blocksOf]

theorem paramsOf_eq : m'.paramsOf f = m.paramsOf f := by rw [paramsOf, h.funcs, paramsOf]

theorem funcOf_eq : m'.funcOf b = m.funcOf b := by
  refine Option.ext fun f => ?_
  rw [h.after.owned.mem, h.before.owned.mem, h.funcs]

/-- What is left of a block: its phis, its body and the same terminator. -/
theorem layout (hb : m.funcOf b = some f) :
    m'.instsOf b = (m.instsOf b).filter (fun v => sub v = v) ∧
      m'.phisOf b = (m.phisOf b).filter (fun v => sub v = v) ∧
      m'.bodyOf b = (m.bodyOf b).filter (fun v => sub v = v) ∧
      ∃ body term, m.bodyOf b = body ++ [term] ∧ sub term = term ∧
        m.succsOf b = (m.exitsOf term).eraseDups ∧ m'.succsOf b = (m'.exitsOf term).eraseDups := by
  have hb' : m'.funcOf b = some f := h.funcOf_eq.trans hb
  obtain ⟨body, term, hlist, hbody, hlaid, hsuccs⟩ := h.before.layout hb
  obtain ⟨k, hk, hterm⟩ := hlaid.isTerm
  have hkept : sub term = term := h.sub_eq_of_not_pure hk (InstKind.isPure_of_isTerminator hterm)
  have hlist' : (lists b).filter (fun v => sub v = v) =
      (m.phisOf b).filter (fun v => sub v = v) ++ body.filter (fun v => sub v = v) ++ [term] := by
    rw [hlist, List.filter_append, List.filter_append]
    simp [hkept]
  have hlaid' : m'.Laid f ((m.phisOf b).filter fun v => sub v = v)
      (body.filter fun v => sub v = v) term := by
    refine ⟨fun hv => h.kind (hlaid.isPhi (List.mem_of_mem_filter hv)), fun hv => ?_,
      ⟨k, h.kind hk, hterm⟩, fun hv hk => h.after.fits hb' (hlist' ▸ hv) hk⟩
    obtain ⟨k, hk, hphi, hterm⟩ := hlaid.isBody (List.mem_of_mem_filter hv)
    exact ⟨k, h.kind hk, hphi, hterm⟩
  have hinsts : m'.instsOf b = (lists b).filter fun v => sub v = v := h.after.instsOf_eq hb'
  refine ⟨by rw [hinsts, h.before.instsOf_eq hb], ?_, ?_, body, term, hbody, hkept, hsuccs, ?_⟩
  · rw [Module.phisOf, hinsts, hlist', hlaid'.takeWhile_isPhi]
  · rw [Module.bodyOf, hinsts, hlist', hlaid'.dropWhile_isPhi, hbody, List.filter_append]
    simp [hkept]
  · rw [Module.succsOf, h.after.successors hb' hlist']
    rfl

theorem instsOf_eq (b : BlockId) : m'.instsOf b = (m.instsOf b).filter fun v => sub v = v := by
  cases hb : m.funcOf b with
  | some g => exact (h.layout hb).1
  | none => rw [instsOf_eq_nil (h.funcOf_eq.trans hb), instsOf_eq_nil hb, List.filter_nil]

theorem succsOf_eq (hb : m.funcOf b = some f) : m'.succsOf b = m.succsOf b := by
  obtain ⟨-, -, -, body, term, -, hkept, hsuccs, hsuccs'⟩ := h.layout hb
  rw [hsuccs, hsuccs', exitsOf, h.operands hkept, List.filterMap_map, exitsOf]
  congr 1
  exact List.filterMap_congr fun o ho => h.blockOf?_eq (h.before.operand_lt ho)

/-- The incoming values of a phi that is left. -/
theorem incoming_eq (hkept : sub v = v) :
    m'.incoming v = (m.incoming v).map fun i => (sub i.1, i.2) := by
  have hpairs {operands : List ValueId} (hlt : ∀ o ∈ operands, o.idx < m.values.size) :
      m'.incomingPairs (operands.map sub) =
        (m.incomingPairs operands).map fun i => (sub i.1, i.2) := by
    fun_induction incomingPairs m operands with
    | case1 value label rest b hb ih =>
      obtain ⟨-, hl, hrest⟩ := by simpa using hlt
      rw [List.map_cons, List.map_cons, incomingPairs, h.blockOf?_eq hl, hb]
      simp [ih hrest]
    | case2 value label rest hb ih =>
      obtain ⟨-, hl, hrest⟩ := by simpa using hlt
      rw [List.map_cons, List.map_cons, incomingPairs, h.blockOf?_eq hl, hb]
      exact ih hrest
    | case3 operands hne =>
      rcases operands with _ | ⟨value, _ | ⟨label, rest⟩⟩
      · rfl
      · rfl
      · exact absurd rfl (hne value label rest)
  rw [incoming, h.operands hkept, hpairs fun o ho => h.before.operand_lt ho, incoming]

/-! ## Ways through a function -/

/-- What could be used is a constant now or can still be used. -/
theorem available_sub (ho : o.idx < m.values.size) (hav : m.available f ds o = true) :
    m'.available f (ds.filter fun v => sub v = v) (sub o) = true := by
  by_cases hkept : sub o = o
  · obtain ⟨k, hk⟩ := exists_kindOf ho
    rw [hkept]
    rw [available, hk] at hav
    rw [available, h.kind hk]
    cases k with
    | inst k =>
      rw [Bool.and_eq_true, List.contains_iff_mem] at hav ⊢
      exact ⟨List.mem_filter.2 ⟨hav.1, decide_eq_true hkept⟩, (h.yields_eq hkept hk).trans hav.2⟩
    | param g i =>
      rw [h.paramsOf_eq]
      exact hav
    | const | global | block => rfl
  · obtain ⟨-, -, n, hn⟩ := h.gone hkept
    rw [available, hn]

/-- The terminator is left, so after the last instruction that is left nothing comes. -/
theorem eq_nil_of_filter {pre rest : List ValueId} (hb : m.funcOf b = some f)
    (hbody : m.bodyOf b = pre ++ rest) (hnone : rest.filter (fun v => sub v = v) = []) :
    rest = [] := by
  obtain ⟨-, -, -, body, term, hbody', hkept, -⟩ := h.layout hb
  rcases rest.eq_nil_or_concat with hnil | ⟨l, u, rfl⟩
  · exact hnil
  · rw [List.concat_eq_append] at hbody hnone
    rw [hbody', ← List.append_assoc] at hbody
    obtain rfl := List.singleton_inj.1 (List.append_inj' hbody rfl).2
    rw [List.filter_append] at hnone
    simp [hkept] at hnone

omit h in
/-- A way comes to the next instruction that is left, past those that are not. -/
theorem exists_walk_kept {v : ValueId} {pre rest left : List ValueId}
    (hw : m.Walk f ds ⟨b, rest⟩) (hbody : m.bodyOf b = pre ++ rest)
    (hleft : rest.filter (fun v => sub v = v) = v :: left) :
    ∃ ds' pre' rest', m.Walk f ds' ⟨b, v :: rest'⟩ ∧ m.bodyOf b = pre' ++ v :: rest' ∧
      ds'.filter (fun v => sub v = v) = ds.filter (fun v => sub v = v) ∧
      rest'.filter (fun v => sub v = v) = left := by
  induction rest generalizing ds pre with
  | nil => cases hleft
  | cons u tail ih =>
    by_cases hkept : sub u = u
    · rw [List.filter_cons_of_pos (by simpa using hkept)] at hleft
      cases hleft
      exact ⟨ds, pre, tail, hw, hbody, rfl, rfl⟩
    · rw [List.filter_cons_of_neg (by simpa using hkept)] at hleft
      cases tail with
      | nil => cases hleft
      | cons w tail =>
        obtain ⟨ds', pre', rest', hw', hbody', hds, hrest⟩ :=
          ih (hw.move (.inst hbody)) (hbody.trans (List.append_cons ..)) hleft
        refine ⟨ds', pre', rest', hw', hbody', ?_, hrest⟩
        rw [hds, List.singleton_append, List.filter_cons_of_neg (by simpa using hkept)]

/-- A way through what is left of a function is a way through the function. -/
theorem exists_walk (hw : m'.Walk f ds q) :
    ∃ es pre rest, m.Walk f es ⟨q.block, rest⟩ ∧ m.bodyOf q.block = pre ++ rest ∧
      (∃ g, m.funcOf q.block = some g) ∧ ds = es.filter (fun v => sub v = v) ∧
      q.rest = rest.filter fun v => sub v = v := by
  obtain ⟨entry, hentry, hreach⟩ := hw
  rw [h.blocksOf_eq] at hentry
  have hfunc := h.before.owned.mem_blocksOf.1 (List.mem_of_head? hentry)
  induction hreach with
  | refl =>
    obtain ⟨-, -, hbody, -⟩ := h.layout hfunc
    exact ⟨[], [], m.bodyOf entry, ⟨entry, hentry, .refl⟩, rfl, ⟨f, hfunc⟩, rfl, hbody⟩
  | move _ hmove ih =>
    obtain ⟨es, pre, rest, hw, hpre, ⟨g, hg⟩, rfl, hrest⟩ := ih
    cases hmove with
    | @inst b _ left v w hbody =>
      obtain ⟨es', pre', rest', hw', hpre', hes, hrest'⟩ := exists_walk_kept hw hpre hrest.symm
      have hkept : sub v = v := by
        have hmem : v ∈ rest.filter fun v => sub v = v := hrest ▸ List.mem_cons_self
        exact of_decide_eq_true (List.mem_filter.1 hmem).2
      obtain ⟨u, tail, rfl⟩ : ∃ u tail, rest' = u :: tail := by
        cases rest' with
        | nil => cases hrest'
        | cons u tail => exact ⟨u, tail, rfl⟩
      refine ⟨[v] ++ es', pre' ++ [v], u :: tail, hw'.move (.inst hpre'),
        hpre'.trans (List.append_cons ..), ⟨g, hg⟩, ?_, hrest'.symm⟩
      rw [List.singleton_append, List.singleton_append,
        List.filter_cons_of_pos (by simpa using hkept), hes]
    | @jump b c _ t hbody hc =>
      obtain ⟨es', pre', rest', hw', hpre', hes, hrest'⟩ := exists_walk_kept hw hpre hrest.symm
      obtain ⟨-, -, -, body, term, -, -, hsuccs, -⟩ := h.layout hg
      have hnil : rest' = [] := h.eq_nil_of_filter hg (hpre'.trans (List.append_cons ..)) hrest'
      subst hnil
      rw [h.succsOf_eq hg] at hc
      have hc' := hc
      rw [hsuccs, List.mem_eraseDups] at hc'
      obtain ⟨g', hg'⟩ := h.before.exists_funcOf hc'
      obtain ⟨-, hphis, hbody', -⟩ := h.layout hg'
      refine ⟨m.phisOf c ++ es', [], m.bodyOf c, hw'.move (.jump hpre' hc), rfl, ⟨g', hg'⟩, ?_,
        hbody'⟩
      rw [List.filter_append, hphis, hes]

/-- Among them is one that comes to the instruction that is next. -/
theorem exists_walk_next (hw : m'.Walk f ds ⟨b, v :: rest⟩) :
    ∃ es pre rest', m.Walk f es ⟨b, v :: rest'⟩ ∧ m.bodyOf b = pre ++ v :: rest' ∧
      (∃ g, m.funcOf b = some g) ∧ sub v = v ∧ ds = es.filter (fun v => sub v = v) ∧
      rest = rest'.filter fun v => sub v = v := by
  obtain ⟨es, pre, rest₀, hw₀, hpre, hg, rfl, hrest⟩ := h.exists_walk hw
  have hrest : v :: rest = rest₀.filter fun v => sub v = v := hrest
  obtain ⟨es', pre', rest', hw', hpre', hes, hrest'⟩ := exists_walk_kept hw₀ hpre hrest.symm
  have hmem : v ∈ rest₀.filter fun v => sub v = v := hrest ▸ List.mem_cons_self
  exact ⟨es', pre', rest', hw', hpre', hg, of_decide_eq_true (List.mem_filter.1 hmem).2, hes.symm,
    hrest'.symm⟩

/-- A function in SSA form remains so. -/
theorem ssaForm (hssa : m.SsaForm f) : m'.SsaForm f := by
  -- a phi that is left, in a block of the function or in one that it can go to
  have hphi {b : BlockId} {v : ValueId} {g : FuncId} (hb : m.funcOf b = some g)
      (hv : v ∈ m'.phisOf b) : v ∈ m.phisOf b ∧ sub v = v := by
    obtain ⟨-, hphis, -⟩ := h.layout hb
    rw [hphis, List.mem_filter] at hv
    exact ⟨hv.1, of_decide_eq_true hv.2⟩
  have hsnd {v : ValueId} (hkept : sub v = v) :
      (m'.incoming v).map Prod.snd = (m.incoming v).map Prod.snd := by
    rw [h.incoming_eq hkept, List.map_map]
    rfl
  have hmem {b : BlockId} (hb : b ∈ m'.blocksOf f) : b ∈ m.blocksOf f ∧ m.funcOf b = some f := by
    rw [h.blocksOf_eq] at hb
    exact ⟨hb, h.before.owned.mem_blocksOf.1 hb⟩
  refine ⟨fun {ds b v rest} hw o ho => ?_, fun {ds b t c v o} hw hc hv ho => ?_,
    fun {b v} hb hv => ?_, fun {b v p} hb hv => ?_, fun {b c} hb hc => ?_⟩
  · obtain ⟨es, pre, rest', hw₀, -, -, hkept, rfl, -⟩ := h.exists_walk_next hw
    rw [h.operands hkept] at ho
    obtain ⟨o₀, ho₀, rfl⟩ := List.mem_map.1 ho
    exact h.available_sub (h.before.operand_lt ho₀) (hssa.use hw₀ o₀ ho₀)
  · obtain ⟨es, pre, rest', hw₀, hpre, ⟨g, hg⟩, -, rfl, hrest⟩ := h.exists_walk_next hw
    obtain rfl := h.eq_nil_of_filter hg (hpre.trans (List.append_cons ..)) hrest.symm
    rw [h.succsOf_eq hg] at hc
    obtain ⟨-, -, -, body, term, -, -, hsuccs, -⟩ := h.layout hg
    obtain ⟨g', hg'⟩ := h.before.exists_funcOf (List.mem_eraseDups.1 (hsuccs ▸ hc))
    obtain ⟨hv, hkept⟩ := hphi hg' hv
    rw [h.incoming_eq hkept] at ho
    obtain ⟨i, hi, heq⟩ := List.mem_map.1 ho
    cases heq
    exact h.available_sub (h.before.operand_lt (mem_of_mem_incomingPairs hi))
      (hssa.phiUse hw₀ hc hv hi)
  · obtain ⟨hb, hg⟩ := hmem hb
    obtain ⟨hv, hkept⟩ := hphi hg hv
    rw [hsnd hkept]
    exact hssa.nodup hb hv
  · obtain ⟨hb, hg⟩ := hmem hb
    obtain ⟨hv, hkept⟩ := hphi hg hv
    rw [hsnd hkept, hssa.preds hb hv, h.blocksOf_eq]
    refine and_congr_right fun hp => ?_
    rw [h.succsOf_eq (h.before.owned.mem_blocksOf.1 hp)]
  · obtain ⟨hb, hg⟩ := hmem hb
    rw [h.succsOf_eq hg] at hc
    rw [h.blocksOf_eq]
    exact hssa.entry hb hc

/-! ## Frames -/

/-- The stack arguments and the variables of some instructions are those of what is left of them. -/
theorem values_eq {regArgs word n : Nat} {l : List ValueId} {xs : List (ValueId × Value)}
    (hxs : l.mapM (fun v => do return (v, ← m.value v)) = .ok xs)
    (hn : Frame.outgoingBytes regArgs word (xs.map Prod.snd) = .ok n) :
    ∃ xs', (l.filter fun v => sub v = v).mapM (fun v => do return (v, ← m'.value v)) = .ok xs' ∧
      Frame.outgoingBytes regArgs word (xs'.map Prod.snd) = .ok n ∧
      Frame.locals xs' = Frame.locals xs := by
  induction l generalizing xs n with
  | nil =>
    cases hxs
    exact ⟨[], rfl, hn, rfl⟩
  | cons v rest ih =>
    rw [List.mapM_cons] at hxs
    obtain ⟨_, hpair, hcons⟩ := bind_eq_ok.1 hxs
    obtain ⟨x, hvalue, heq⟩ := bind_eq_ok.1 hpair
    cases heq
    obtain ⟨xs, hrest, heq⟩ := bind_eq_ok.1 hcons
    cases heq
    obtain ⟨here, hhere, hmax⟩ := bind_eq_ok.1 hn
    obtain ⟨there, hthere, heq⟩ := bind_eq_ok.1 hmax
    cases heq
    obtain ⟨xs', hxs', hthere', hlocals⟩ := ih hrest hthere
    have hx := value_eq_ok.1 hvalue
    have hk : m.kindOf v = some x.kind := kindOf_eq_some.2 ⟨x, hx, rfl⟩
    by_cases hkept : sub v = v
    · obtain ⟨x', hx', hk'⟩ := kindOf_eq_some.1 (h.kind hk)
      have hlen : x'.operands.length = x.operands.length := by
        rw [← show m'.operandsOf v = x'.operands from valueField_eq hx', h.operands hkept,
          List.length_map, show m.operandsOf v = x.operands from valueField_eq hx]
      refine ⟨(v, x') :: xs', ?_, ?_, ?_⟩
      · rw [List.filter_cons_of_pos (by simpa using hkept), List.mapM_cons]
        exact bind_eq_ok.2 ⟨_, bind_eq_ok.2 ⟨x', value_eq_ok.2 hx', rfl⟩,
          bind_eq_ok.2 ⟨xs', hxs', rfl⟩⟩
      · refine bind_eq_ok.2 ⟨here, ?_, bind_eq_ok.2 ⟨there, hthere', rfl⟩⟩
        rw [Frame.stackArgBytes, hk', hlen]
        exact hhere
      · simp only [Frame.locals, List.filterMap_cons, hk'] at hlocals ⊢
        rw [hlocals]
    · obtain ⟨-, ⟨k, hk', hpure⟩, -⟩ := h.gone hkept
      have hkind : x.kind = .inst k := Option.some.inj (hk.symm.trans hk')
      have hzero : here = 0 := by
        rw [Frame.stackArgBytes, hkind] at hhere
        cases k <;> cases hpure <;> cases hhere <;> rfl
      have hslot : Frame.slotType x.kind = none := by
        rw [hkind]
        cases k <;> cases hpure <;> rfl
      refine ⟨xs', ?_, ?_, ?_⟩
      · rw [List.filter_cons_of_neg (by simpa using hkept)]
        exact hxs'
      · rw [hzero, Nat.zero_max]
        exact hthere'
      · rw [hlocals, Frame.locals, Frame.locals, List.filterMap_cons]
        simp only [hslot, Option.map_none]

theorem survey_eq {regArgs word n : Nat} {bs : List BlockId} {xs : List (ValueId × Value)}
    (hbs : ∀ b ∈ bs, m.funcOf b = some f) (hxs : Frame.survey m regArgs word bs = .ok (n, xs)) :
    ∃ xs', Frame.survey m' regArgs word bs = .ok (n, xs') ∧ Frame.locals xs' = Frame.locals xs := by
  induction bs generalizing n xs with
  | nil =>
    cases hxs
    exact ⟨[], rfl, rfl⟩
  | cons b rest ih =>
    obtain ⟨hb, hrest⟩ := List.forall_mem_cons.1 hbs
    obtain ⟨c, hc, hxs⟩ := bind_eq_ok.1 hxs
    obtain ⟨insts, hinsts, hxs⟩ := bind_eq_ok.1 hxs
    obtain ⟨here, hhere, hxs⟩ := bind_eq_ok.1 hxs
    obtain ⟨_, hcheck, hxs⟩ := bind_eq_ok.1 hxs
    obtain ⟨⟨there, others⟩, hsurvey, hxs⟩ := bind_eq_ok.1 hxs
    cases hxs
    -- the walks along the block before and afterwards
    obtain ⟨c₀, hc₀, hend⟩ := bind_eq_ok.1 (h.before.insts hb)
    cases hc.symm.trans hc₀
    obtain ⟨-, -, hlist⟩ := bind_eq_ok.1 hend
    obtain ⟨c', hc', hend'⟩ := bind_eq_ok.1 (h.after.insts (h.funcOf_eq.trans hb))
    obtain ⟨_, hcheck', hlist'⟩ := bind_eq_ok.1 hend'
    rw [Except.ok.inj hlist] at hinsts
    obtain ⟨insts', hinsts', hhere', hlocals⟩ := h.values_eq hinsts hhere
    obtain ⟨others', hsurvey', hlocals'⟩ := ih hrest hsurvey
    refine ⟨insts' ++ others', bind_eq_ok.2 ⟨c', hc', bind_eq_ok.2 ⟨insts', ?_, bind_eq_ok.2
      ⟨here, hhere', bind_eq_ok.2 ⟨_, hcheck', bind_eq_ok.2 ⟨_, hsurvey', rfl⟩⟩⟩⟩⟩, ?_⟩
    · rw [Except.ok.inj hlist']
      exact hinsts'
    · rw [Frame.locals, List.filterMap_append, ← Frame.locals, ← Frame.locals, hlocals, hlocals',
        Frame.locals, Frame.locals, Frame.locals, List.filterMap_append]

/-- A function has the frame that it had. -/
theorem compute_eq {regArgs word : Nat} {frame : Frame}
    (hframe : Frame.compute m f regArgs word = .ok frame) :
    Frame.compute m' f regArgs word = .ok frame := by
  obtain ⟨y, hy, hframe⟩ := bind_eq_ok.1 hframe
  obtain ⟨⟨outgoing, xs⟩, hsurvey, hframe⟩ := bind_eq_ok.1 hframe
  have hy' := lookupOr_eq_ok.1 hy
  obtain ⟨xs', hsurvey', hlocals⟩ := h.survey_eq (f := f)
    (fun b hb => h.before.owned.mem.2 ⟨y, hy', hb⟩) hsurvey
  refine bind_eq_ok.2 ⟨y, lookupOr_eq_ok.2 (by rw [h.funcs]; exact hy'),
    bind_eq_ok.2 ⟨_, hsurvey', ?_⟩⟩
  dsimp only at hframe ⊢
  rw [h.types, hlocals]
  exact hframe

/-! ## Instructions -/

omit h in
theorem constOf_eq_some {n : Int64} (hn : m.constOf v = some n) :
    ∃ c, m.kindOf v = some (.const c) ∧ c.asInt = some n := by
  obtain ⟨k, hk, hn⟩ := Option.bind_eq_some_iff.1 hn
  cases k with
  | const c => exact ⟨c, hk, hn⟩
  | global | param | block | inst => cases hn

/-- A constant is left as it is. -/
theorem constOf_sub {n : Int64} (hn : m.constOf v = some n) :
    sub v = v ∧ m'.constOf v = some n := by
  obtain ⟨c, hk, hc⟩ := constOf_eq_some hn
  refine ⟨h.sub_eq (by rw [hk]; nofun), ?_⟩
  rw [constOf, h.kind hk, Option.bind_some]
  exact hc

theorem fieldsNumbered (hfields : m.FieldsNumbered) : m'.FieldsNumbered := by
  intro b v base index hv hk ho
  rw [h.instsOf_eq, List.mem_filter] at hv
  have hkept : sub v = v := of_decide_eq_true hv.2
  obtain ⟨k, hk'⟩ := h.before.threads.inst (h.before.mem_of_mem_instsOf hv.1).1
  cases hk.symm.trans (h.kind hk')
  rw [h.operands hkept] at ho
  obtain ⟨base₀, index₀, ho₀⟩ : ∃ base₀ index₀, m.operandsOf v = [base₀, index₀] :=
    List.length_eq_two.1 (by simpa using congrArg List.length ho)
  rw [ho₀] at ho
  cases ho
  obtain ⟨n, hn⟩ := hfields hv.1 hk' ho₀
  obtain ⟨hsub, hn'⟩ := h.constOf_sub hn
  exact ⟨n, by rw [hsub]; exact hn'⟩

theorem pass_eq {a : Activation} {operands : List ValueId} {args : List Word} {index : Nat}
    {world : World} (hlt : ∀ o ∈ operands, o.idx < m.values.size) :
    a.pass m' index ((operands.map sub).zip args) world =
      a.pass m index (operands.zip args) world := by
  induction operands generalizing args index world with
  | nil => rfl
  | cons o rest ih =>
    obtain ⟨ho, hrest⟩ := List.forall_mem_cons.1 hlt
    cases args with
    | nil => rfl
    | cons w args =>
      simp only [List.map_cons, List.zip_cons_cons, Activation.pass, h.bytesOf_eq ho, ih hrest]

/-- An instruction of a block does what it did. -/
theorem exec_eq {p : Target.Platform} {a : Activation} (hfields : m.FieldsNumbered)
    (hv : v ∈ lists b) : (Dialect.word m' p a).exec v = (Dialect.word m p a).exec v := by
  obtain ⟨k, hk⟩ := h.before.threads.inst hv
  obtain ⟨g, hb⟩ := h.before.exists_funcOf_of_mem hv
  have hfits := h.before.fits hb hv hk
  have hlt {o : ValueId} (ho : o ∈ m.operandsOf v) := h.before.operand_lt ho
  -- an instruction that is not pure has its operands
  have hops (hpure : k.isPure = false) : m'.operandsOf v = (m.operandsOf v).map sub :=
    h.operands (h.sub_eq_of_not_pure hk hpure)
  funext args world
  rw [Dialect.word, Dialect.word]
  dsimp only
  rw [h.kind hk, hk]
  cases k with
  | phi | br | ret | sext | cast | binary | compare | alloca =>
    rcases args with _ | ⟨x, _ | ⟨y, _ | ⟨z, args⟩⟩⟩ <;> rfl
  | gep needsZero =>
    obtain ⟨base, index, ho⟩ := List.length_eq_two.1 hfits
    have hbase := h.pointeeOf_eq (hlt (o := base) (by simp [ho]))
    rw [hops rfl, ho, List.map_cons, List.map_singleton]
    cases needsZero with
    | false =>
      rcases args with _ | ⟨x, _ | ⟨y, _ | ⟨z, args⟩⟩⟩
      · rfl
      · rfl
      · dsimp only
        rw [h.types, hbase]
      · rfl
    | true =>
      obtain ⟨n, hn⟩ := hfields (by rw [h.before.instsOf_eq hb]; exact hv) hk ho
      obtain ⟨hsub, hn'⟩ := h.constOf_sub hn
      have hoffset : m'.fieldOffsetOf (sub base) (sub index) = m.fieldOffsetOf base index := by
        rw [fieldOffsetOf, hbase, h.types, hsub, hn', fieldOffsetOf, hn]
      rcases args with _ | ⟨x, _ | ⟨y, _ | ⟨z, args⟩⟩⟩
      · rfl
      · rfl
      · dsimp only
        rw [hoffset]
      · rfl
  | load =>
    obtain ⟨ptr, ho⟩ := List.length_eq_one_iff.1 hfits
    have hptr := h.pointeeOf_eq (hlt (o := ptr) (by simp [ho]))
    rw [hops rfl, ho, List.map_singleton]
    rcases args with _ | ⟨x, _ | ⟨y, args⟩⟩
    · rfl
    · dsimp only
      rw [h.types, hptr]
    · rfl
  | store =>
    obtain ⟨value, ptr, ho⟩ := List.length_eq_two.1 hfits
    have hptr := h.pointeeOf_eq (hlt (o := ptr) (by simp [ho]))
    rw [hops rfl, ho, List.map_cons, List.map_singleton]
    rcases args with _ | ⟨x, _ | ⟨y, _ | ⟨z, args⟩⟩⟩
    · rfl
    · rfl
    · dsimp only
      rw [h.types, hptr]
    · rfl
  | call callee =>
    dsimp only
    rw [hops rfl, h.pass_eq fun o ho => hlt ho, h.yields_eq (h.sub_eq_of_not_pure hk rfl) hk]

end

end Thinned

end Module

end SsaCodegen
