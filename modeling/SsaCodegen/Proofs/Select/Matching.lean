import SsaCodegen.Proofs.Select.Blocks
import SsaCodegen.Proofs.Semantics.Ssa

/-!
# Machine states that match a run

A state of the machine matches a run that has come to some place in a function when every value that
has been evaluated is in its register, the parameters are in theirs, the stack pointer is at the base
of the frame and the world is the same. A comparison that a branch takes over has no register. What is
known of it instead is that its result is still the verdict on the current words of its operands,
unless one of these may have been evaluated since; in SSA form that is not so where it is used.

## Main definitions

* `Scope.Matches` — a state of the machine matches a run

## Main results

* `Scope.Matches.move` — how a match is carried on along a move of control
* `Scope.Matches.step` — the code of one instruction keeps the match
-/

namespace SsaCodegen

open Target SelectM Registers

namespace Dialect

variable {D : Dialect W σ} {m : Module} {env env' : Env W} {v : ValueId}

/-- A word is read from the results of instructions only if it is that of an instruction. -/
theorem read_congr (h : ∀ k, m.kindOf v = some (.inst k) → env' v = env v) :
    D.read m env' v = D.read m env v := by
  rw [read, read]
  split
  · rename_i k hk
    exact h k hk
  all_goals rfl

/-- Phis that each have a word have their words together. -/
theorem exists_phis {pred : BlockId} {vs : List ValueId}
    (h : ∀ v ∈ vs, ∃ w, (m.incomingFrom v pred).bind (D.read m env) = some w) :
    ∃ events, D.phis m env pred vs = some events := by
  induction vs with
  | nil => exact ⟨[], rfl⟩
  | cons v rest ih =>
    obtain ⟨⟨w, hw⟩, hrest⟩ := List.forall_mem_cons.1 h
    obtain ⟨events, hevents⟩ := ih hrest
    exact ⟨⟨v, [w], some w⟩ :: events, by rw [phis, hw, hevents]; rfl⟩

theorem foldl_record_of_notMem {events : List (Event W)} (h : v ∉ events.map Event.inst) :
    (events.foldl record env) v = env v := by
  induction events generalizing env with
  | nil => rfl
  | cons e rest ih =>
    obtain ⟨hne, hrest⟩ := not_or.1 (mt List.mem_cons.2 h)
    rw [List.foldl_cons, ih hrest, record, Function.update_of_ne hne]

/-- Each phi has its word once all are recorded. -/
theorem foldl_record_phis {pred : BlockId} {vs : List ValueId} {events : List (Event W)}
    (h : D.phis m env pred vs = some events) (hnodup : vs.Nodup) (hv : v ∈ vs) :
    (events.foldl record env') v = (m.incomingFrom v pred).bind (D.read m env) := by
  induction vs generalizing events env' with
  | nil => cases hv
  | cons u rest ih =>
    obtain ⟨hu, hrest⟩ := List.nodup_cons.1 hnodup
    rw [phis] at h
    obtain ⟨w, hw, h⟩ := Option.bind_eq_some_iff.1 h
    obtain ⟨events', hevents', rfl⟩ := Option.map_eq_some_iff.1 h
    rw [List.foldl_cons]
    rcases List.mem_cons.1 hv with rfl | hv
    · rw [foldl_record_of_notMem (by rw [phis_map_inst hevents']; exact hu), record,
        Function.update_self, hw]
    · exact ih hevents' hrest hv

end Dialect

/-- What is evaluated on a move of control are instructions. -/
theorem Module.WellFormed.inst_of_move {m : Module} {lists : BlockId → List ValueId}
    (h : m.WellFormed lists) {q q' : Point} {es : List ValueId} (hmove : m.Move q es q')
    {u : ValueId} (hu : u ∈ es) : ∃ k, m.kindOf u = some (.inst k) := by
  cases hmove with
  | inst hbody =>
    obtain rfl := List.mem_singleton.1 hu
    exact h.threads.inst (h.mem_of_mem_bodyOf (by rw [hbody]; simp)).1
  | jump _ _ => exact h.threads.inst (h.mem_of_mem_phisOf hu)

namespace Scope

variable {sc : Scope} {f : FuncId} {lists : BlockId → List ValueId} {p : Platform} {a : Activation}
  {s s' S : Registers} {q q' : Point} {ds es : List ValueId} {env env' : Env Word}
  {st st' : State} {o : ValueId} {w : Word}

/-- The verdict of a comparison on the words that its operands have. -/
def Verdict (sc : Scope) (p : Platform) (a : Activation) (env : Env Word) (c : ValueId) (op : CmpOp)
    (w : Word) : Prop :=
  ∃ l r x y, sc.module.operandsOf c = [l, r] ∧
    (Dialect.word sc.module p a).read sc.module env l = some x ∧
    (Dialect.word sc.module p a).read sc.module env r = some y ∧ w = .ofBool (op.test x y)

/-- A state of the machine matches a run that has come to a place in a function with some results.
`ds` is what was evaluated on the way, and `S` are the registers with all values. -/
structure Matches (sc : Scope) (f : FuncId) (p : Platform) (a : Activation) (S : Registers)
    (q : Point) (ds : List ValueId) (env : Env Word) (st : State) : Prop where
  walk : sc.module.Walk f ds q
  defined : ∀ {v}, v ∈ ds → sc.module.yields v = true → (env v).isSome = true
  sp : st.get State.sp = a.base
  params : ∀ {v g i r}, v ∈ sc.module.paramsOf f → sc.module.kindOf v = some (.param g i) →
    S.held.lookup v = some r → st.get r = a.args i
  insts : ∀ {v w r}, env v = some w → ¬sc.module.Fused v → S.held.lookup v = some r → st.get r = w
  fused : ∀ {c op w}, env c = some w → sc.module.kindOf c = some (.inst (.compare op)) →
    sc.module.Fused c → ¬sc.module.Stale c q → sc.Verdict p a env c op w

namespace Matches

/-- Code that changes scratch registers only keeps a match. -/
theorem quiet (h : sc.Matches f p a S q ds env st) (hq : Quiet s s' st st') (hS : Grows s' S) :
    sc.Matches f p a S q ds env st' where
  walk := h.walk
  defined := h.defined
  sp := by rw [hq.get (s.knows_phys _).not_scratch, h.sp]
  params hv hk hr := by rw [hq.get (hS.not_scratch hr), h.params hv hk hr]
  insts hv hnot hr := by rw [hq.get (hS.not_scratch hr), h.insts hv hnot hr]
  fused := h.fused

/-- A match is carried on along a move of control, when what is evaluated on it is recorded and ends
up in its registers, and the registers of all other values are kept. -/
theorem move (h : sc.Matches f p a S q ds env st) (hm : sc.module.WellFormed lists)
    (hmove : sc.module.Move q es q') (henv : ∀ u ∉ es, env' u = env u)
    (hdef : ∀ u ∈ es, sc.module.yields u = true → (env' u).isSome = true)
    (hsp : st'.get State.sp = st.get State.sp)
    (hkept : ∀ {u r}, u ∉ es → S.held.lookup u = some r → st'.get r = st.get r)
    (hnew : ∀ {u w r}, u ∈ es → env' u = some w → ¬sc.module.Fused u →
      S.held.lookup u = some r → st'.get r = w)
    (hfused : ∀ {c op w}, c ∈ es → env' c = some w →
      sc.module.kindOf c = some (.inst (.compare op)) → sc.module.Fused c →
      sc.Verdict p a env' c op w) :
    sc.Matches f p a S q' (es ++ ds) env' st' where
  walk := h.walk.move hmove
  defined {v} hv hy := by
    by_cases hes : v ∈ es
    · exact hdef v hes hy
    · rw [henv v hes]
      exact h.defined ((List.mem_append.1 hv).resolve_left hes) hy
  sp := by rw [hsp, h.sp]
  params {v g i r} hv hk hr := by
    have hes : v ∉ es := by
      intro hes
      obtain ⟨k, hk'⟩ := hm.inst_of_move hmove hes
      rw [hk] at hk'
      cases hk'
    rw [hkept hes hr, h.params hv hk hr]
  insts {v w r} hv hnot hr := by
    by_cases hes : v ∈ es
    · exact hnew hes hv hnot hr
    · rw [henv v hes] at hv
      rw [hkept hes hr, h.insts hv hnot hr]
  fused {c op w} hc hk hf hstale := by
    by_cases hes : c ∈ es
    · exact hfused hes hc hk hf
    · -- an operand that is evaluated on the move would make the comparison stale
      rw [henv c hes] at hc
      obtain ⟨l, r, x, y, ho, hx, hy, hw⟩ :=
        h.fused hc hk hf fun hst => hstale (hst.move hmove hes)
      have hread {u : ValueId} (hu : u ∈ sc.module.operandsOf c) :
          (Dialect.word sc.module p a).read sc.module env' u =
            (Dialect.word sc.module p a).read sc.module env u := by
        refine Dialect.read_congr fun k hk => henv u fun hues => ?_
        exact hstale (.of_move hmove hues hu hk)
      refine ⟨l, r, x, y, ho, ?_, ?_, hw⟩
      · rw [hread (by simp [ho]), hx]
      · rw [hread (by simp [ho]), hy]

/-! ## Operands -/

/-- A value that is available has a word. -/
theorem exists_read (h : sc.Matches f p a S q ds env st)
    (ho : sc.module.available f ds o = true) (hlt : o.idx < sc.module.values.size) :
    ∃ w, (Dialect.word sc.module p a).read sc.module env o = some w := by
  obtain ⟨kind, hk⟩ := Module.exists_kindOf hlt
  rw [Dialect.read, hk]
  cases kind with
  | inst k =>
    obtain ⟨hmem, hy⟩ := (Module.available_inst hk).1 ho
    exact Option.isSome_iff_exists.1 (h.defined hmem hy)
  | const c =>
    cases hn : c.asInt with
    | some n => exact ⟨.lit n, by simp only [hn, Dialect.word]⟩
    | none => exact ⟨0, by simp only [hn, Dialect.word, hk]⟩
  | param g i => exact ⟨a.args i, by simp only [Dialect.word, hk]⟩
  | global g => exact ⟨p.address g.idx, by simp only [Dialect.word, hk]⟩
  | block b => exact ⟨0, by simp only [Dialect.word, hk]⟩

/-- The machine has the word of a value that is available, unless a branch takes the value over. -/
theorem stands (h : sc.Matches f p a S q ds env st) (ho : sc.module.available f ds o = true)
    (hnot : ¬sc.module.Fused o)
    (hw : (Dialect.word sc.module p a).read sc.module env o = some w) :
    sc.Stands p S st o w := by
  rw [Dialect.read] at hw
  rw [Stands]
  split
  · rename_i g hk
    simp only [hk, Dialect.word] at hw
    exact (Option.some.inj hw).symm
  · rename_i c hk
    intro n hn
    simp only [hk, hn] at hw
    exact (Option.some.inj hw).symm
  · rename_i g i hk
    intro r hr
    simp only [hk, Dialect.word] at hw
    rw [← Option.some.inj hw]
    refine h.params ?_ hk hr
    rw [Module.available, hk] at ho
    simpa using ho
  · rename_i k hk
    intro r hr
    simp only [hk] at hw
    exact h.insts hw hnot hr
  · trivial
  · trivial

/-- The operands of an instruction that is no branch have words, and the machine has them. -/
theorem exists_readAll (h : sc.Matches f p a S q ds env st) (hm : sc.module.WellFormed lists)
    {v : ValueId} {k : InstKind} (hk : sc.module.kindOf v = some (.inst k)) (hbr : k ≠ .br)
    (hav : ∀ o ∈ sc.module.operandsOf v, sc.module.available f ds o = true) :
    ∃ args, (Dialect.word sc.module p a).readAll sc.module env (sc.module.operandsOf v) =
        some args ∧ List.Forall₂ (sc.Stands p S st) (sc.module.operandsOf v) args := by
  have hlt : ∀ o ∈ sc.module.operandsOf v, o.idx < sc.module.values.size := fun o ho =>
    hm.operand_lt ho
  have hnot : ∀ o ∈ sc.module.operandsOf v, ¬sc.module.Fused o := fun o ho =>
    Module.not_fused_of_mem hm.mirrored hk hbr ho
  generalize sc.module.operandsOf v = operands at hav hlt hnot
  induction operands with
  | nil => exact ⟨[], rfl, .nil⟩
  | cons o rest ih =>
    obtain ⟨hav, havs⟩ := List.forall_mem_cons.1 hav
    obtain ⟨hlt, hlts⟩ := List.forall_mem_cons.1 hlt
    obtain ⟨hnot, hnots⟩ := List.forall_mem_cons.1 hnot
    obtain ⟨w, hw⟩ := h.exists_read hav hlt
    obtain ⟨args, hargs, hstands⟩ := ih havs hlts hnots
    exact ⟨w :: args, by rw [Dialect.readAll, hw, hargs]; rfl, .cons (h.stands hav hnot hw) hstands⟩

/-- The machine can test the condition of a branch. -/
theorem tested (h : sc.Matches f p a S q ds env st) (hm : sc.module.WellFormed lists)
    (hssa : sc.module.SsaForm f) {b : BlockId} {t cond : ValueId} {rest : List ValueId}
    (hq : q = ⟨b, t :: rest⟩) (hcond : cond ∈ sc.module.operandsOf t)
    (hw : (Dialect.word sc.module p a).read sc.module env cond = some w) :
    sc.Tested p S st cond w := by
  subst hq
  have hav := hssa.use h.walk cond hcond
  refine ⟨fun hnot => h.stands hav hnot hw, fun op hk hf => ?_⟩
  have henv : env cond = some w := by
    rw [Dialect.read, hk] at hw
    exact hw
  have hstale := hssa.not_stale hm hk (by rintro ⟨⟩) h.walk hcond
  obtain ⟨l, r, x, y, ho, hx, hy, hw⟩ := h.fused henv hk hf hstale
  -- the operands of the comparison were available where it was evaluated, and still are
  have hstands {u : ValueId} {z : Word} (hu : u ∈ sc.module.operandsOf cond)
      (hz : (Dialect.word sc.module p a).read sc.module env u = some z) :
      sc.Stands p S st u z := by
    refine h.stands ?_ (Module.not_fused_of_mem hm.mirrored hk (by rintro ⟨⟩) hu) hz
    refine hssa.operand_available ?_ hu h.walk ((Module.available_inst hk).1 hav).1
    simp [Module.isPhi, hk]
  exact ⟨l, r, x, y, ho, hstands (by simp [ho]) hx, hstands (by simp [ho]) hy, hw⟩

end Matches

/-! ## One instruction -/

section Step

variable {b : BlockId} {v : ValueId} {pre rest : List ValueId} {saves : Saves} {edges : EdgeBlocks}
  {code : Code} (H : sc.IsFor f lists p a) (hb : sc.module.funcOf b = some f)
include H hb

/-- An instruction with another after it is neither a phi nor a terminator. -/
theorem IsFor.kindOf_body {u : ValueId} (hbody : sc.module.bodyOf b = pre ++ v :: u :: rest) :
    v ∈ lists b ∧ ∃ k, sc.module.kindOf v = some (.inst k) ∧ k ≠ .phi ∧
      k.isTerminator = false := by
  obtain ⟨body, term, -, hbody', hlaid, -⟩ := H.wellFormed.layout hb
  refine ⟨(H.wellFormed.mem_of_mem_bodyOf (by rw [hbody]; simp)).1, hlaid.isBody ?_⟩
  have hinit := congrArg List.dropLast (hbody'.symm.trans hbody)
  rw [List.dropLast_concat] at hinit
  simp [hinit]

omit H hb in
theorem record_of_not_mem {args : List Word} {result : Option Word} :
    ∀ x ∉ [v], Dialect.record env ⟨v, args, result⟩ x = env x :=
  fun _ hx => Function.update_of_ne (List.ne_of_not_mem_cons hx) _ _

omit hb in
/-- A comparison that its branch takes over stands for its operands once it has been recorded. -/
theorem IsFor.verdict_record {op : CmpOp} {l r : ValueId} {x y : Word}
    (hk : sc.module.kindOf v = some (.inst (.compare op))) (hf : sc.module.Fused v)
    (ho : sc.module.operandsOf v = [l, r])
    (hx : (Dialect.word sc.module p a).read sc.module env l = some x)
    (hy : (Dialect.word sc.module p a).read sc.module env r = some y) :
    sc.Verdict p a (Dialect.record env ⟨v, [x, y], some (.ofBool (op.test x y))⟩) v op
      (.ofBool (op.test x y)) := by
  have hread {z : ValueId} (hz : z ∈ sc.module.operandsOf v) :
      (Dialect.word sc.module p a).read sc.module
        (Dialect.record env ⟨v, [x, y], some (.ofBool (op.test x y))⟩) z =
      (Dialect.word sc.module p a).read sc.module env z := by
    refine Dialect.read_congr fun _ _ => record_of_not_mem z fun hzv => ?_
    rw [List.mem_singleton.1 hzv] at hz
    exact Module.not_fused_of_mem H.wellFormed.mirrored hk nofun hz hf
  refine ⟨l, r, x, y, ho, ?_, ?_, rfl⟩
  · rw [hread (by simp [ho]), hx]
  · rw [hread (by simp [ho]), hy]

/-- The code of one instruction keeps the match, and all registers that hold no value and were there
before. -/
theorem Matches.step (hssa : sc.module.SsaForm f) (hS : S.Wf) {u : ValueId}
    (h : sc.Matches f p a S ⟨b, v :: u :: rest⟩ ds env st)
    (hbody : sc.module.bodyOf b = pre ++ v :: u :: rest) (hs : s.Wf)
    (hlower : sc.lowerInst saves edges b v s = .ok (code, s')) (hg : Grows s' S) :
    ∃ e st', (Dialect.word sc.module p a).step sc.module env st.world v = .next e st'.world ∧
      Does p code st st' ∧
      sc.Matches f p a S ⟨b, u :: rest⟩ ([v] ++ ds) (Dialect.record env e) st' ∧
      ∀ {q}, s.Knows q → State.isKept q = true → (∀ x, S.held.lookup x ≠ some q) →
        st'.get q = st.get q := by
  obtain ⟨hv, k, hk, hphi, hterm⟩ := H.kindOf_body hb hbody
  have hbr : k ≠ .br := by
    rintro rfl
    cases hterm
  have hm := H.wellFormed
  obtain ⟨args, hargs, hstands⟩ := h.exists_readAll hm hk hbr (hssa.use h.walk)
  have hdef : ∀ x ∈ [v], sc.module.yields x = true → (Dialect.record env ⟨v, args,
      ((Dialect.word sc.module p a).exec v args st.world).1⟩ x).isSome = true := by
    intro x hx hy
    obtain rfl := List.mem_singleton.1 hx
    rw [Dialect.record, Function.update_self]
    exact Dialect.isSome_word_exec hk hphi (hm.fits hb hv hk) hstands.length_eq.symm hy st.world
  have hstep : (Dialect.word sc.module p a).step sc.module env st.world v =
      .next ⟨v, args, ((Dialect.word sc.module p a).exec v args st.world).1⟩
        ((Dialect.word sc.module p a).exec v args st.world).2 := by
    rw [Dialect.step_body hk hphi hterm, hargs]
  rcases H.lowerInst_ok hb hv hk hphi hterm hs hlower with ⟨hf, rfl, rfl⟩ | ⟨hnot, hperforms⟩
  · -- a comparison that its branch takes over: the machine does nothing
    obtain ⟨op, hop⟩ := hf.compare
    cases hk.symm.trans hop
    obtain ⟨l, r, ho⟩ := List.length_eq_two.1 (hm.fits hb hv hk)
    rw [ho, Dialect.readAll_eq_some] at hargs
    obtain ⟨x, y, hx, hy, rfl⟩ := Dialect.forall₂_pair.1 hargs
    have hexec : (Dialect.word sc.module p a).exec v [x, y] st.world =
        (some (.ofBool (op.test x y)), st.world) := by
      simp [Dialect.word, hk]
    rw [hexec] at hstep hdef
    refine ⟨_, st, hstep, .nil, ?_, fun _ _ _ => rfl⟩
    refine h.move hm (.inst hbody) record_of_not_mem hdef rfl (fun _ _ => rfl) (fun hx _ hnot => ?_)
      fun {c op' w} hc hw hkc _ => ?_
    · rw [List.mem_singleton.1 hx] at hnot
      exact absurd hf hnot
    · obtain rfl := List.mem_singleton.1 hc
      cases hk.symm.trans hkc
      rw [Dialect.record, Function.update_self] at hw
      exact Option.some.inj hw ▸ H.verdict_record hk hf ho hx hy
  · obtain ⟨st', hdoes, hev⟩ := hperforms.evaluates hg hstands h.sp
    rw [← hev.world] at hstep
    refine ⟨_, st', hstep, hdoes, ?_, fun hq hkept hheld => hev.kept hkept (hheld v)
      hq.not_scratch⟩
    refine h.move hm (.inst hbody) record_of_not_mem hdef ?_ (fun {x r} hx hr => ?_) (fun {x w r} hx hw _ hr => ?_)
      fun hc _ _ hf => ?_
    · exact hev.kept rfl (fun hsp => (hS.virt hsp).ne_phys _ rfl) (s.knows_phys _).not_scratch
    · obtain ⟨n, rfl, -⟩ := hS.virt hr
      refine hev.kept rfl (fun hr' => hx ?_) (hg.not_scratch hr)
      rw [hS.inj hr hr']
      exact List.mem_singleton_self v
    · obtain rfl := List.mem_singleton.1 hx
      rw [Dialect.record, Function.update_self] at hw
      exact hev.result hw hr
    · rw [List.mem_singleton.1 hc] at hf
      exact absurd hf hnot

end Step

end Scope

end SsaCodegen
