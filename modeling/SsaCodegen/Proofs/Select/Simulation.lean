import SsaCodegen.Proofs.Select.EdgeCopies
import SsaCodegen.Proofs.Select.Matching

/-!
# The machine follows a run

From a state that matches a run at the start of a block, the machine goes through the code of the
block and on to the block that the run goes to, over a block on the edge if there is one, and comes
there in a state that matches again. Thus it visits the same blocks as the run, and between them at
most one block on an edge at a time.

## Main definitions

* `Scope.Arrives` — the machine has carried out the phis of the block that a run goes to
* `Scope.Lands` — the machine goes on to a block, directly or over a block on the edge
* `Tracks` — a visit of the machine goes with a visit of a run

## Main results

* `Scope.Selected.deliver` — the copies on an edge carry out the phis
* `Scope.Selected.visit_ok` — the machine goes through one block
* `Scope.Selected.run_ok` — the machine follows a run
-/

namespace SsaCodegen

open Target SelectM Registers

/-- A visit of the machine goes with a visit of a run of a function whose blocks are numbered by their
positions: it is to the same block, leaves the same world behind and ends in the same way, with the
same result if it is a return. -/
structure Tracks (numbered : List BlockId) (V : Visit Word World) (T : Target.Visit) : Prop where
  block : numbered[T.block]? = some V.block
  world : T.state.world = V.world
  exit : (∃ c n, V.exit = .goto c ∧ T.exit = .goto n) ∨
    ∃ v, V.exit = .ret v ∧ T.exit = .ret ∧ ∀ w ∈ v, T.state.get (.phys riscv32.result) = w

namespace Scope

variable {sc : Scope} {f : FuncId} {lists : BlockId → List ValueId} {p : Platform} {a : Activation}
  {s s' s₁ s₂ S : Registers} {ds pre : List ValueId} {env : Env Word} {st st' : State}
  {b c : BlockId} {t : ValueId} {i n : Nat} {saves : Saves} {entry K : Code}
  {seq : Copies.Sequence Reg} {d : Draft} {blocks : List Target.Block}

/-- What a label stands for is brought into no register. -/
theorem blockOf?_of_regOf {user v : ValueId} {r : Reg} {code : Code}
    (h : sc.regOf user v s = .ok ((r, code), s')) : sc.module.blockOf? v = none := by
  obtain ⟨kind, hkind, h⟩ := lift_bind_ok.1 h
  have hk := Module.kindOf_of_kind hkind
  cases hb : sc.module.blockOf? v with
  | none => rfl
  | some b =>
    cases hk.symm.trans (Module.blockOf?_eq_some.1 hb)
    obtain ⟨n, s₁, -, h⟩ := bind_ok.1 h
    exact absurd h refuse_ne_ok

/-- A return for which there is code goes to no block. -/
theorem exitsOf_of_lowerReturn {code : Code} (hlen : (sc.module.operandsOf t).length ≤ 1)
    (h : sc.lowerReturn saves t s = .ok (code, s')) : sc.module.exitsOf t = [] := by
  unfold lowerReturn at h
  obtain ⟨ops, hops, h⟩ := lift_bind_ok.1 h
  have hops := Module.operandsOf_of_operands hops
  rw [Module.exitsOf, hops]
  rw [hops] at hlen
  rcases ops with _ | ⟨o, _ | ⟨o', rest⟩⟩
  · rfl
  · obtain ⟨⟨r, valueCode⟩, s₁, hr, -⟩ := bind_ok.1 h
    rw [List.filterMap_cons_none (blockOf?_of_regOf hr), List.filterMap_nil]
  · simp at hlen

/-! ## Phis -/

/-- The machine has carried out the phis of the block that a run goes to. -/
def Arrives (sc : Scope) (f : FuncId) (p : Platform) (a : Activation) (S : Registers)
    (pred b : BlockId) (env : Env Word) (st : State) : Prop :=
  ∃ events ds, (Dialect.word sc.module p a).phis sc.module env pred (sc.module.phisOf b) =
      some events ∧
    sc.Matches f p a S ⟨b, sc.module.bodyOf b⟩ ds (events.foldl Dialect.record env) st

theorem kindOf_of_mem_phisOf {m : Module} {v : ValueId} (hv : v ∈ m.phisOf b) :
    m.kindOf v = some (.inst .phi) := by
  simpa [Module.isPhi] using Module.isPhi_of_mem_phisOf hv

section Phis

variable (H : sc.IsFor f lists p a) (hssa : sc.module.SsaForm f)
  (h : sc.Matches f p a S ⟨b, [t]⟩ ds env st) (hb : sc.module.funcOf b = some f)
  (hc : c ∈ sc.module.succsOf b) (hcf : sc.module.funcOf c = some f)
include H hssa h hb hc hcf

/-- On the way to a block each of its phis has a word, which the machine has too. -/
theorem Matches.incoming {phi : ValueId} (hphi : phi ∈ sc.module.phisOf c) :
    ∃ o w, (o, b) ∈ sc.module.incoming phi ∧ sc.module.incomingFrom phi b = some o ∧
      (Dialect.word sc.module p a).read sc.module env o = some w ∧ sc.Stands p S st o w := by
  have hm := H.wellFormed
  have hnodup := hm.owned.nodup_blocksOf f
  have hcmem := hm.owned.mem_blocksOf.2 hcf
  have hphis := hssa.phisMatchPreds hnodup
  obtain ⟨o, hfrom⟩ :=
    hphis.exists_incomingFrom hcmem hphi hnodup (hm.owned.mem_blocksOf.2 hb) hc
  have hin := (hphis.incomingFrom_eq_some hcmem hphi hnodup).1 hfrom
  have ho := Module.mem_of_mem_incomingPairs hin
  have hav := hssa.phiUse h.walk hc hphi hin
  obtain ⟨w, hw⟩ := h.exists_read hav (hm.operand_lt ho)
  refine ⟨o, w, hin, hfrom, hw, h.stands hav ?_ hw⟩
  exact Module.not_fused_of_mem hm.mirrored (kindOf_of_mem_phisOf hphi) (by rintro ⟨⟩) ho

/-- The machine arrives at a block when each of its phis is in its register and all other values are
where they were. -/
theorem Matches.arrives (hbody : sc.module.bodyOf b = pre ++ [t])
    (hsp : st'.get State.sp = st.get State.sp)
    (hkept : ∀ {u r}, u ∉ sc.module.phisOf c → S.held.lookup u = some r → st'.get r = st.get r)
    (hnew : ∀ {phi o w r}, phi ∈ sc.module.phisOf c → (o, b) ∈ sc.module.incoming phi →
      sc.Stands p S st o w → S.held.lookup phi = some r → st'.get r = w) :
    sc.Arrives f p a S b c env st' := by
  have hm := H.wellFormed
  obtain ⟨events, hevents⟩ : ∃ events, (Dialect.word sc.module p a).phis sc.module env b
      (sc.module.phisOf c) = some events := by
    refine Dialect.exists_phis fun phi hphi => ?_
    obtain ⟨o, w, -, hfrom, hw, -⟩ := h.incoming H hssa hb hc hcf hphi
    exact ⟨w, by rw [hfrom]; exact hw⟩
  have hnodup : (sc.module.phisOf c).Nodup := by
    refine (List.takeWhile_sublist _).nodup ?_
    rw [hm.instsOf_eq hcf]
    exact hm.threads.nodup c
  have hnone (u : ValueId) (hu : u ∉ sc.module.phisOf c) :
      events.foldl Dialect.record env u = env u :=
    Dialect.foldl_record_of_notMem (by rw [Dialect.phis_map_inst hevents]; exact hu)
  have hphis {phi : ValueId} (hphi : phi ∈ sc.module.phisOf c) : ∃ o w,
      (o, b) ∈ sc.module.incoming phi ∧ sc.Stands p S st o w ∧
      events.foldl Dialect.record env phi = some w := by
    obtain ⟨o, w, hin, hfrom, hw, hstands⟩ := h.incoming H hssa hb hc hcf hphi
    refine ⟨o, w, hin, hstands, ?_⟩
    rw [Dialect.foldl_record_phis hevents hnodup hphi, hfrom, Option.bind_some, hw]
  refine ⟨events, _, hevents, h.move hm (.jump hbody hc) hnone (fun phi hphi _ => ?_) hsp hkept
    (fun hphi hw _ hr => ?_) fun hphi _ hk _ => ?_⟩
  · obtain ⟨o, w, -, -, hw⟩ := hphis hphi
    rw [hw]
    rfl
  · obtain ⟨o, w', hin, hstands, hw'⟩ := hphis hphi
    rw [hw', Option.some.injEq] at hw
    rw [hnew hphi hin hstands hr, hw]
  · rw [kindOf_of_mem_phisOf hphi] at hk
    cases hk

/-- The copies for an edge carry out the phis of the block that it leads to. -/
theorem Selected.deliver (X : sc.Selected p lists saves entry s₁ s₂ S d blocks)
    (hbody : sc.module.bodyOf b = pre ++ [t])
    (hn : sc.holder? d b c = some n) (hplaced : sc.Placed p s₁ s₂ S d n K seq)
    (hsourced : ∀ q ∈ d.pendingOf n, s₂.Has q.src ∧ ∃ e ∈ sc.arrivals,
      sc.holder? d e.pred e.succ = some n ∧ s₂.held.lookup e.phi = some q.dst ∧
      sc.Sourced p s₁ s₂ st e.value q.src) :
    ∃ st', Does p seq.code st st' ∧ st'.world = st.world ∧ sc.Arrives f p a S b c env st' := by
  have howned := H.wellFormed.owned
  have hphis := hssa.phisMatchPreds (howned.nodup_blocksOf f)
  obtain ⟨st', hdoes, hcarries⟩ := X.carries H.toIsOf hphis hb hc hcf hn hsourced hplaced
  refine ⟨st', hdoes, hcarries.world, h.arrives H hssa hb hc hcf hbody (hcarries.phys _)
    (fun {u r} hu hheld => hcarries.kept u r hu hheld) fun {phi o w r} hphi hin hw hheld => ?_⟩
  obtain ⟨o', r', w', ho', hr', hw', hget⟩ := hcarries.phis phi hphi
  have ho := (hphis.incomingFrom_eq_some (howned.mem_blocksOf.2 hcf) hphi
    (howned.nodup_blocksOf f)).2 hin
  cases ho.symm.trans ho'
  cases hheld.symm.trans hr'
  rw [hget, stands_iff.1 hw w' hw']

end Phis

/-! ## One block -/

/-- Two visits end in the same way, with the same world and the same results. -/
structure SameEnd (r r' : Visit Word World × Env Word) : Prop where
  exit : r.1.exit = r'.1.exit
  world : r.1.world = r'.1.world
  env : r.2 = r'.2

section Body

variable {edges : EdgeBlocks} (H : sc.IsFor f lists p a) (hssa : sc.module.SsaForm f)
  (hb : sc.module.funcOf b = some f) (hS : S.Wf)
include H hssa hb hS

/-- The code of the instructions of a block brings the machine up to the terminator. -/
theorem Matches.body {l : List ValueId} {code : Code}
    (h : sc.Matches f p a S ⟨b, l ++ [t]⟩ ds env st)
    (hbody : sc.module.bodyOf b = pre ++ (l ++ [t])) (hs : s.Wf)
    (hlower : sc.lowerInsts saves edges b (l ++ [t]) s = .ok (code, s')) (hg : Grows s' S) :
    ∃ C T r ds' env' st', code = C ++ T ∧ sc.lowerInst saves edges b t r = .ok (T, s') ∧ r.Wf ∧
      Does p C st st' ∧ sc.Matches f p a S ⟨b, [t]⟩ ds' env' st' ∧
      SameEnd ((Dialect.word sc.module p a).code sc.module b env st.world (l ++ [t]))
        ((Dialect.word sc.module p a).code sc.module b env' st'.world [t]) ∧
      ∀ {q}, s.Knows q → State.isKept q = true → (∀ x, S.held.lookup x ≠ some q) →
        st'.get q = st.get q := by
  induction l generalizing pre ds env st s code with
  | nil =>
    obtain ⟨T, later, r, hT, hlater, rfl⟩ := lowerInsts_cons hlower
    obtain ⟨rfl, rfl⟩ := pure_ok.1 hlater
    refine ⟨[], T, s, ds, env, st, List.append_nil T, hT, hs, .nil, h, ⟨rfl, rfl, rfl⟩,
      fun _ _ _ => rfl⟩
  | cons v l ih =>
    rw [List.cons_append] at hlower hbody h
    obtain ⟨here, later, r, hhere, hlater, rfl⟩ := lowerInsts_cons hlower
    have hv : v ∈ lists b := (H.wellFormed.mem_of_mem_bodyOf (b := b) (by rw [hbody]; simp)).1
    have hgr := lowerInst_grows hs hhere
    have hg' := lowerInsts_grows (hgr.wf hs) hlater
    -- something comes after this instruction, if only the terminator
    obtain ⟨u, rest, hrest⟩ : ∃ u rest, l ++ [t] = u :: rest := by
      cases l with
      | nil => exact ⟨t, [], rfl⟩
      | cons u l => exact ⟨u, l ++ [t], rfl⟩
    rw [hrest] at h hbody
    obtain ⟨e, st₁, hstep, hdoes, hM, hframe⟩ := h.step H hb hssa hS hbody hs hhere (hg'.trans hg)
    rw [← hrest] at hM hbody
    rw [List.append_cons] at hbody
    obtain ⟨C, T, r', ds', env', st', rfl, hT, hr', hdoes', hM', hend, hframe'⟩ :=
      ih hM hbody (hgr.wf hs) hlater
    refine ⟨here ++ C, T, r', ds', env', st', (List.append_assoc ..).symm, hT, hr',
      hdoes.append hdoes', hM', ?_, fun hq hkept hheld => ?_⟩
    · rw [List.cons_append, Dialect.code, hstep]
      exact ⟨hend.exit, hend.world, hend.env⟩
    · rw [hframe' (hgr.knows hq) hkept hheld, hframe hq hkept hheld]

end Body

/-- The machine goes on to a block, directly or over a block on the edge. -/
def Lands (sc : Scope) (p : Platform) (blocks : List Target.Block) (c : BlockId)
    (exit : Target.Exit) (st st' : State) : Prop :=
  ∃ j, sc.blocks[j]? = some c ∧ j ≠ 0 ∧ (exit = .goto j ∧ st' = st ∨
    ∃ n B, sc.blocks.length ≤ n ∧ exit = .goto n ∧ blocks[n]? = some B ∧
      exec p B.insts st = (.goto j, st'))

/-- The machine leaves a block as a run does that has come to the end of the block with some
results. -/
def Leaves (sc : Scope) (f : FuncId) (p : Platform) (a : Activation) (S : Registers)
    (blocks : List Target.Block) (b : BlockId) (env : Env Word) (exit : Exit Word)
    (machineExit : Target.Exit) (st : State) : Prop :=
  (∃ v, exit = .ret v ∧ machineExit = .ret ∧ ∀ w ∈ v, st.get (.phys riscv32.result) = w) ∨
    ∃ c st', exit = .goto c ∧ sc.Lands p blocks c machineExit st st' ∧ st'.world = st.world ∧
      sc.Arrives f p a S b c env st'

/-- The machine, which comes to block number `i` in state `st₀`, goes through it as a run does that
visits block `b`: it leaves the same world behind and goes on in the same way. -/
def GoesThrough (sc : Scope) (f : FuncId) (p : Platform) (a : Activation) (S : Registers)
    (blocks : List Target.Block) (i : Nat) (b : BlockId) (st₀ : State)
    (r : Visit Word World × Env Word) : Prop :=
  ∃ B ex st', blocks[i]? = some B ∧ exec p B.insts st₀ = (ex, st') ∧ r.1.world = st'.world ∧
    sc.Leaves f p a S blocks b r.2 r.1.exit ex st'

theorem GoesThrough.of_sameEnd {st₀ : State} {r r' : Visit Word World × Env Word}
    (h : sc.GoesThrough f p a S blocks i b st₀ r') (hend : SameEnd r r') :
    sc.GoesThrough f p a S blocks i b st₀ r := by
  rw [GoesThrough, hend.exit, hend.world, hend.env]
  exact h

/-- The machine, which came to a block in state `st₀`, is at its exit: all that is left are copies
and the code of the terminator. -/
structure AtExit (sc : Scope) (f : FuncId) (p : Platform) (a : Activation)
    (lists : BlockId → List ValueId) (saves : Saves) (s₁ s₂ S : Registers) (d : Draft)
    (blocks : List Target.Block) (i : Nat) (b : BlockId) (st₀ : State) (t : ValueId) (T : Code)
    (env : Env Word) (st : State) : Prop where
  last : ∃ phis body, lists b = phis ++ body ++ [t]
  laid : ∃ phis body, sc.module.Laid f phis body t
  body : ∃ pre, sc.module.bodyOf b = pre ++ [t]
  succs : sc.module.succsOf b = (sc.module.exitsOf t).eraseDups
  lower : ∃ r r', r.Wf ∧ sc.lowerInst saves d.edges b t r = .ok (T, r') ∧ Grows r' S
  agrees : ∃ ds, sc.Matches f p a S ⟨b, [t]⟩ ds env st
  code : ∃ C K seq, ∃ B₀ B : Target.Block, sc.Placed p s₁ s₂ S d i K seq ∧ Does p C st₀ st ∧
    B₀.insts = C ++ T ∧ blocks[i]? = some B ∧ B.insts = (B₀.insertBeforeExit seq.code).insts
  sourced : ∀ q ∈ d.pendingOf i, s₂.Has q.src ∧ ∃ e ∈ sc.arrivals,
    sc.holder? d e.pred e.succ = some i ∧ s₂.held.lookup e.phi = some q.dst ∧
    sc.Sourced p s₁ s₂ st e.value q.src

section Visit

variable (X : sc.Selected p lists saves entry s₁ s₂ S d blocks) (H : sc.IsFor f lists p a)
  (hssa : sc.module.SsaForm f)
include X H hssa

/-- From the start of a block the machine comes to its exit. -/
theorem Selected.atExit {st₀ : State} (hi : sc.blocks[i]? = some b)
    (h : sc.Matches f p a S ⟨b, sc.module.bodyOf b⟩ ds env st)
    (hentry : Does p (if i = 0 then entry else []) st₀ st) :
    ∃ t T env' st', sc.AtExit f p a lists saves s₁ s₂ S d blocks i b st₀ t T env' st' ∧
      SameEnd ((Dialect.word sc.module p a).code sc.module b env st.world (sc.module.bodyOf b))
        ((Dialect.word sc.module p a).code sc.module b env' st'.world [t]) := by
  have hb := H.mem_blocks.1 (List.mem_of_getElem? hi)
  have hS := X.values.wf X.wf
  obtain ⟨body, t, hlist, hbody, hlaid, hsuccs⟩ := H.wellFormed.layout hb
  obtain ⟨K, seq, code, r, r', B₀, B, hplaced, hg, hg', hlower, hB₀, hB, hinsts⟩ := X.own hi
  rw [hlist, List.append_assoc] at hlower
  have hlower := lowerInsts_phis (fun v hv => kindOf_of_mem_phisOf hv) hlower
  -- first the sources of copies, which leave everything as it was
  obtain ⟨st₁, hdoes, hquiet, hsourced⟩ := hplaced.delivers st
  have h₁ := h.quiet hquiet X.values
  rw [hbody] at h₁ ⊢
  obtain ⟨C, T, r₁, ds', env', st', rfl, hT, hr₁, hdoes', hM, hend, hframe⟩ :=
    h₁.body H hssa hb hS (hbody.trans (List.nil_append _).symm) (hg.wf X.wf) hlower hg'
  rw [hquiet.world] at hend
  refine ⟨t, T, env', st', ⟨⟨_, _, hlist⟩, ⟨_, _, hlaid⟩, ⟨_, hbody⟩, hsuccs, ⟨r₁, r', hr₁, hT, hg'⟩,
    ⟨ds', hM⟩, ⟨_, K, seq, B₀, B, hplaced, (hentry.append hdoes).append hdoes', ?_, hB, hinsts⟩,
    fun q hq => ?_⟩, hend⟩
  · rw [hB₀, List.append_assoc _ C T]
  · obtain ⟨hhas, e, he, hn, hheld, hsource⟩ := hsourced q hq
    refine ⟨hhas, e, he, hn, hheld, hsource.mono .refl .refl fun hscratch => ?_⟩
    refine hframe (hg.has hhas).knows ?_ (hscratch.grows_right X.values).2
    obtain ⟨k, hk, -⟩ := hhas
    rw [hk]
    rfl

variable {st₀ : State} {T : Code} (hi : sc.blocks[i]? = some b)
  (hexit : sc.AtExit f p a lists saves s₁ s₂ S d blocks i b st₀ t T env st)
include hi hexit

/-- A return. -/
theorem Selected.exit_ret (hk : sc.module.kindOf t = some (.inst .ret)) :
    sc.GoesThrough f p a S blocks i b st₀
      ((Dialect.word sc.module p a).code sc.module b env st.world [t]) := by
  obtain ⟨phis, body, hlaid⟩ := hexit.laid
  obtain ⟨ds, hM⟩ := hexit.agrees
  obtain ⟨r, r', hr, hlower, hg⟩ := hexit.lower
  obtain ⟨C, K, seq, B₀, B, hplaced, hdoes, hB₀, hB, hinsts⟩ := hexit.code
  have hlen : (sc.module.operandsOf t).length ≤ 1 := by
    obtain ⟨y, -, hlen⟩ := hlaid.fits (by simp) hk
    rw [hlen]
    split <;> omega
  rw [lowerInst_ret hk] at hlower
  have hphis := hssa.phisMatchPreds (H.wellFormed.owned.nodup_blocksOf f)
  have hnone : seq.code = [] := by
    refine X.code_eq_nil H.toIsOf hphis hi hplaced (.inr ?_)
    rw [hexit.succs, exitsOf_of_lowerReturn hlen hlower]
    rfl
  obtain ⟨args, hargs, hstands⟩ := hM.exists_readAll H.wellFormed hk nofun (hssa.use hM.walk)
  obtain ⟨-, hcode⟩ := lowerReturn_ok (p := p) H.target hr hlen hlower
  obtain ⟨st', hexec, hworld, hresult⟩ := hcode hg hstands
  rw [Dialect.code, Dialect.step_ret hk, hargs]
  refine ⟨B, .ret, st', hB, ?_, hworld.symm, .inl ⟨_, rfl, rfl, hresult⟩⟩
  rw [hinsts, hnone, Block.insertBeforeExit_nil, hB₀, hdoes.exec, hexec]

omit X hi in
/-- Where a branch goes is a block of the function, but not its entry. -/
theorem AtExit.target (hb : sc.module.funcOf b = some f) {label : ValueId}
    (hlabel : label ∈ sc.module.operandsOf t) (hc : sc.module.blockOf? label = some c)
    (hn : sc.blocks.idxOf? c = some n) : c ∈ sc.module.succsOf b ∧ sc.module.funcOf c = some f ∧
      sc.blocks[n]? = some c ∧ n ≠ 0 := by
  have hsucc : c ∈ sc.module.succsOf b := by
    rw [hexit.succs, List.mem_eraseDups]
    exact List.mem_filterMap.2 ⟨label, hlabel, hc⟩
  have hn := H.idxOf?_eq_some.1 hn
  refine ⟨hsucc, H.mem_blocks.1 (List.mem_of_getElem? hn), hn, ?_⟩
  rintro rfl
  refine hssa.entry (H.wellFormed.owned.mem_blocksOf.2 hb) hsucc ?_
  rw [← H.blocks, List.head?_eq_getElem?, hn]

/-- A jump. The copies for its edge come right before it. -/
theorem Selected.exit_jump (hk : sc.module.kindOf t = some (.inst .br)) {dest : ValueId}
    (ho : sc.module.operandsOf t = [dest]) :
    sc.GoesThrough f p a S blocks i b st₀
      ((Dialect.word sc.module p a).code sc.module b env st.world [t]) := by
  have hb := H.mem_blocks.1 (List.mem_of_getElem? hi)
  obtain ⟨phis, body, hlist⟩ := hexit.last
  obtain ⟨pre, hbody⟩ := hexit.body
  obtain ⟨ds, hM⟩ := hexit.agrees
  obtain ⟨r, r', hr, hlower, hg⟩ := hexit.lower
  obtain ⟨C, K, seq, B₀, B, hplaced, hdoes, hB₀, hB, hinsts⟩ := hexit.code
  rw [lowerInst_br hk] at hlower
  obtain ⟨-, c, n, hc, ⟨k, hkc, rfl⟩, rfl⟩ := lowerBr_jump ho hlower
  obtain ⟨hsucc, hcf, hkc, hk0⟩ := hexit.target H hssa hb (by simp [ho]) hc hkc
  have hbr : sc.module.branches b = false := by
    rw [H.wellFormed.branches_eq hb hlist, ho]
    rfl
  have hlookup : d.edges.lookup (b, c) = none := by
    cases hl : d.edges.lookup (b, c) with
    | none => rfl
    | some n =>
      rw [(X.edge hl).2.1] at hbr
      cases hbr
  have hholder : sc.holder? d b c = some i := by
    rw [holder?, if_neg (Bool.eq_false_iff.1 hbr), H.idxOf?_eq_some.2 hi]
  obtain ⟨st', hdoes', hworld, harrives⟩ :=
    X.deliver H hssa hM hb hsucc hcf hbody hholder hplaced hexit.sourced
  rw [Dialect.code, Dialect.step_jump hk ho, hc]
  refine ⟨B, .goto k, st', hB, ?_, hworld.symm,
    .inr ⟨c, st', rfl, ⟨k, hkc, hk0, .inl ⟨rfl, rfl⟩⟩, rfl, harrives⟩⟩
  rw [hlookup] at hB₀
  rw [hinsts, B₀.insertBeforeExit_eq hB₀ hdoes.straight (by simp [Inst.jump, Opcode.isControl])]
  show exec p (C ++ seq.code ++ [Inst.jump k]) st₀ = _
  rw [(hdoes.append hdoes').exec]
  rfl

/-- A conditional branch. The copies for each of its edges, if there are any, are in a block of their
own. -/
theorem Selected.exit_branch (hk : sc.module.kindOf t = some (.inst .br))
    {cond thenLabel elseLabel : ValueId}
    (ho : sc.module.operandsOf t = [cond, thenLabel, elseLabel]) :
    sc.GoesThrough f p a S blocks i b st₀
      ((Dialect.word sc.module p a).code sc.module b env st.world [t]) := by
  have hb := H.mem_blocks.1 (List.mem_of_getElem? hi)
  have hm := H.wellFormed
  obtain ⟨phis, body, hlist⟩ := hexit.last
  obtain ⟨pre, hbody⟩ := hexit.body
  obtain ⟨ds, hM⟩ := hexit.agrees
  obtain ⟨r, r', hr, hlower, hg⟩ := hexit.lower
  obtain ⟨C, K, seq, B₀, B, hplaced, hdoes, hB₀, hB, hinsts⟩ := hexit.code
  rw [lowerInst_br hk] at hlower
  have hbr : sc.module.branches b = true := by
    rw [hm.branches_eq hb hlist, ho]
    rfl
  have hphis := hssa.phisMatchPreds (hm.owned.nodup_blocksOf f)
  have hcond : cond ∈ sc.module.operandsOf t := by simp [ho]
  obtain ⟨w, hw⟩ := hM.exists_read (hssa.use hM.walk cond hcond) (hm.operand_lt hcond)
  obtain ⟨-, hcode⟩ := lowerBr_branch (p := p) (congrArg Spec.zero H.target) hr hm.mirrored ho hlower
  obtain ⟨c, n, st', hc, ⟨k, hkc, rfl⟩, hquiet, hexec⟩ :=
    hcode hg (hM.tested hm hssa rfl hcond hw)
  obtain ⟨hsucc, hcf, hck, hk0⟩ :=
    hexit.target H hssa hb (by rw [ho]; split <;> simp) hc hkc
  have hM := hM.quiet hquiet hg
  have hlabel : sc.module.blockOf? (if (Dialect.word sc.module p a).test w = true then thenLabel
      else elseLabel) = some c := by
    rw [← hc]
    simp [Dialect.word]
  rw [Dialect.code, Dialect.step_branch hk ho, hw]
  simp only [hlabel]
  refine ⟨B, .goto ((d.edges.lookup (b, c)).getD k), st', hB, ?_, hquiet.world.symm, .inr ?_⟩
  · rw [hinsts, X.code_eq_nil H.toIsOf hphis hi hplaced (.inl hbr), Block.insertBeforeExit_nil, hB₀,
      hdoes.exec, hexec]
  cases hlookup : d.edges.lookup (b, c) with
  | none =>
    -- without a block on the edge there are no phis at its end
    have hnone {phi : ValueId} (hphi : phi ∈ sc.module.phisOf c) : False := by
      obtain ⟨o, x, hin, -⟩ := hM.incoming H hssa hb hsucc hcf hphi
      have he : (⟨b, c, phi, o⟩ : Arrival) ∈ sc.arrivals :=
        Module.mem_arrivals.2 ⟨H.mem_blocks.2 hcf, hphi, hin⟩
      obtain ⟨n, q, hn, -⟩ := X.complete _ he
      rw [holder?, if_pos hbr, hlookup] at hn
      cases hn
    refine ⟨c, st', rfl, ⟨k, hck, hk0, .inl ⟨rfl, rfl⟩⟩, rfl, ?_⟩
    exact hM.arrives H hssa hb hsucc hcf hbody rfl (fun _ _ => rfl) fun hphi =>
      (hnone hphi).elim
  | some n =>
    obtain ⟨hle, -, K', seq', k', B', hplaced', hkc', hB', hinsts'⟩ := X.edge hlookup
    cases hkc.symm.trans hkc'
    obtain ⟨st₁, hdoes₁, hquiet₁, hsourced⟩ := hplaced'.delivers st'
    have hM := hM.quiet hquiet₁ X.values
    have hholder : sc.holder? d b c = some n := by rw [holder?, if_pos hbr, hlookup]
    obtain ⟨st₂, hdoes₂, hworld, harrives⟩ :=
      X.deliver H hssa hM hb hsucc hcf hbody hholder hplaced' hsourced
    refine ⟨c, st₂, rfl, ⟨k, hck, hk0, .inr ⟨n, B', hle, rfl, hB', ?_⟩⟩,
      hworld.trans hquiet₁.world, harrives⟩
    rw [hinsts', (hdoes₁.append hdoes₂).exec]
    rfl

omit hexit in
/-- The machine goes through one block as a run does. -/
theorem Selected.visit_ok (h : sc.Matches f p a S ⟨b, sc.module.bodyOf b⟩ ds env st)
    (hentry : Does p (if i = 0 then entry else []) st₀ st) :
    sc.GoesThrough f p a S blocks i b st₀
      ((Dialect.word sc.module p a).code sc.module b env st.world (sc.module.bodyOf b)) := by
  obtain ⟨t, T, env', st', hexit, hend⟩ := X.atExit H hssa hi h hentry
  refine .of_sameEnd ?_ hend
  obtain ⟨phis, body, hlaid⟩ := hexit.laid
  obtain ⟨k, hk, hterm⟩ := hlaid.isTerm
  have hfits := hlaid.fits (v := t) (by simp) hk
  cases k with
  | br =>
    rcases hfits with ⟨dest, ho, -⟩ | ⟨cond, thenLabel, elseLabel, ho, -⟩
    · exact X.exit_jump H hssa hi hexit hk ho
    · exact X.exit_branch H hssa hi hexit hk ho
  | ret => exact X.exit_ret H hssa hi hexit hk
  | _ => cases hterm

end Visit

/-! ## Whole runs -/

/-- The machine follows a run from a block on. -/
theorem Selected.run_ok (X : sc.Selected p lists saves entry s₁ s₂ S d blocks)
    (H : sc.IsFor f lists p a) (hssa : sc.module.SsaForm f) {pred : Option BlockId} {st₀ : State}
    {events : List (Event Word)} (hi : sc.blocks[i]? = some b)
    (harrive : (Dialect.word sc.module p a).arrive sc.module env pred (sc.module.phisOf b) =
      some events)
    (h : sc.Matches f p a S ⟨b, sc.module.bodyOf b⟩ ds (events.foldl Dialect.record env) st)
    (hentry : Does p (if i = 0 then entry else []) st₀ st) (n : Nat) :
    ∃ k, List.Forall₂ (Tracks sc.blocks)
      ((Dialect.word sc.module p a).run sc.module n pred b env st.world)
      ((Target.run p blocks k i st₀).filter fun T => T.block < sc.blocks.length) := by
  induction n generalizing pred b env ds events i st st₀ with
  | zero => exact ⟨0, .nil⟩
  | succ n ih =>
    have hb := H.mem_blocks.1 (List.mem_of_getElem? hi)
    have hlt := (List.getElem?_eq_some_iff.1 hi).1
    obtain ⟨B, ex, st', hB, hexec, hworld, hleaves⟩ := X.visit_ok H hssa hi h hentry
    obtain ⟨body, t, hlist, hbody, hlaid, -⟩ := H.wellFormed.layout hb
    have henter : (Dialect.word sc.module p a).enter st.world = st.world := rfl
    have hblock : ((Dialect.word sc.module p a).code sc.module b
        (events.foldl Dialect.record env) st.world (sc.module.bodyOf b)).1.block = b :=
      Dialect.code_block b _
    rw [Dialect.run, H.wellFormed.visit_eq _ hb hlist hlaid, harrive, ← hbody, henter]
    dsimp only
    generalize (Dialect.word sc.module p a).code sc.module b (events.foldl Dialect.record env)
      st.world (sc.module.bodyOf b) = r at hworld hleaves hblock ⊢
    obtain ⟨V, env'⟩ := r
    dsimp only at hworld hleaves hblock ⊢
    have hfirst : sc.blocks[i]? = some V.block := by rw [hi, hblock]
    rcases hleaves with ⟨v, hexit, rfl, hresult⟩ |
      ⟨c, st'', hexit, ⟨j, hj, hj0, hland⟩, hworld', events', ds', hphis, hM⟩
    · refine ⟨1, ?_⟩
      rw [run_ret hB hexec, hexit, List.filter_cons_of_pos (by simpa using hlt), List.filter_nil]
      exact .cons ⟨hfirst, hworld.symm, .inr ⟨v, rfl, rfl, hresult⟩⟩ .nil
    · have hnext : Does p (if j = 0 then entry else []) st'' st'' := by
        rw [if_neg hj0]
        exact .nil
      have harrive' : (Dialect.word sc.module p a).arrive sc.module env' (some b)
          (sc.module.phisOf c) = some events' := hphis
      obtain ⟨k, hk⟩ := ih hj harrive' hM hnext
      rw [hworld', ← hworld] at hk
      rw [hexit]
      rcases hland with ⟨rfl, rfl⟩ | ⟨l, B', hle, rfl, hB', hexec'⟩
      · refine ⟨k + 1, ?_⟩
        rw [run_goto hB hexec, List.filter_cons_of_pos (by simpa using hlt)]
        exact .cons ⟨hfirst, hworld.symm, .inl ⟨c, j, rfl, rfl⟩⟩ hk
      · refine ⟨k + 2, ?_⟩
        rw [run_goto hB hexec, run_goto hB' hexec', List.filter_cons_of_pos (by simpa using hlt),
          List.filter_cons_of_neg (by simpa using hle)]
        exact .cons ⟨hfirst, hworld.symm, .inl ⟨c, l, rfl, rfl⟩⟩ hk

end Scope

end SsaCodegen
