import SsaCodegen.Proofs.Select.Blocks
import SsaCodegen.Proofs.Semantics.Ssa

/-!
# What the copies on an edge do

All copies in the block that does the copies for an edge are for that edge, as long as phis list
predecessors only: a block that goes to one place does the copies for its only edge, and a block on
an edge those for the edge. Thus, if phis list each predecessor once, the copies assign to the phis
at the end of the edge the words that their incoming values have, all at once, and change nothing
else.

## Main definitions

* `Module.word?` — the word of an operand in a state of the machine
* `Module.CopyFor` — a copy belongs to an edge
* `Module.Carries` — the phis at the end of an edge have been carried out

## Main results

* `Scope.Sourced.eq_or_free` — where the source of a copy is
* `Scope.Selected.eq_of_holder` — which edge a copy is for
* `Scope.Selected.carries` — the copies for an edge carry out the phis at its end
-/

namespace SsaCodegen

open Target SelectM Registers

/-! ## Where blocks go -/

namespace Module

variable {m : Module} {lists : BlockId → List ValueId} {f : FuncId} {b c : BlockId}

theorem WellFormed.branches_eq (h : m.WellFormed lists) (hb : m.funcOf b = some f)
    {phis body : List ValueId} {term : ValueId} (hlist : lists b = phis ++ body ++ [term]) :
    m.branches b = decide ((m.operandsOf term).length = 3) := by
  obtain ⟨k, hk⟩ := h.threads.inst (b := b) (v := term) (by simp [hlist])
  exact Module.branches_eq (SsaCodegen.bind_eq_ok.2 ⟨_, h.terminator hb hlist,
    SsaCodegen.bind_eq_ok.2 ⟨_, operands_eq (lt_of_kindOf hk), rfl⟩⟩)

/-- A block that ends in no conditional branch has one successor at most. -/
theorem WellFormed.succ_unique (h : m.WellFormed lists) (hb : m.funcOf b = some f)
    (hbr : m.branches b = false) {c' : BlockId} (hc : c ∈ m.succsOf b) (hc' : c' ∈ m.succsOf b) :
    c = c' := by
  obtain ⟨body, term, hlist, -, hlaid, hsuccs⟩ := h.layout hb
  obtain ⟨k, hk, hterm⟩ := hlaid.isTerm
  have hthree : (m.operandsOf term).length ≠ 3 :=
    of_decide_eq_false ((h.branches_eq hb hlist).symm.trans hbr)
  have hone : (m.operandsOf term).length ≤ 1 := by
    have hfits := hlaid.fits (v := term) (by simp) hk
    cases k with
    | br =>
      rcases hfits with ⟨dest, ho, -⟩ | ⟨cond, thenLabel, elseLabel, ho, -⟩
      · rw [ho]
        exact Nat.le_refl 1
      · rw [ho] at hthree
        exact absurd rfl hthree
    | ret =>
      obtain ⟨y, -, hlen⟩ := hfits
      rw [hlen]
      split <;> omega
    | _ => cases hterm
  rw [hsuccs, List.mem_eraseDups, exitsOf, List.mem_filterMap] at hc hc'
  obtain ⟨l, hl, hc⟩ := hc
  obtain ⟨l', hl', hc'⟩ := hc'
  obtain ⟨x, hx⟩ := List.length_eq_one_iff.1
    (Nat.le_antisymm hone (List.length_pos_of_mem hl))
  rw [hx] at hl hl'
  rw [List.mem_singleton.1 hl] at hc
  rw [List.mem_singleton.1 hl', hc] at hc'
  exact Option.some.inj hc'

end Module

theorem Target.Block.insertBeforeExit_nil (B : Target.Block) : B.insertBeforeExit [] = B := by
  rw [insertBeforeExit, List.append_nil, List.take_append_drop]

/-! ## Words of operands -/

/-- The word of an operand, given the registers of values: in its register if it is computed, else by
what it is. A label and a string have none. -/
def Module.word? (m : Module) (p : Platform) (held : List (ValueId × Reg)) (st : State)
    (v : ValueId) : Option Word :=
  match m.kindOf v with
  | some (.global g) => some (p.address g.idx)
  | some (.const c) => c.asInt.map Word.lit
  | some (.param _ _) | some (.inst _) => (held.lookup v).map st.get
  | some (.block _) | none => none

/-- Only registers that hold values matter for the words of operands. -/
theorem Module.word?_congr {m : Module} {p : Platform} {held : List (ValueId × Reg)}
    {st st' : State} (h : ∀ v r, held.lookup v = some r → st'.get r = st.get r) (v : ValueId) :
    m.word? p held st' v = m.word? p held st v := by
  have hheld : (held.lookup v).map st'.get = (held.lookup v).map st.get := by
    cases hr : held.lookup v with
    | none => rfl
    | some r => rw [Option.map_some, Option.map_some, h v r hr]
  rw [word?, word?]
  split <;> first | rfl | exact hheld

namespace Scope

variable {sc : Scope} {f : FuncId} {lists : BlockId → List ValueId} {p : Platform}
  {s s' s₁ s₂ S : Registers} {st : State} {b c : BlockId} {v : ValueId} {r : Reg} {i n : Nat}
  {saves : Saves} {entry K : Code} {seq : Copies.Sequence Reg} {d : Draft}
  {blocks : List Target.Block}

theorem stands_iff {w : Word} :
    sc.Stands p S st v w ↔ ∀ x, sc.module.word? p S.held st v = some x → w = x := by
  rw [Stands, Module.word?]
  cases sc.module.kindOf v with
  | none => simp
  | some kind => cases kind <;> simp [eq_comm (a := w)]

/-- A register with the word of an operand is that of the operand, or one that holds no value. -/
theorem Sourced.eq_or_free (h : sc.Sourced p s s' st v r) (hS : Grows s' S) (hr : s'.Has r) :
    sc.module.word? p S.held st v = some (st.get r) ∧
      (S.held.lookup v = some r ∨ ∀ u, S.held.lookup u ≠ some r) := by
  -- an operand without a word would stand for all of them
  have hword {st : State} (h : ∀ w, sc.Stands p S st v w → st.get r = w) :
      sc.module.word? p S.held st v = some (st.get r) := by
    cases hx : sc.module.word? p S.held st v with
    | some x => rw [h x (stands_iff.2 fun y hy => Option.some.inj (hx.symm.trans hy))]
    | none =>
      have hall (w : Word) : st.get r = w :=
        h w (stands_iff.2 fun y hy => nomatch hx.symm.trans hy)
      cases (hall 0#32).symm.trans (hall 1#32)
  refine ⟨hword fun w hw => h.get_eq hS hw, ?_⟩
  rcases h with h | ⟨hscratch, -⟩
  · -- the word follows the register, so it is no matter of what the operand is
    let only (w : Word) : State := ⟨fun q => if q = r then w else 0#32, ⟨fun _ => 0#8, []⟩⟩
    have honly (w : Word) : sc.module.word? p S.held (only w) v = some w := by
      rw [hword fun x hx => h S (only w) x hS hx]
      simp [State.get, only, hr.ne_zero]
    have hne : sc.module.word? p S.held (only 0) v ≠ sc.module.word? p S.held (only 1) v := by
      rw [honly, honly]
      decide
    have hone := honly 1
    refine .inl ?_
    rw [Module.word?, Module.word?] at hne
    rw [Module.word?] at hone
    cases hk : sc.module.kindOf v with
    | none => simp [hk] at hone
    | some kind =>
      rw [hk] at hne hone
      cases kind with
      | global | const | block => exact absurd rfl hne
      | param | inst =>
        obtain ⟨q, hq, hget⟩ := Option.map_eq_some_iff.1 hone
        by_cases heq : q = r
        · rw [hq, heq]
        · simp [State.get, only, heq] at hget
  · exact .inr (hscratch.grows_right hS).2

end Scope

/-! ## Copies and edges -/

namespace Module

/-- A copy belongs to the edge from one block to another: it is to the register of a phi at the end of
the edge, from that of the value that the phi takes on the edge, or else from one that holds no
value. -/
def CopyFor (m : Module) (held : List (ValueId × Reg)) (b c : BlockId) (q : Copy Reg) : Prop :=
  ∃ phi ∈ m.phisOf c, ∃ o, m.incomingFrom phi b = some o ∧ held.lookup phi = some q.dst ∧
    (held.lookup o = some q.src ∨ ∀ v, held.lookup v ≠ some q.src)

/-- The machine has carried out the phis at the end of the edge from one block to another: each of
them has the word that the value it takes on the edge had, and nothing else has changed that matters,
be it the register of another value, a machine register or the world. -/
structure Carries (m : Module) (p : Platform) (held : List (ValueId × Reg)) (b c : BlockId)
    (st st' : State) : Prop where
  phis : ∀ phi ∈ m.phisOf c, ∃ o r w, m.incomingFrom phi b = some o ∧
    held.lookup phi = some r ∧ m.word? p held st o = some w ∧ st'.get r = w
  kept : ∀ v r, v ∉ m.phisOf c → held.lookup v = some r → st'.get r = st.get r
  phys : ∀ r, st'.get (.phys r) = st.get (.phys r)
  world : st'.world = st.world

end Module

namespace Scope.Selected

variable {sc : Scope} {f : FuncId} {lists : BlockId → List ValueId} {p : Platform}
  {s₁ s₂ S : Registers} {st : State} {b c : BlockId} {i n : Nat} {saves : Saves} {entry K : Code}
  {seq : Copies.Sequence Reg} {d : Draft} {blocks : List Target.Block}
  (X : sc.Selected p lists saves entry s₁ s₂ S d blocks) (H : sc.IsOf f lists)
  (hphis : sc.module.PhisMatchPreds f)
include X H hphis

section Arrival

variable {e : Arrival} (he : e ∈ sc.arrivals)
include he

/-- The copies in a block of the function are for edges out of it, and it is no conditional
branch. -/
theorem own_arrival (hi : sc.blocks[i]? = some b)
    (hn : sc.holder? d e.pred e.succ = some i) :
    e.pred = b ∧ sc.module.branches b = false ∧ e.succ ∈ sc.module.succsOf b := by
  have hlt := (List.getElem?_eq_some_iff.1 hi).1
  rw [holder?] at hn
  split at hn
  · have hle := (X.edge hn).1
    omega
  · rename_i hbr
    obtain rfl : e.pred = b := Option.some.inj ((H.idxOf?_eq_some.1 hn).symm.trans hi)
    obtain ⟨hsucc, hphi, hin⟩ := Module.mem_arrivals.1 he
    rw [H.blocks] at hsucc
    exact ⟨rfl, Bool.eq_false_iff.2 hbr, hphis.succ_of_mem hsucc hphi hin⟩

/-- All copies in the block that does the copies for an edge are for that edge. -/
theorem eq_of_holder (hb : sc.module.funcOf b = some f) (hc : c ∈ sc.module.succsOf b)
    (hn : sc.holder? d b c = some n) (hen : sc.holder? d e.pred e.succ = some n) :
    e.pred = b ∧ e.succ = c := by
  cases hbr : sc.module.branches b with
  | false =>
    rw [holder?, if_neg (Bool.eq_false_iff.1 hbr), H.idxOf?_eq_some] at hn
    obtain ⟨hpred, -, hsucc⟩ := X.own_arrival H hphis he hn hen
    exact ⟨hpred, H.wellFormed.succ_unique hb hbr hsucc hc⟩
  | true =>
    rw [holder?, if_pos hbr] at hn
    rw [holder?] at hen
    split at hen
    · have heq := X.inj hen hn
      exact ⟨congrArg Prod.fst heq, congrArg Prod.snd heq⟩
    · obtain ⟨hlt, -⟩ := List.idxOf?_eq_some_iff.1 hen
      have hle := (X.edge hn).1
      omega

end Arrival

/-- A block whose copies would come too late or lead nowhere has none. -/
theorem pendingOf_eq_nil (hi : sc.blocks[i]? = some b)
    (hplaced : sc.Placed p s₁ s₂ S d i K seq)
    (hno : sc.module.branches b = true ∨ sc.module.succsOf b = []) : d.pendingOf i = [] := by
  rw [List.eq_nil_iff_forall_not_mem]
  intro q hq
  obtain ⟨st', -, -, hP⟩ := hplaced.delivers ⟨fun _ => 0, ⟨fun _ => 0, []⟩⟩
  obtain ⟨-, e, he, hn, -⟩ := hP q hq
  obtain ⟨-, hbr, hsucc⟩ := X.own_arrival H hphis he hi hn
  rcases hno with hno | hno
  · rw [hno] at hbr
    cases hbr
  · rw [hno] at hsucc
    cases hsucc

theorem code_eq_nil (hi : sc.blocks[i]? = some b) (hplaced : sc.Placed p s₁ s₂ S d i K seq)
    (hno : sc.module.branches b = true ∨ sc.module.succsOf b = []) : seq.code = [] := by
  obtain ⟨r, -, hseq⟩ := hplaced.sequence
  rw [X.pendingOf_eq_nil H hphis hi hplaced hno] at hseq
  cases hseq
  rfl

/-! ## Phis -/

variable (hb : sc.module.funcOf b = some f) (hc : c ∈ sc.module.succsOf b)
  (hcf : sc.module.funcOf c = some f)
include hb hc hcf

/-- An edge to a block with phis has a block that does its copies. -/
theorem exists_holder {phi : ValueId} (hphi : phi ∈ sc.module.phisOf c) :
    ∃ o n q, sc.module.incomingFrom phi b = some o ∧ sc.holder? d b c = some n ∧
      q ∈ d.pendingOf n ∧ s₂.held.lookup phi = some q.dst := by
  have howned := H.wellFormed.owned
  have hcmem := howned.mem_blocksOf.2 hcf
  obtain ⟨o, ho⟩ := hphis.exists_incomingFrom hcmem hphi (howned.nodup_blocksOf f)
    (howned.mem_blocksOf.2 hb) hc
  have hin := (hphis.incomingFrom_eq_some hcmem hphi (howned.nodup_blocksOf f)).1 ho
  have he : (⟨b, c, phi, o⟩ : Arrival) ∈ sc.arrivals :=
    Module.mem_arrivals.2 ⟨H.mem_blocks.2 hcf, hphi, hin⟩
  obtain ⟨n, q, hn, hq, hdst⟩ := X.complete _ he
  exact ⟨o, n, q, ho, hn, hq, hdst⟩

variable (hn : sc.holder? d b c = some n)
  (hsourced : ∀ q ∈ d.pendingOf n, s₂.Has q.src ∧ ∃ e ∈ sc.arrivals,
    sc.holder? d e.pred e.succ = some n ∧ s₂.held.lookup e.phi = some q.dst ∧
    sc.Sourced p s₁ s₂ st e.value q.src)
include hn hsourced

/-- A copy in the block that does the copies for an edge is for a phi at the end of the edge, and its
source has the word of the phi's value. -/
theorem copy_ok {q : Copy Reg} (hq : q ∈ d.pendingOf n) :
    ∃ phi ∈ sc.module.phisOf c, ∃ o, sc.module.incomingFrom phi b = some o ∧
      S.held.lookup phi = some q.dst ∧ sc.module.word? p S.held st o = some (st.get q.src) ∧
      (S.held.lookup o = some q.src ∨ ∀ v, S.held.lookup v ≠ some q.src) := by
  obtain ⟨hhas, e, he, hen, hheld, hsource⟩ := hsourced q hq
  obtain ⟨hpred, hsucc⟩ := X.eq_of_holder H hphis he hb hc hn hen
  obtain ⟨-, hphi, hin⟩ := Module.mem_arrivals.1 he
  rw [hsucc] at hphi
  rw [hpred] at hin
  have howned := H.wellFormed.owned
  obtain ⟨hword, hsrc⟩ := hsource.eq_or_free X.values hhas
  exact ⟨e.phi, hphi, e.value,
    (hphis.incomingFrom_eq_some (howned.mem_blocksOf.2 hcf) hphi (howned.nodup_blocksOf f)).2 hin,
    X.values.lookup hheld, hword, hsrc⟩

/-- The copies for an edge carry out the phis of the block that it leads to. -/
theorem carries (hplaced : sc.Placed p s₁ s₂ S d n K seq) :
    ∃ st', Does p seq.code st st' ∧ sc.module.Carries p S.held b c st st' := by
  have hS := X.values.wf X.wf
  have hcopy {q : Copy Reg} (hq : q ∈ d.pendingOf n) :=
    X.copy_ok H hphis hb hc hcf hn hsourced hq
  obtain ⟨t, ht, hseq⟩ := hplaced.sequence
  have hknown {v : ValueId} {r : Reg} (hr : S.held.lookup v = some r) : t.Has r :=
    ht.has (hS.virt hr)
  obtain ⟨st', hdoes, hworld, hassigns⟩ := moves_ok (p := p) hseq
    (fun q hq => by
      obtain ⟨phi, -, o, -, hdst, -⟩ := hcopy hq
      exact hknown hdst)
    (fun q hq => (X.values.trans ht).has (hsourced q hq).1) st
  refine ⟨st', hdoes, fun phi hphi => ?_, fun v r hv hr => ?_, fun r => ?_, hworld⟩
  · obtain ⟨o, n', q, ho, hn', hq, hdst⟩ := X.exists_holder H hphis hb hc hcf hphi
    cases hn.symm.trans hn'
    have hdst := X.values.lookup hdst
    -- all copies to the register of the phi have the same word to copy
    have hsame {q' : Copy Reg} (hq' : q' ∈ d.pendingOf n) (heq : q'.dst = q.dst) :
        sc.module.word? p S.held st o = some (st.get q'.src) := by
      obtain ⟨phi', -, o', ho', hdst', hword, -⟩ := hcopy hq'
      rw [heq] at hdst'
      obtain rfl := hS.inj hdst' hdst
      cases ho.symm.trans ho'
      exact hword
    refine ⟨o, q.dst, st.get q.src, ho, hdst, hsame hq rfl, ?_⟩
    refine (hassigns (hknown hdst).knows).eq (fun q' hq' heq => ?_) fun hno => ?_
    · exact Option.some.inj ((hsame hq' heq).symm.trans (hsame hq rfl))
    · exact absurd rfl (hno q hq)
  · refine (hassigns (hknown hr).knows).eq (fun q hq heq => ?_) fun _ => rfl
    obtain ⟨phi, hphi, o, -, hdst, -⟩ := hcopy hq
    rw [heq] at hdst
    exact absurd (hS.inj hdst hr ▸ hphi) hv
  · refine (hassigns (t.knows_phys r)).eq (fun q hq heq => ?_) fun _ => rfl
    obtain ⟨phi, -, o, -, hdst, -⟩ := hcopy hq
    exact absurd heq ((hS.virt hdst).ne_phys r)

end Scope.Selected

end SsaCodegen
