import SsaCodegen.Proofs.Copies
import SsaCodegen.Proofs.Select.Control
import SsaCodegen.Proofs.Select.Edges
import SsaCodegen.Proofs.Select.Spared
import SsaCodegen.Select.Program

/-!
# The code of a function, put together

What the blocks of a function hold once they are complete: the code on entry in the first of them,
the code that fills the sources of copies, the code of the instructions, and the copies in sequence
before the exit. A block on an edge has no code of its own, only copies and a jump.

## Main definitions

* `Scope.IsOf`, `Scope.IsFor` — a scope is that of a function, or of a call of it, for the 32-bit
  machine
* `Scope.Selected` — what the blocks of a function hold

## Main results

* `Scope.moves_ok` — what a sequence of moves does to the machine
* `Scope.IsOf.selectBlocks_ok` — what the blocks of a function hold
-/

namespace SsaCodegen

open Target SelectM Registers

/-! ## Copies in sequence -/

section Moves

variable {p : Platform} {s s' : Registers}

/-- Copies as machine instructions. -/
def Copies.Sequence.code (seq : Copies.Sequence Reg) : Code :=
  seq.moves.map fun c => Inst.mv c.dst c.src

theorem Copies.Sequence.straight_code (seq : Copies.Sequence Reg) : Straight seq.code := by
  intro i hi
  obtain ⟨c, -, rfl⟩ := List.mem_map.1 hi
  rfl

theorem Target.State.get_set (st : State) {r : Reg} (w : Word) (hr : r ≠ State.zero) :
    (st.set r w).get = Function.update st.get r w := by
  funext q
  by_cases hq : q = r
  · rw [hq, State.get_set_self st w hr, Function.update_self]
  · rw [State.get_set_of_ne st w hq, Function.update_of_ne hq]

/-- Moves do to the registers of the machine what they do to any registers. -/
theorem perform_ok {moves : List (Copy Reg)} (hdst : ∀ c ∈ moves, c.dst ≠ State.zero)
    (st : State) : ∃ st', Does p (moves.map fun c => Inst.mv c.dst c.src) st st' ∧
      st'.world = st.world ∧ st'.get = Copies.perform moves st.get := by
  induction moves generalizing st with
  | nil => exact ⟨st, .nil, rfl, rfl⟩
  | cons c rest ih =>
    obtain ⟨hc, hrest⟩ := List.forall_mem_cons.1 hdst
    obtain ⟨st', hdoes, hworld, hget⟩ := ih hrest (st.set c.dst (st.get c.src))
    refine ⟨st', .cons (step_mv p st _ _) hdoes, hworld, ?_⟩
    rw [hget, State.get_set st _ hc]
    rfl

/-- The sequence that was found for some copies has their effect on all registers that were there
before. -/
theorem moves_ok {P : List (Copy Reg)} {seq : Copies.Sequence Reg}
    (h : Copies.sequentialize (fun k => Reg.virt (s.names.length + k)) P = .ok seq)
    (hdst : ∀ c ∈ P, s.Has c.dst) (hsrc : ∀ c ∈ P, s.Has c.src) (st : State) :
    ∃ st', Does p seq.code st st' ∧ st'.world = st.world ∧
      ∀ {q}, s.Knows q → Copies.Assigns P st.get q (st'.get q) := by
  have hnew {r : Reg} (hr : s.Knows r) (k : Nat) : r ≠ .virt (s.names.length + k) := by
    intro heq
    have hlt := hr _ heq
    omega
  have hzero : ∀ c ∈ seq.moves, c.dst ≠ State.zero :=
    Copies.sequentialize_dst h (· ≠ State.zero) (fun _ => nofun) fun c hc => (hdst c hc).ne_zero
  obtain ⟨st', hdoes, hworld, hget⟩ := perform_ok (p := p) hzero st
  refine ⟨st', hdoes, hworld, fun {q} hq => ?_⟩
  rw [hget]
  refine Copies.sequentialize_assigns h ?_ (fun c hc => hnew (hdst c hc).knows)
    (fun c hc => hnew (hsrc c hc).knows) st.get (hnew hq)
  intro k k' heq
  have heq := Reg.virt.inj heq
  omega

theorem Registers.Grows.replicate (s : Registers) (n : Nat) :
    Grows s { s with names := s.names ++ List.replicate n none } := by
  induction n with
  | zero =>
    rw [List.replicate_zero, List.append_nil]
    exact .refl
  | succ n ih =>
    rw [List.replicate_succ', ← List.append_assoc]
    exact ih.fresh none

/-- What becomes of a block whose copies are put in sequence. -/
theorem resolveBlock_eq {B B' : Target.Block} (h : Draft.resolveBlock B s = .ok (B', s')) :
    ∃ seq, Copies.sequentialize (fun k => Reg.virt (s.names.length + k)) B.pending = .ok seq ∧
      B' = { B.insertBeforeExit seq.code with pending := [] } ∧
      s' = { s with names := s.names ++ List.replicate seq.temps none } := by
  obtain ⟨s₁, s₂, hget, h⟩ := bind_ok.1 h
  cases hget
  dsimp only at h
  cases hseq : Copies.sequentialize (fun k => Reg.virt (s.names.length + k)) B.pending with
  | error e =>
    rw [hseq] at h
    exact absurd h refuse_ne_ok
  | ok seq =>
    rw [hseq] at h
    obtain ⟨u, s₂, hmodify, h⟩ := bind_ok.1 h
    cases hmodify
    obtain ⟨rfl, rfl⟩ := pure_ok.1 h
    exact ⟨seq, rfl, rfl, rfl⟩

theorem resolveBlock_ok {B B' : Target.Block} (h : Draft.resolveBlock B s = .ok (B', s')) :
    Grows s s' ∧ ∃ seq, Copies.sequentialize (fun k => Reg.virt (s.names.length + k)) B.pending =
      .ok seq ∧ B'.insts = (B.insertBeforeExit seq.code).insts := by
  obtain ⟨seq, hseq, rfl, rfl⟩ := resolveBlock_eq h
  exact ⟨.replicate s seq.temps, seq, hseq, rfl⟩

theorem mapM_resolveBlock_ok {l l' : List Target.Block}
    (h : l.mapM Draft.resolveBlock s = .ok (l', s')) :
    Grows s s' ∧ ∀ {n : Nat} {B}, l[n]? = some B → ∃ B' r r', l'[n]? = some B' ∧ Grows s r ∧
      Grows r' s' ∧ Draft.resolveBlock B r = .ok (B', r') := by
  induction l generalizing l' s with
  | nil =>
    rw [List.mapM_nil] at h
    obtain ⟨rfl, rfl⟩ := pure_ok.1 h
    exact ⟨.refl, nofun⟩
  | cons B rest ih =>
    rw [List.mapM_cons] at h
    obtain ⟨B', s₁, hB, h⟩ := bind_ok.1 h
    obtain ⟨rest', s₂, hrest, h⟩ := bind_ok.1 h
    obtain ⟨rfl, rfl⟩ := pure_ok.1 h
    obtain ⟨hg, -⟩ := resolveBlock_ok hB
    obtain ⟨hg', hmem⟩ := ih hrest
    refine ⟨hg.trans hg', fun {n C} hC => ?_⟩
    cases n with
    | zero =>
      cases hC
      exact ⟨B', s, s₁, rfl, .refl, hg', hB⟩
    | succ n =>
      obtain ⟨C', r, r', hC', hr, hr', hres⟩ := hmem hC
      exact ⟨C', r, r', hC', hg.trans hr, hr', hres⟩

/-- To put copies in sequence changes neither names nor values, and leaves no copies. -/
theorem mapM_resolveBlock_same {blocks blocks' : List Target.Block}
    (h : blocks.mapM Draft.resolveBlock s = .ok (blocks', s')) :
    s'.held = s.held ∧ blocks'.map (·.name) = blocks.map (·.name) ∧
      ∀ B ∈ blocks', B.pending = [] := by
  induction blocks generalizing blocks' s with
  | nil =>
    rw [List.mapM_nil] at h
    obtain ⟨rfl, rfl⟩ := pure_ok.1 h
    exact ⟨rfl, rfl, List.forall_mem_nil _⟩
  | cons B rest ih =>
    rw [List.mapM_cons] at h
    obtain ⟨B', s₁, hB, h⟩ := bind_ok.1 h
    obtain ⟨rest', s₂, hrest, h⟩ := bind_ok.1 h
    obtain ⟨rfl, rfl⟩ := pure_ok.1 h
    obtain ⟨seq, -, rfl, rfl⟩ := resolveBlock_eq hB
    obtain ⟨hheld, hnames, hpending⟩ := ih hrest
    refine ⟨hheld, ?_, List.forall_mem_cons.2 ⟨rfl, hpending⟩⟩
    rw [List.map_cons, List.map_cons, hnames]
    rfl

end Moves

/-- The copies that a block does before it passes control on. -/
def Draft.pendingOf (d : Draft) (n : Nat) : List (Copy Reg) :=
  (d.blocks[n]?.map (·.pending)).getD []

theorem Draft.pendingOf_eq {d : Draft} {n : Nat} {B : Target.Block} (hB : d.blocks[n]? = some B) :
    d.pendingOf n = B.pending := by
  rw [pendingOf, hB]
  rfl

namespace Scope

variable {sc : Scope} {f : FuncId} {lists : BlockId → List ValueId} {p : Platform} {a : Activation}
  {s s' : Registers} {b : BlockId} {v : ValueId} {code : Code} {saves : Saves} {edges : EdgeBlocks}

/-- Each block is given the code of its instructions, and the others are left alone. -/
theorem fillBlocks_ok {d d' : Draft} {i : Nat} {bs : List BlockId} (hs : s.Wf)
    (h : sc.fillBlocks saves d i bs s = .ok (d', s')) :
    Grows s s' ∧ (∀ {n}, n < i ∨ i + bs.length ≤ n → d'.blocks[n]? = d.blocks[n]?) ∧
      ∀ {j b B}, bs[j]? = some b → d.blocks[i + j]? = some B → ∃ insts code r r',
        Grows s r ∧ Grows r' s' ∧ sc.module.insts b = .ok insts ∧
        sc.lowerInsts saves d.edges b insts r = .ok (code, r') ∧
        d'.blocks[i + j]? = some { B with insts := B.insts ++ code } := by
  induction bs generalizing d i s with
  | nil =>
    obtain ⟨rfl, rfl⟩ := pure_ok.1 h
    exact ⟨.refl, fun _ => rfl, nofun⟩
  | cons b rest ih =>
    obtain ⟨insts, hinsts, h⟩ := lift_bind_ok.1 h
    obtain ⟨code, s₁, hcode, h⟩ := bind_ok.1 h
    have hg := lowerInsts_grows hs hcode
    obtain ⟨hg', hsame, hblock⟩ := ih (hg.wf hs) h
    have hmodify (n : Nat) :
        (d.modifyBlock i fun x => { x with insts := x.insts ++ code }).blocks[n]? =
          (fun x : Target.Block => if i = n then { x with insts := x.insts ++ code } else x) <$>
            d.blocks[n]? :=
      List.getElem?_modify ..
    refine ⟨hg.trans hg', fun {n} hn => ?_, fun {j c B} hc hB => ?_⟩
    · rw [List.length_cons] at hn
      rw [hsame (by omega), hmodify]
      have hne : i ≠ n := by omega
      cases d.blocks[n]? with
      | none => rfl
      | some B => simp [hne]
    · cases j with
      | zero =>
        cases hc
        refine ⟨insts, code, s, s₁, .refl, hg', hinsts, hcode, ?_⟩
        rw [hsame (.inl (by omega)), hmodify, hB]
        simp
      | succ j =>
        have hidx : i + 1 + j = i + (j + 1) := by omega
        obtain ⟨insts', code', r, r', hr, hr', hinsts', hlower, hres⟩ :=
          hblock (j := j) (B := B) hc (by
            rw [hidx, hmodify, hB]
            simp)
        rw [hidx] at hres
        exact ⟨insts', code', r, r', hg.trans hr, hr', hinsts', hlower, hres⟩

/-- A scope is that of a function of a well-formed module, for the 32-bit machine. -/
structure IsOf (sc : Scope) (f : FuncId) (lists : BlockId → List ValueId) : Prop where
  wellFormed : sc.module.WellFormed lists
  target : sc.target = riscv32
  blocks : sc.blocks = sc.module.blocksOf f

/-- A scope is that of a call of a function of a well-formed module, for the 32-bit machine. -/
structure IsFor (sc : Scope) (f : FuncId) (lists : BlockId → List ValueId) (p : Platform)
    (a : Activation) : Prop extends sc.IsOf f lists where
  frame : sc.frame = a.frame
  suits : sc.module.Suits f p

/-- The code of an instruction that is neither a phi nor a terminator. -/
theorem IsFor.lowerInst_ok (H : sc.IsFor f lists p a) (hb : sc.module.funcOf b = some f)
    {k : InstKind} (hv : v ∈ lists b)
    (hk : sc.module.kindOf v = some (.inst k)) (hphi : k ≠ .phi) (hterm : k.isTerminator = false)
    (hs : s.Wf) (h : sc.lowerInst saves edges b v s = .ok (code, s')) :
    sc.module.Fused v ∧ code = [] ∧ s = s' ∨
      ¬sc.module.Fused v ∧ sc.Performs p a s s' v code := by
  refine Scope.lowerInst_ok H.target H.frame hs hk hphi hterm (H.wellFormed.fits hb hv hk) ?_ h
  rintro callee rfl
  refine H.suits (H.wellFormed.owned.mem_blocksOf.2 hb) ?_ hk
  rw [H.wellFormed.instsOf_eq hb]
  exact hv

namespace IsOf

variable (H : sc.IsOf f lists)
include H

theorem mem_blocks : b ∈ sc.blocks ↔ sc.module.funcOf b = some f := by
  rw [H.blocks, H.wellFormed.owned.mem_blocksOf]

/-- The number of a block is its position. -/
theorem idxOf?_eq_some {n : Nat} : sc.blocks.idxOf? b = some n ↔ sc.blocks[n]? = some b := by
  constructor
  · intro h
    obtain ⟨hlt, hget, -⟩ := List.idxOf?_eq_some_iff.1 h
    rw [List.getElem?_eq_getElem hlt, hget]
  · intro h
    obtain ⟨hlt, hget⟩ := List.getElem?_eq_some_iff.1 h
    refine List.idxOf?_eq_some_iff.2 ⟨hlt, hget, fun j hj heq => ?_⟩
    have hnodup : sc.blocks.Nodup := by
      rw [H.blocks]
      exact H.wellFormed.owned.nodup_blocksOf f
    exact Nat.ne_of_lt hj ((hnodup.getElem_inj_iff).1 (heq.trans hget.symm))

/-- The phis of a block, as they are looked for. -/
theorem phisOf_eq (hb : b ∈ sc.blocks) : phisOf sc.module b = .ok (sc.module.phisOf b) := by
  have hb := H.mem_blocks.1 hb
  obtain ⟨body, term, hlist, -, hlaid, -⟩ := H.wellFormed.layout hb
  refine SsaCodegen.bind_eq_ok.2 ⟨_, H.wellFormed.insts hb, congrArg Except.ok ?_⟩
  have hisPhi : (fun v : ValueId => sc.module.values[v.idx]?.any fun x => x.kind = .inst .phi) =
      sc.module.isPhi := by
    funext v
    rw [Module.isPhi, Module.kindOf, Module.valueField]
    cases sc.module.values[v.idx]? with
    | none => rfl
    | some x => simp
  rw [hisPhi, hlist, List.append_assoc, List.filter_append,
    List.filter_eq_self.2 fun v hv => hlaid.isPhi_of_mem hv,
    List.filter_eq_nil_iff.2 fun v hv => by simp [hlaid.not_isPhi_of_mem hv], List.append_nil]

end IsOf

/-! ## Blocks without code -/

theorem emptyBlocks_ok {loops : LoopNest} {blocks : List Target.Block}
    (h : sc.emptyBlocks loops = .ok blocks) :
    blocks.length = sc.blocks.length ∧ ∀ B ∈ blocks, B.insts = [] ∧ B.pending = [] := by
  have hall := mapM_eq_ok.1 h
  refine ⟨hall.length_eq.symm, fun B hB => ?_⟩
  obtain ⟨b, -, hb⟩ := forall₂_exists_of_mem hall.flip hB
  obtain ⟨x, -, hb⟩ := SsaCodegen.bind_eq_ok.1 hb
  cases hb
  exact ⟨rfl, rfl⟩

/-- The first of some blocks without code gets the code on entry. -/
theorem blank_modify {blocks : List Target.Block} {entry : Code} {n : Nat} {B : Target.Block}
    (hblank : ∀ B ∈ blocks, B.insts = [] ∧ B.pending = [])
    (hB : (blocks.modify 0 fun B => { B with insts := entry })[n]? = some B) :
    B.insts = (if n = 0 then entry else []) ∧ B.pending = [] := by
  rw [List.getElem?_modify] at hB
  obtain ⟨B₀, hB₀, rfl⟩ := Option.map_eq_some_iff.1 hB
  obtain ⟨hinsts, hpending⟩ := hblank B₀ (List.mem_of_getElem? hB₀)
  by_cases hn : n = 0
  · subst hn
    exact ⟨rfl, hpending⟩
  · rw [if_neg (Ne.symm hn), if_neg hn]
    exact ⟨hinsts, hpending⟩

/-! ## Complete blocks -/

/-- The code that fills the sources of the copies of a block, and these copies in sequence, with
temporaries that are newer than all registers of values. -/
structure Placed (sc : Scope) (p : Platform) (s₁ s₂ S : Registers) (d : Draft) (n : Nat) (K : Code)
    (seq : Copies.Sequence Reg) : Prop where
  delivers : sc.Delivers p s₁ s₂ d sc.arrivals n K (d.pendingOf n)
  sequence : ∃ t, Grows S t ∧ Copies.sequentialize (fun k => Reg.virt (t.names.length + k))
    (d.pendingOf n) = .ok seq

/-- What the blocks of a function hold, where `S` are the registers with all values. The registers
from `s₁` to `s₂` were added for the sources of copies, the later ones for instructions. -/
structure Selected (sc : Scope) (p : Platform) (lists : BlockId → List ValueId) (saves : Saves)
    (entry : Code) (s₁ s₂ S : Registers) (d : Draft) (blocks : List Target.Block) : Prop where
  wf : s₂.Wf
  sources : Grows s₁ s₂
  values : Grows s₂ S
  own : ∀ {i b}, sc.blocks[i]? = some b → ∃ K seq code r r', ∃ B₀ B : Target.Block,
    sc.Placed p s₁ s₂ S d i K seq ∧ Grows s₂ r ∧ Grows r' S ∧
    sc.lowerInsts saves d.edges b (lists b) r = .ok (code, r') ∧
    B₀.insts = (if i = 0 then entry else []) ++ K ++ code ∧
    blocks[i]? = some B ∧ B.insts = (B₀.insertBeforeExit seq.code).insts
  edge : ∀ {pred succ n}, d.edges.lookup (pred, succ) = some n → sc.blocks.length ≤ n ∧
    sc.module.branches pred = true ∧ ∃ K seq k B, sc.Placed p s₁ s₂ S d n K seq ∧
      sc.blocks.idxOf? succ = some k ∧ blocks[n]? = some B ∧
      B.insts = K ++ seq.code ++ [.jump k]
  inj : ∀ {e e' n}, d.edges.lookup e = some n → d.edges.lookup e' = some n → e = e'
  covers : ∀ {n B}, sc.blocks.length ≤ n → blocks[n]? = some B → ∃ e, d.edges.lookup e = some n
  complete : ∀ e ∈ sc.arrivals, ∃ n c, sc.holder? d e.pred e.succ = some n ∧
    c ∈ d.pendingOf n ∧ s₂.held.lookup e.phi = some c.dst

/-- The steps in which the blocks of a function are made. -/
theorem selectBlocks_steps {y : Func} {loops : LoopNest} {blocks : List Target.Block}
    (h : sc.selectBlocks y loops {} = .ok (blocks, s')) :
    ∃ empty saves entry s₀ d s₁ d' s₂, sc.emptyBlocks loops = .ok empty ∧
      sc.prologue y.params {} = .ok ((saves, entry), s₀) ∧
      sc.recordPhis ⟨empty.modify 0 fun B => { B with insts := entry }, []⟩ s₀ = .ok (d, s₁) ∧
      sc.fillBlocks saves d 0 sc.blocks s₁ = .ok (d', s₂) ∧
      d'.blocks.mapM Draft.resolveBlock s₂ = .ok (blocks, s') := by
  obtain ⟨empty, hempty, h⟩ := lift_bind_ok.1 h
  obtain ⟨⟨saves, entry⟩, s₀, hentry, h⟩ := bind_ok.1 h
  obtain ⟨d, s₁, hd, h⟩ := bind_ok.1 h
  obtain ⟨d', s₂, hd', h⟩ := bind_ok.1 h
  exact ⟨empty, saves, entry, s₀, d, s₁, d', s₂, hempty, hentry, hd, hd', h⟩

/-- The blocks of a function hold its code. The registers that hold values are those at the end. -/
theorem IsOf.selectBlocks_ok (H : sc.IsOf f lists) (p : Platform) {y : Func} {loops : LoopNest}
    {blocks : List Target.Block} (h : sc.selectBlocks y loops {} = .ok (blocks, s')) :
    ∃ saves entry s₀ s₁ s₂ S d, sc.prologue y.params {} = .ok ((saves, entry), s₀) ∧
      Grows s₀ s₁ ∧ sc.Selected p lists saves entry s₁ s₂ S d blocks ∧ S.held = s'.held := by
  obtain ⟨empty, saves, entry, s₀, d, s₂, d', S, hempty, hentry, hd, hd', h⟩ := selectBlocks_steps h
  obtain ⟨hlen, hblank⟩ := emptyBlocks_ok hempty
  obtain ⟨hg₀, hcalm⟩ := prologue_keeps (Set.notMem_empty _) Registers.Wf.empty.apart hentry
  have hs₀ := hg₀.wf .empty
  -- the blocks as they are when copies begin to be gathered
  let start := empty.modify 0 fun B => { B with insts := entry }
  have hstart {n : Nat} {B : Target.Block} (hB : start[n]? = some B) := blank_modify hblank hB
  have hstartLen : sc.blocks.length = start.length := by
    rw [List.length_modify, hlen]
  obtain ⟨s₁, hg₁, hrec⟩ := recordPhis_ok (p := p) H.target
    (fun B hB => by
      obtain ⟨n, hn⟩ := List.getElem?_of_mem hB
      rw [(hstart hn).1]
      split
      · exact hcalm.straight
      · nofun)
    (fun B hB => by
      obtain ⟨n, hn⟩ := List.getElem?_of_mem hB
      exact (hstart hn).2)
    hstartLen (fun b hb => H.phisOf_eq hb) hs₀ hd
  have hs₂ := hrec.grows.wf (hg₁.wf hs₀)
  obtain ⟨hg₂, hsame, hfill⟩ := fillBlocks_ok hs₂ hd'
  obtain ⟨-, hresolve⟩ := mapM_resolveBlock_ok h
  obtain ⟨hheld, hnames, -⟩ := mapM_resolveBlock_same h
  refine ⟨saves, entry, s₀, s₁, s₂, S, d, hentry, hg₁, ⟨hs₂, hrec.grows, hg₂, fun {i b} hi => ?_,
    fun {pred succ n} hn => ?_, hrec.inj, fun {n B} hle hB => ?_, fun e he => ?_⟩, hheld.symm⟩
  · have hlt : i < start.length := hstartLen ▸ (List.getElem?_eq_some_iff.1 hi).1
    have hB₁ := List.getElem?_eq_getElem hlt
    obtain ⟨B, K, hB, hinsts, hdel⟩ := hrec.own hB₁
    rw [← Draft.pendingOf_eq hB] at hdel
    rw [(hstart hB₁).1] at hinsts
    obtain ⟨insts, code, r, r', hr, hr', hlist, hlower, hB'⟩ := hfill hi (by rwa [Nat.zero_add])
    have hb := H.mem_blocks.1 (List.mem_of_getElem? hi)
    obtain rfl := Except.ok.inj ((H.wellFormed.insts hb).symm.trans hlist)
    rw [Nat.zero_add] at hB'
    obtain ⟨B'', t, t', hB'', ht, -, hres⟩ := hresolve hB'
    obtain ⟨-, seq, hseq, hinsts'⟩ := resolveBlock_ok hres
    refine ⟨K, seq, code, r, r', _, B'', ⟨hdel, t, ht, ?_⟩, hr, hr', hlower, ?_, hB'', hinsts'⟩
    · rw [Draft.pendingOf_eq hB]
      exact hseq
    · show B.insts ++ code = _
      rw [hinsts]
  · obtain ⟨hle, hbr, B, K, k, hB, hinsts, hk, hdel⟩ := hrec.edge hn
    have hdel' := hdel
    rw [← Draft.pendingOf_eq hB] at hdel'
    have hle : sc.blocks.length ≤ n := hstartLen ▸ hle
    have hB' : d'.blocks[n]? = some B := by
      rw [hsame (.inr (by omega)), hB]
    obtain ⟨B'', t, t', hB'', ht, -, hres⟩ := hresolve hB'
    obtain ⟨-, seq, hseq, hinsts'⟩ := resolveBlock_ok hres
    refine ⟨hle, hbr, K, seq, k, B'', ⟨hdel', t, ht, ?_⟩, hk, hB'', ?_⟩
    · rw [Draft.pendingOf_eq hB]
      exact hseq
    · rw [hinsts', B.insertBeforeExit_eq hinsts hdel.straight (by simp [Inst.jump,
        Opcode.isControl])]
  · have hlt := (List.getElem?_eq_some_iff.1 hB).1
    have hlength := congrArg List.length hnames
    rw [List.length_map, List.length_map] at hlength
    rw [hlength] at hlt
    have hC := List.getElem?_eq_getElem hlt
    rw [hsame (.inr (by omega))] at hC
    exact hrec.covers (hstartLen ▸ hle) (List.getElem?_eq_some_iff.1 hC).1
  · obtain ⟨n, B, c, hn, hB, hc, hheld⟩ := hrec.complete e he
    exact ⟨n, c, hn, by rwa [Draft.pendingOf_eq hB], hheld⟩

end Scope

end SsaCodegen
