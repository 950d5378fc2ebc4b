import SsaCodegen.Proofs.ConstProp.Narrow
import SsaCodegen.Proofs.Select.EdgeCopies
import SsaCodegen.Proofs.Select.Shape

/-!
# Comparisons and the branches that test them

Whether a comparison gets code of its own is decided twice, where the comparison is selected and
where a branch on it is. The two agree: either the comparison has its verdict in a register, which
one piece of code writes and every branch on it tests, or its only user is a branch that compares the
operands itself.

A block that ends in a conditional branch does no copies, so its branch comes right after the code
that brings the operands into registers.

## Main definitions

* `Module.BranchesOn` — a block of a function ends in a branch on a value
* `Target.Func.EndsIn` — a block of the code ends in a branch
* `Module.Materialized` — a comparison has code of its own
* `Module.Absorbed` — a branch takes a comparison over

## Main results

* `CmpOp.test_eq_eval` — words compare as the signed numbers do that they stand for
* `Scope.selectBlocks_branch` — where the code of a block that ends in a conditional branch stands
* `Module.compare_lowered_once` — a comparison is lowered once
-/

namespace SsaCodegen

open Target SelectM Registers

/-! ## Words as signed numbers -/

/-- The signed number that a word stands for. -/
def Word.number (w : Word) : Int64 := (Int32.ofBitVec w).toInt64

theorem Word.lit_number (w : Word) : lit w.number = w := by
  rw [← lit_toInt32, number, Int32.toInt32_toInt64]
  rfl

theorem Word.fits_number (w : Word) : fits w.number = true := by
  refine decide_eq_true ?_
  rw [lit_number, number, Int32.toInt_toInt64]
  rfl

theorem CmpOp.test_eq_eval (op : CmpOp) (x y : Word) :
    op.test x y = op.eval x.number y.number := by
  rw [← op.test_lit x.fits_number y.fits_number, Word.lit_number, Word.lit_number]

/-! ## Blocks that end in a conditional branch -/

namespace Scope

variable {sc : Scope} {d d' : Draft} {n : Nat} {b : BlockId}

/-- No block of the function that ends in a conditional branch has copies. Blocks on edges come after
those of the function. -/
structure Clear (sc : Scope) (d : Draft) : Prop where
  length : sc.blocks.length ≤ d.blocks.length
  edges : ∀ {e n}, d.edges.lookup e = some n → sc.blocks.length ≤ n
  pending : ∀ {n : Nat} {b B}, sc.blocks[n]? = some b → sc.module.branches b = true →
    d.blocks[n]? = some B → B.pending = []

/-- A block does not end in a conditional branch, or is none of the function. -/
def Passes (sc : Scope) (n : Nat) : Prop :=
  ∀ b, sc.blocks[n]? = some b → sc.module.branches b = false

theorem passes_of_le (h : sc.blocks.length ≤ n) : sc.Passes n := by
  intro b hb
  rw [List.getElem?_eq_none h] at hb
  cases hb

theorem Clear.entered {blocks : List Target.Block} {entry : Code}
    (hlen : blocks.length = sc.blocks.length)
    (hblank : ∀ B ∈ blocks, B.insts = [] ∧ B.pending = []) :
    sc.Clear ⟨blocks.modify 0 fun B => { B with insts := entry }, []⟩ where
  length := by rw [List.length_modify, hlen]
  edges h := by cases h
  pending _ _ hB := (blank_modify hblank hB).2

theorem Clear.addEdge {pred succ : BlockId} {base : String} {depth dest : Nat} (h : sc.Clear d) :
    sc.Clear (d.addEdge (pred, succ) base depth dest) where
  length := by
    rw [Draft.addEdge, List.length_append]
    exact Nat.le_add_right_of_le h.length
  edges {e n} hn := by
    rw [lookup_addEdge] at hn
    split at hn
    · cases hn
      exact h.length
    · exact h.edges hn
  pending {n b B} hb hbr hB := by
    have hlt := Nat.lt_of_lt_of_le (List.getElem?_eq_some_iff.1 hb).1 h.length
    rw [Draft.addEdge, List.getElem?_append_left hlt] at hB
    exact h.pending hb hbr hB

theorem Clear.addCopy {copy : Copy Reg} {code : Code} (h : sc.Clear d) (hn : sc.Passes n) :
    sc.Clear (d.addCopy n copy code) where
  length := by
    rw [Draft.addCopy, Draft.modifyBlock, List.length_modify]
    exact h.length
  edges := h.edges
  pending {n' b B} hb hbr hB := by
    rw [Draft.addCopy, Draft.modifyBlock, List.getElem?_modify] at hB
    obtain ⟨B₀, hB₀, rfl⟩ := Option.map_eq_some_iff.1 hB
    rw [if_neg]
    · exact h.pending hb hbr hB₀
    · rintro rfl
      rw [hn b hb] at hbr
      cases hbr

/-- The copies for an edge out of a conditional branch are in a block of their own. -/
theorem copyHolder_clear {pred succ : BlockId} (h : sc.copyHolder d pred succ = .ok (n, d'))
    (hd : sc.Clear d) : sc.Clear d' ∧ sc.Passes n := by
  obtain ⟨cond, hcond, h⟩ := bind_eq_ok.1 h
  have hbr := Module.branches_eq hcond
  cases cond with
  | false =>
    obtain ⟨k, hk, h⟩ := bind_eq_ok.1 h
    cases h
    refine ⟨hd, fun b hb => ?_⟩
    obtain ⟨hlt, hget, -⟩ := List.idxOf?_eq_some_iff.1 (lookupOr_eq_ok.1 hk)
    rw [List.getElem?_eq_getElem hlt, hget] at hb
    cases hb
    exact hbr
  | true =>
    rw [if_pos rfl] at h
    cases hlookup : d.edges.lookup (pred, succ) with
    | some k =>
      rw [hlookup] at h
      cases h
      exact ⟨hd, passes_of_le (hd.edges hlookup)⟩
    | none =>
      rw [hlookup] at h
      obtain ⟨source, -, h⟩ := bind_eq_ok.1 h
      obtain ⟨x, -, h⟩ := bind_eq_ok.1 h
      obtain ⟨y, -, h⟩ := bind_eq_ok.1 h
      obtain ⟨z, -, h⟩ := bind_eq_ok.1 h
      obtain ⟨k, -, h⟩ := bind_eq_ok.1 h
      cases h
      exact ⟨hd.addEdge, passes_of_le hd.length⟩

theorem recordIncoming_clear {phi : ValueId} {dst : Reg} {operands : List ValueId}
    (hd : sc.Clear d) : Keeps ∅ (sc.recordIncoming b phi dst d operands) sc.Clear := by
  induction operands using List.twoStepInduction generalizing d with
  | nil => exact .pure hd
  | singleton => exact .halt
  | cons_cons value label rest ih _ =>
    refine .lookup fun kind => ?_
    split
    · exact .halt
    · refine .bind (.lift fun q hq => copyHolder_clear hq hd) fun q hq => ?_
      exact .bind regOf_keeps fun r _ => ih (hq.1.addCopy hq.2)

theorem recordEach_clear {phis : List (BlockId × ValueId)} (hd : sc.Clear d) :
    Keeps ∅ (sc.recordEach d phis) sc.Clear := by
  induction phis generalizing d with
  | nil => exact .pure hd
  | cons q rest ih =>
    refine .bind valueReg_keeps fun dst _ => .lookup fun operands => ?_
    exact .bind (recordIncoming_clear hd) fun d' hd' => ih hd'

theorem recordPhis_clear (hd : sc.Clear d) : Keeps ∅ (sc.recordPhis d) sc.Clear :=
  .bind reservePhis_keeps fun _ _ => recordEach_clear hd

/-- A block without copies stays as it is when copies are put in sequence. -/
theorem resolveBlock_none {s s' : Registers} {B B' : Target.Block}
    (h : Draft.resolveBlock B s = .ok (B', s')) (hB : B.pending = []) : B'.insts = B.insts := by
  obtain ⟨seq, hseq, rfl, -⟩ := resolveBlock_eq h
  rw [hB] at hseq
  cases hseq
  show B.insts.take B.exitStart ++ [] ++ B.insts.drop B.exitStart = B.insts
  rw [List.append_nil, List.take_append_drop]

/-- The code of a block that ends in a conditional branch comes last in it, in one piece. -/
theorem selectBlocks_branch {y : Func} {loops : LoopNest} {blocks : List Target.Block}
    {S : Registers} (h : sc.selectBlocks y loops {} = .ok (blocks, S))
    (hb : sc.blocks[n]? = some b) (hbr : sc.module.branches b = true) :
    ∃ saves edges insts r r' B front code, sc.module.insts b = .ok insts ∧ r.Wf ∧ Grows r' S ∧
      sc.lowerInsts saves edges b insts r = .ok (code, r') ∧ blocks[n]? = some B ∧
      B.insts = front ++ code ∧ Straight front := by
  obtain ⟨empty, saves, entry, s₀, d, s₁, d', s₂, hempty, hentry, hd, hd', hresolve⟩ :=
    selectBlocks_steps h
  obtain ⟨hlen, hblank⟩ := emptyBlocks_ok hempty
  obtain ⟨hg₀, hcalm⟩ := prologue_keeps (Set.notMem_empty _) Wf.empty.apart hentry
  have hs₀ := (hg₀.wf .empty).apart
  obtain ⟨hg₁, hsketch⟩ := recordPhis_sketch hcalm.straight (.entered hlen hblank) hs₀ hd
  obtain ⟨-, hclear⟩ := recordPhis_clear (.entered hlen hblank) hs₀ hd
  have hs₁ := hs₀.grows hg₁
  have hlt := Nat.lt_of_lt_of_le (List.getElem?_eq_some_iff.1 hb).1 hclear.length
  have hB₀ := List.getElem?_eq_getElem hlt
  have hpending := hclear.pending hb hbr hB₀
  obtain ⟨-, -, hfill⟩ := fillBlocks_ok hs₁.wf hd'
  obtain ⟨_, _, _, _, -, -, -, -, hB⟩ := hfill hb (by rw [Nat.zero_add]; exact hB₀)
  rw [Nat.zero_add] at hB
  obtain ⟨-, fill, code, hfill, hinsts, hcode⟩ := fillBlocks_codeAt hsketch hs₁ hd' hB
  rw [CodeAt, hb] at hcode
  obtain ⟨insts, r, r', hlist, hr, hr', hlower⟩ := hcode
  obtain ⟨hg₃, hresolved⟩ := mapM_resolveBlock_ok hresolve
  obtain ⟨B', q, q', hB', -, -, hblock⟩ := hresolved hB
  refine ⟨saves, d.edges, insts, r, r', B', _, code, hlist, hr.wf, hr'.trans hg₃, hlower, hB', ?_,
    (hcalm.straight.first n).append hfill.straight⟩
  rw [resolveBlock_none hblock hpending, hinsts, List.append_assoc]

end Scope

/-! ## Branches of a function -/

/-- Block `n` of a function ends in the branch `u` on a condition. -/
def Module.BranchesOn (m : Module) (f : FuncId) (n : Nat) (u cond : ValueId) : Prop :=
  ∃ b thenLabel elseLabel, (m.blocksOf f)[n]? = some b ∧ u ∈ m.instsOf b ∧
    m.kindOf u = some (.inst .br) ∧ m.operandsOf u = [cond, thenLabel, elseLabel]

/-- Block `n` of some code ends in a run of instructions, a branch and a jump, and passes on no
control before. -/
def Target.EndsIn (blocks : List Target.Block) (n : Nat) (run : Code) (branch : Inst) : Prop :=
  ∃ B front dest, blocks[n]? = some B ∧ B.insts = front ++ run ++ [branch, .jump dest] ∧
    Straight (front ++ run)

theorem Target.Straight.not_isBranch {code : Code} {i : Inst} (h : Straight code) (hi : i ∈ code) :
    i.op.isBranch ≠ true := by
  intro hbranch
  have hcontrol := h i hi
  revert hbranch hcontrol
  cases i.op <;> simp [Opcode.isBranch, Opcode.isControl]

namespace Scope

variable {sc : Scope} {v u c cond : ValueId} {s s' : Registers} {code : Code} {saves : Saves}
  {edges : EdgeBlocks} {b : BlockId} {n : Nat}

/-- A value that is computed is in its register. -/
theorem regOf_inst {user : ValueId} {k : InstKind} {r : Reg}
    (hk : sc.module.kindOf v = some (.inst k)) (h : sc.regOf user v s = .ok ((r, code), s')) :
    code = [] ∧ s'.held.lookup v = some r := by
  obtain ⟨kind, hkind, h⟩ := lift_bind_ok.1 h
  cases hk.symm.trans (Module.kindOf_of_kind hkind)
  obtain ⟨r', s₁, hr, h⟩ := bind_ok.1 h
  obtain ⟨heq, rfl⟩ := pure_ok.1 h
  cases heq
  exact ⟨rfl, (valueReg_ok hr).2⟩

/-- What the code for a comparison is made of: the code for its operands comes first, and the
instruction that writes its register comes last. -/
theorem lowerCompare_parts {op : CmpOp} {l r : ValueId} (ho : sc.module.operandsOf v = [l, r])
    (h : sc.lowerCompare v op s = .ok (code, s')) :
    ∃ x y lCode rCode s₁ s₂ dst pre i, sc.regOf v l s = .ok ((x, lCode), s₁) ∧
      sc.regOf v r s₁ = .ok ((y, rCode), s₂) ∧ Grows s₂ s' ∧ s'.held.lookup v = some dst ∧
      code = pre ++ [i] ∧ i.dst = some dst := by
  obtain ⟨⟨x, y, pairCode⟩, s₁, hpair, h⟩ := bind_ok.1 h
  obtain ⟨l', hl, hpair⟩ := lift_bind_ok.1 hpair
  obtain ⟨⟨x', lCode⟩, s₂, hx, hpair⟩ := bind_ok.1 hpair
  obtain ⟨r', hr, hpair⟩ := lift_bind_ok.1 hpair
  obtain ⟨⟨y', rCode⟩, s₃, hy, hpair⟩ := bind_ok.1 hpair
  obtain ⟨heq, rfl⟩ := pure_ok.1 hpair
  cases heq
  have hl := Module.operandsOf_of_operand hl
  have hr := Module.operandsOf_of_operand hr
  rw [ho] at hl hr
  cases hl
  cases hr
  obtain ⟨dst, s₄, hdst, h⟩ := bind_ok.1 h
  obtain ⟨hg, hheld⟩ := valueReg_ok hdst
  dsimp only at h
  rcases hops : op.opcodes with ⟨first, _ | finish⟩ <;> rw [hops] at h
  · obtain ⟨rfl, rfl⟩ := pure_ok.1 h
    exact ⟨x, y, lCode, rCode, s₂, s₃, dst, _, _, hx, hy, hg, hheld, rfl, rfl⟩
  · obtain ⟨tmp, s₅, htmp, h⟩ := bind_ok.1 h
    obtain ⟨rfl, rfl⟩ := pure_ok.1 h
    obtain ⟨-, rfl⟩ := newReg_ok.1 htmp
    exact ⟨x, y, lCode, rCode, s₂, s₃, dst, _, _, hx, hy, hg.trans (.fresh none .refl), hheld,
      List.append_cons .., rfl⟩

/-- No terminator but a branch on a condition has a conditional branch in its code. -/
theorem lowerInst_isBranch {f : FuncId} {k : InstKind} {i : Inst} (hs : s.Wf)
    (hk : sc.module.kindOf v = some (.inst k)) (hterm : k.isTerminator = true)
    (hfits : sc.module.Fits f k (sc.module.operandsOf v))
    (h : sc.lowerInst saves edges b v s = .ok (code, s')) (hi : i ∈ code)
    (hop : i.op.isBranch = true) :
    k = .br ∧ ∃ cond thenLabel elseLabel,
      sc.module.operandsOf v = [cond, thenLabel, elseLabel] := by
  cases k with
  | br =>
    rcases hfits with ⟨dest, ho, -⟩ | ⟨cond, thenLabel, elseLabel, ho, -⟩
    · rw [lowerInst_br hk] at h
      obtain ⟨-, c, n, -, -, rfl⟩ := lowerBr_jump ho h
      rw [List.mem_singleton.1 hi] at hop
      cases hop
    · exact ⟨rfl, cond, thenLabel, elseLabel, ho⟩
  | ret =>
    rw [lowerInst_ret hk] at h
    obtain ⟨-, calm, rfl, hcalm⟩ := lowerReturn_keeps hs.apart h
    rcases List.mem_append.1 hi with hi | hi
    · exact absurd hop (hcalm.straight.not_isBranch hi)
    · rw [List.mem_singleton.1 hi] at hop
      cases hop
  | phi | sext | cast | gep | load | store | call | alloca | binary | compare => cases hterm

/-- The blocks of a function of a well-formed module were selected. -/
structure SelectedFrom (sc : Scope) (lists : BlockId → List ValueId) (f : FuncId) (y : Func)
    (blocks : List Target.Block) (S : Registers) : Prop where
  wellFormed : sc.module.WellFormed lists
  func : sc.module.funcs[f.idx]? = some y
  own : sc.blocks = y.blocks
  selected : ∃ loops, sc.selectBlocks y loops {} = .ok (blocks, S)

namespace SelectedFrom

variable {lists : BlockId → List ValueId} {f : FuncId} {y : Func} {blocks : List Target.Block}
  {S : Registers} (H : sc.SelectedFrom lists f y blocks S)
include H

theorem blocksOf_eq : sc.module.blocksOf f = sc.blocks := by
  rw [Module.blocksOf_of_func H.func, H.own]

theorem wf : S.Wf := by
  obtain ⟨loops, h⟩ := H.selected
  exact selectBlocks_wf h

theorem mem_blocks (hb : sc.blocks[n]? = some b) : b ∈ y.blocks :=
  H.own ▸ List.mem_of_getElem? hb

/-- A block ends in its only terminator. -/
theorem terminated (hb : sc.blocks[n]? = some b) {insts : List ValueId}
    (hinsts : sc.module.insts b = .ok insts) : sc.module.instsOf b = insts ∧
      ∃ init last, insts = init ++ [last] ∧ Terminated sc.module init last := by
  refine ⟨?_, H.wellFormed.terminated H.func (H.mem_blocks hb) hinsts⟩
  rw [Module.instsOf, hinsts]
  rfl

/-- A block that ends in a branch on a condition ends in the code of the branch, and passes on no
control before. -/
theorem lowered (hu : sc.module.BranchesOn f n u cond) :
    ∃ r r' B front test dest dest', r.Wf ∧ Grows r' S ∧
      sc.lowerTest u cond dest r = .ok (test, r') ∧ blocks[n]? = some B ∧
      B.insts = front ++ test ++ [.jump dest'] ∧ Straight front := by
  obtain ⟨b, thenLabel, elseLabel, hb, hmem, hk, ho⟩ := hu
  rw [H.blocksOf_eq] at hb
  obtain ⟨loops, hsel⟩ := H.selected
  have hfunc := H.wellFormed.owned.mem.2 ⟨y, H.func, H.mem_blocks hb⟩
  -- the branch is the terminator, so the block ends conditionally
  have hlast {init : List ValueId} {last : ValueId} (hinsts : sc.module.instsOf b = init ++ [last])
      (hterm : Terminated sc.module init last) : u = last := by
    rw [hinsts] at hmem
    rcases List.mem_append.1 hmem with hmem | hmem
    · obtain ⟨k, hk', hfalse⟩ := hterm.init u hmem
      cases hk.symm.trans hk'
      cases hfalse
    · exact List.mem_singleton.1 hmem
  obtain ⟨phis, body, term, hlist, hlaid⟩ := H.wellFormed.laid hfunc
  have hbr : sc.module.branches b = true := by
    have heq := hlast (by rw [H.wellFormed.threads.instsOf_eq, hlist]) hlaid.terminated
    rw [H.wellFormed.branches_eq hfunc hlist, ← heq, ho]
    rfl
  obtain ⟨saves, edges, insts, r, r', B, front, code, hinsts, hr, hr', hlower, hB, hcode, hfront⟩ :=
    selectBlocks_branch hsel hb hbr
  obtain ⟨heq, init, last, rfl, hterm⟩ := H.terminated hb hinsts
  obtain rfl := hlast heq hterm
  obtain ⟨before, here, r₁, hbefore, hhere, rfl⟩ := lowerInsts_concat hlower
  obtain ⟨hg, hstraight⟩ := lowerInsts_straight hterm.init hr.apart hbefore
  rw [lowerInst_br hk] at hhere
  obtain ⟨-, n, -, n', test, -, -, -, -, htest, rfl⟩ := lowerBr_parts ho hhere
  refine ⟨r₁, r', B, front ++ before, test, n, n', hg.wf hr, hr', htest, hB, ?_,
    hfront.append hstraight⟩
  rw [hcode]
  simp only [List.append_assoc]

/-- A conditional branch in the code comes from a branch on a condition. -/
theorem branchesOn_of_isBranch {B : Target.Block} {i : Inst} (hB : blocks[n]? = some B)
    (hi : i ∈ B.insts) (hop : i.op.isBranch = true) : ∃ u cond, sc.module.BranchesOn f n u cond := by
  obtain ⟨loops, hsel⟩ := H.selected
  obtain ⟨saves, entry, s₀, edges, hentry, -, -, hwraps⟩ := selectBlocks_wraps hsel
  obtain ⟨hg, hcalm⟩ := prologue_keeps (Set.notMem_empty _) Wf.empty.apart hentry
  obtain ⟨code, hcode, fill, moves, body, exit, hfill, hmoves, hsplit, -, hinsts⟩ :=
    hwraps ∅ (hg.wf .empty).apart hB
  -- all but the code of instructions passes on no control
  have hmem : i ∈ code := by
    rw [hinsts] at hi
    have hfilled : i ∈ fill ++ code := by
      rw [hsplit]
      rcases List.mem_append.1 hi with hi | hi
      · exact absurd hop ((hcalm.straight.first n).not_isBranch hi)
      · rcases List.mem_append.1 hi with hi | hi
        · refine List.mem_append_left _ ((List.mem_append.1 hi).resolve_right fun hi => ?_)
          exact hmoves.straight.not_isBranch hi hop
        · exact List.mem_append_right _ hi
    exact (List.mem_append.1 hfilled).resolve_left fun hi => hfill.straight.not_isBranch hi hop
  cases hb : sc.blocks[n]? with
  | none =>
    rw [CodeAt, hb] at hcode
    obtain ⟨k, rfl⟩ := hcode
    rw [List.mem_singleton.1 hmem] at hop
    cases hop
  | some b =>
    rw [CodeAt, hb] at hcode
    obtain ⟨insts, r, r', hlist, hr, -, hlower⟩ := hcode
    obtain ⟨heq, init, last, rfl, hterm⟩ := H.terminated hb hlist
    obtain ⟨before, here, r₁, hbefore, hhere, rfl⟩ := lowerInsts_concat hlower
    obtain ⟨hg, hstraight⟩ := lowerInsts_straight hterm.init hr hbefore
    have hlast := (List.mem_append.1 hmem).resolve_left fun hi => hstraight.not_isBranch hi hop
    obtain ⟨k, hk, hkterm⟩ := hterm.last
    have hfunc := H.wellFormed.owned.mem.2 ⟨y, H.func, H.mem_blocks hb⟩
    have hfits := H.wellFormed.fits hfunc (v := last)
      (by rw [← H.wellFormed.threads.instsOf_eq, heq]; simp) hk
    obtain ⟨rfl, cond, thenLabel, elseLabel, ho⟩ :=
      lowerInst_isBranch (hg.wf hr.wf) hk hkterm hfits hhere hlast hop
    refine ⟨last, cond, b, thenLabel, elseLabel, ?_, ?_, hk, ho⟩
    · rw [H.blocksOf_eq, hb]
    · rw [heq]
      simp

end SelectedFrom

end Scope

/-! ## Comparisons -/

/-- The world and the registers of all values but one are as before. -/
structure Registers.Leaves (S : Registers) (c : ValueId) (st st' : State) : Prop where
  world : st'.world = st.world
  get : ∀ {v r}, v ≠ c → S.held.lookup v = some r → st'.get r = st.get r

theorem Quiet.leaves {s s' S : Registers} {st st' : State} (h : Quiet s s' st st')
    (hS : Grows s' S) (c : ValueId) : S.Leaves c st st' :=
  ⟨h.world, fun _ hr => h.get (hS.not_scratch hr)⟩

theorem Writes.leaves {s s' S : Registers} {st st' : State} {c : ValueId} {dst : Reg}
    {w : Word} (h : Writes s s' dst w st st') (hS : Grows s' S) (hwf : S.Wf)
    (hc : S.held.lookup c = some dst) : S.Leaves c st st' := by
  refine ⟨h.world, fun {v r} hv hr => h.get ?_ (hS.not_scratch hr)⟩
  rintro rfl
  exact hv (hwf.inj hr hc)

namespace Module

/-- A comparison of `l` with `r` has code of its own, which stands in its block and leaves the verdict
in its register. Nothing else writes the register, and every branch on the comparison tests it. -/
structure Materialized (m : Module) (f : FuncId) (blocks : List Target.Block) (S : Registers)
    (c : ValueId) (op : CmpOp) (l r : ValueId) (k : Nat) (piece : Code) : Prop where
  held : S.held.lookup c = some (.virt k)
  once : writes k (codeOf blocks) = 1
  placed : ∃ (n : Nat) (b : BlockId) (B : Target.Block) (front rest : Code),
    (m.blocksOf f)[n]? = some b ∧ c ∈ m.instsOf b ∧
    blocks[n]? = some B ∧ B.insts = front ++ piece ++ rest ∧ Straight front
  decides : ∀ p st, ∃ x y st', m.operandWord p S st l = some x ∧ m.operandWord p S st r = some y ∧
    Does p piece st st' ∧ S.Leaves c st st' ∧
    st'.get (.virt k) = if op.eval x.number y.number then 1 else 0
  tested : ∀ {n u}, m.BranchesOn f n u c →
    ∃ dest, EndsIn blocks n [] ⟨.bnez, none, [.reg (.virt k), .block dest]⟩

/-- The branch `u`, which ends block `n`, takes over a comparison of `l` with `r`. Nothing writes the
register of the comparison, and no other branch tests it. The branch compares the operands and is
taken just if the comparison holds. -/
structure Absorbed (m : Module) (f : FuncId) (blocks : List Target.Block) (S : Registers)
    (c : ValueId) (op : CmpOp) (l r : ValueId) (n : Nat) (u : ValueId) (test : Code)
    (branch : Inst) : Prop where
  unwritten : ∀ k, S.held.lookup c = some (.virt k) → writes k (codeOf blocks) = 0
  branches : m.BranchesOn f n u c
  only : ∀ {n' u'}, m.BranchesOn f n' u' c → n' = n ∧ u' = u
  ends : EndsIn blocks n test branch
  decides : ∃ x y dest, branch = ⟨op.branchOp, none, [.reg x, .reg y, .block dest]⟩ ∧
    ∀ p st, ∃ a b st', m.operandWord p S st l = some a ∧ m.operandWord p S st r = some b ∧
      Does p test st st' ∧ S.Leaves c st st' ∧ st'.get x = a ∧ st'.get y = b ∧
      branch.step p st' = if op.eval a.number b.number then .goto dest else .fall

end Module

namespace Scope.SelectedFrom

variable {sc : Scope} {lists : BlockId → List ValueId} {f : FuncId} {y : Func}
  {blocks : List Target.Block} {S : Registers} {b : BlockId} {c l r u : ValueId} {op : CmpOp}
  {k n : Nat} (H : sc.SelectedFrom lists f y blocks S)
include H

/-- A branch that takes a comparison over is the only one on it. -/
theorem branchesOn_of_fusedInto (hinto : sc.module.FusedInto c u)
    (hb : (sc.module.blocksOf f)[n]? = some b) (hu : u ∈ sc.module.instsOf b) :
    sc.module.BranchesOn f n u c ∧
      ∀ {n' u'}, sc.module.BranchesOn f n' u' c → n' = n ∧ u' = u := by
  have hfirst : (sc.module.operandsOf u)[0]? = some c :=
    (H.wellFormed.mirrored.mem (u := ⟨u, 0⟩)).1 (hinto.uses ▸ List.mem_cons_self)
  constructor
  · obtain ⟨cond, thenLabel, elseLabel, hthree⟩ := List.length_eq_three.1 hinto.length
    rw [hthree] at hfirst
    cases hfirst
    exact ⟨b, thenLabel, elseLabel, hb, hu, hinto.kind, hthree⟩
  · rintro n' u' ⟨b', thenLabel, elseLabel, hb', hu', -, hthree⟩
    obtain ⟨rfl, -⟩ := hinto.eq_of_mem (i := 0) H.wellFormed.mirrored (by rw [hthree]; rfl)
    rw [H.wellFormed.threads.instsOf_eq] at hu hu'
    obtain rfl : b' = b := Option.some.inj ((H.wellFormed.threads.block_of_mem hu').symm.trans
      (H.wellFormed.threads.block_of_mem hu))
    rw [Module.blocksOf_of_func H.func] at hb hb'
    obtain ⟨hlt, -⟩ := List.getElem?_eq_some_iff.1 hb'
    exact ⟨(List.getElem?_inj hlt (H.wellFormed.owned.nodup H.func)).1 (hb'.trans hb.symm), rfl⟩

variable (hk : sc.module.kindOf c = some (.inst (.compare op)))
include hk

/-- No phi has the register of a comparison. -/
theorem not_phi_of_held (hheld : S.held.lookup c = some (.virt k)) {v : ValueId}
    (hv : sc.module.kindOf v = some (.inst .phi)) : S.held.lookup v ≠ some (.virt k) := by
  intro hheld'
  cases H.wf.inj hheld hheld'
  cases hk.symm.trans hv

/-- The register of a comparison is written once at most, and not at all if a branch takes the
comparison over. -/
theorem writes_le (hheld : S.held.lookup c = some (.virt k)) :
    writes k (codeOf blocks) ≤ if sc.module.Fused c then 0 else 1 := by
  obtain ⟨loops, hsel⟩ := H.selected
  have hemits := selectBlocks_emits_unfused (k := k) (G := Set.univ) (F := Set.univ) hsel
    (fun b _ v _ => ⟨fun _ _ _ _ _ => Set.mem_univ _, fun _ _ _ _ _ _ _ => Set.mem_univ _,
      fun _ _ _ => Set.mem_univ _⟩)
    fun b _ v _ => H.not_phi_of_held hk hheld
  refine hemits.bound.trans ?_
  have hnodup := H.wellFormed.values_nodup H.func
  rw [← H.own] at hnodup
  split
  · rename_i hfused
    have hhanded : handed S k {} S = 0 := by simp [handed, holds_iff.2 ⟨c, hheld⟩]
    rw [hhanded, Nat.zero_add, Nat.le_zero]
    refine ownedBy_eq_zero fun v hv hheld' => ?_
    -- the comparison is no parameter and was filtered out
    obtain rfl := H.wf.inj hheld hheld'
    rcases List.mem_append.1 hv with hv | hv
    · obtain ⟨i, hi⟩ := List.getElem?_of_mem hv
      cases hk.symm.trans (H.wellFormed.owned.param H.func hi)
    · exact absurd hfused (of_decide_eq_true (List.mem_filter.1 hv).2)
  · exact handed_add_ownedBy_le_one {} H.wf (hnodup.sublist (List.filter_sublist.append_left _))

/-- A branch on a comparison that has code of its own tests its register. -/
theorem tested (hnot : ¬sc.module.Fused c) (hheld : S.held.lookup c = some (.virt k))
    (hu : sc.module.BranchesOn f n u c) :
    ∃ dest, EndsIn blocks n [] ⟨.bnez, none, [.reg (.virt k), .block dest]⟩ := by
  obtain ⟨s, s', B, front, code, dest, dest', hs, hS, htest, hB, hinsts, hfront⟩ := H.lowered hu
  rcases lowerTest_parts htest with ⟨op', -, -, -, -, -, -, -, hk', hinto, -⟩ |
    ⟨-, x, condCode, hx, rfl⟩
  · exact absurd ⟨⟨op', hk'⟩, u, hinto⟩ hnot
  · obtain ⟨rfl, hheld'⟩ := regOf_inst hk hx
    cases hheld.symm.trans (hS.lookup hheld')
    refine ⟨dest, B, front, dest', hB, ?_, by rwa [List.append_nil]⟩
    rw [hinsts, List.append_nil, List.append_assoc]
    rfl

variable (hz : sc.target.zero = riscv32.zero) (ho : sc.module.operandsOf c = [l, r])
include hz ho

/-- A comparison that a branch takes over. -/
theorem absorbed (hinto : sc.module.FusedInto c u) (hb : b ∈ sc.module.blocksOf f)
    (hu : u ∈ sc.module.instsOf b) :
    ∃ n test branch, sc.module.Absorbed f blocks S c op l r n u test branch := by
  obtain ⟨n, hn⟩ := List.getElem?_of_mem hb
  obtain ⟨hon, honly⟩ := H.branchesOn_of_fusedInto hinto hn hu
  obtain ⟨s, s', B, front, code, dest, dest', hs, hS, htest, hB, hinsts, hfront⟩ := H.lowered hon
  rcases lowerTest_parts htest with
    ⟨op', l', r', x, y, lCode, rCode, s₁, hk', -, hl, hr, hx, hy, rfl⟩ | ⟨hnot, -⟩
  · cases hk.symm.trans hk'
    rw [ho] at hl hr
    cases hl
    cases hr
    obtain ⟨hg, hlCalm⟩ := regOf_keeps hs.apart hx
    obtain ⟨hg', hrCalm⟩ := regOf_keeps (hg.wf hs).apart hy
    refine ⟨n, lCode ++ rCode, _, ?_, hon, honly, ?_, x, y, dest, rfl, fun p st => ?_⟩
    · intro k hheld
      have hle := H.writes_le hk hheld
      rwa [if_pos ⟨⟨op, hk⟩, u, hinto⟩, Nat.le_zero] at hle
    · refine ⟨B, front, dest', hB, ?_, hfront.append (hlCalm.append hrCalm).straight⟩
      rw [hinsts]
      simp only [List.append_assoc, List.singleton_append]
    · obtain ⟨a, ha⟩ := exists_operandWord_of_regOf hx (hg'.trans hS) p st
      obtain ⟨d, hd⟩ := exists_operandWord_of_regOf hy hS p st
      obtain ⟨st', hdoes, hquiet, hgetx, hgety⟩ := (regOf_regOf_ok (p := p) hz hs hx hy).2 hS
        (stands_of_operandWord ha) (stands_of_operandWord hd)
      refine ⟨a, d, st', ha, hd, hdoes, hquiet.leaves hS c, hgetx, hgety, ?_⟩
      rw [← op.test_eq_eval]
      simp only [Inst.step, CmpOp.branch?_branchOp, hgetx, hgety]
  · exact absurd ⟨⟨op, hk⟩, hinto⟩ hnot

omit hz in
/-- The code of a comparison stands in its block in one piece, and no control is passed on before. -/
theorem placed (hnot : ¬sc.module.Fused c) (hb : (sc.module.blocksOf f)[n]? = some b)
    (hc : c ∈ sc.module.instsOf b) :
    ∃ s s' B front piece rest, s.Wf ∧ Grows s' S ∧ sc.lowerCompare c op s = .ok (piece, s') ∧
      blocks[n]? = some B ∧ B.insts = front ++ piece ++ rest ∧ Straight front := by
  rw [H.blocksOf_eq] at hb
  obtain ⟨loops, hsel⟩ := H.selected
  obtain ⟨saves, entry, s₀, edges, hentry, -, hlen, hwraps⟩ := selectBlocks_wraps hsel
  obtain ⟨hg₀, hcalm⟩ := prologue_keeps (Set.notMem_empty _) Wf.empty.apart hentry
  obtain ⟨B, hB⟩ : ∃ B, blocks[n]? = some B :=
    ⟨_, List.getElem?_eq_getElem (Nat.lt_of_lt_of_le (List.getElem?_eq_some_iff.1 hb).1 hlen)⟩
  obtain ⟨code, hcode, hwrap⟩ := hwraps ∅ (hg₀.wf .empty).apart hB
  rw [CodeAt, hb] at hcode
  obtain ⟨insts, s, s', hlist, hs, hS, hlower⟩ := hcode
  -- the comparison stands before the terminator
  obtain ⟨heq, init, last, rfl, hterm⟩ := H.terminated hb hlist
  have hinit : c ∈ init := by
    rw [heq] at hc
    refine (List.mem_append.1 hc).resolve_right fun hlast => ?_
    obtain ⟨k, hk', hterm⟩ := hterm.last
    rw [← List.mem_singleton.1 hlast] at hk'
    cases hk.symm.trans hk'
    cases hterm
  obtain ⟨before, after, rfl⟩ := List.append_of_mem hinit
  rw [List.append_assoc, List.cons_append] at hlower
  obtain ⟨earlier, back, s₁, hearlier, hback, rfl⟩ := lowerInsts_append hlower
  obtain ⟨piece, later, s₂, hpiece, hlater, rfl⟩ := lowerInsts_cons hback
  obtain ⟨-, hlowered⟩ := (lowerInst_compare hk hpiece).resolve_left fun h => hnot h.1
  obtain ⟨hg₁, hstraight⟩ := lowerInsts_straight
    (fun v hv => hterm.init v (List.mem_append_left _ hv)) hs hearlier
  have hs₁ := hg₁.wf hs.wf
  obtain ⟨hg₂, hpieceCalm⟩ := lowerCompare_keeps hs₁.apart hlowered
  -- its last instruction comes before the copies, and so does all of it
  obtain ⟨-, -, -, -, -, -, -, pre, i, -, -, -, -, rfl, -⟩ := lowerCompare_parts ho hlowered
  have hparts : earlier ++ (pre ++ [i] ++ later) = earlier ++ pre ++ i :: later := by
    simp only [List.append_assoc, List.singleton_append]
  rw [hparts] at hwrap
  obtain ⟨fill, rest, hfill, -, hinsts⟩ :=
    hwrap.split (hpieceCalm.straight i (List.mem_append_right _ List.mem_cons_self))
  refine ⟨s₁, s₂, B, (if n = 0 then entry else []) ++ fill ++ earlier, pre ++ [i], rest, hs₁,
    (lowerInsts_grows (hg₂.wf hs₁) hlater).trans hS, hlowered, hB, ?_,
    ((hcalm.straight.first n).append hfill.straight).append hstraight⟩
  rw [hinsts]
  simp only [List.append_assoc, List.singleton_append]

/-- A comparison that no branch takes over. -/
theorem materialized (hnot : ¬sc.module.Fused c) (hb : b ∈ sc.module.blocksOf f)
    (hc : c ∈ sc.module.instsOf b) :
    ∃ k piece, sc.module.Materialized f blocks S c op l r k piece := by
  obtain ⟨n, hn⟩ := List.getElem?_of_mem hb
  obtain ⟨s, s', B, front, piece, rest, hs, hS, hlower, hB, hinsts, hfront⟩ :=
    H.placed hk ho hnot hn hc
  obtain ⟨x, y, lCode, rCode, s₁, s₂, dst, pre, i, hx, hy, hg₂, hheld, hpiece, hdst⟩ :=
    lowerCompare_parts ho hlower
  have hheld := hS.lookup hheld
  obtain ⟨k, rfl, -⟩ := H.wf.virt hheld
  refine ⟨k, piece, hheld, ?_, ⟨n, b, B, front, rest, hn, hc, hB, hinsts, hfront⟩, fun p st => ?_,
    fun hu => H.tested hk hnot hheld hu⟩
  · have hle := H.writes_le hk hheld
    rw [if_neg hnot] at hle
    have hpos : 0 < writes k (codeOf blocks) := by
      refine List.countP_pos_iff.2 ⟨i, List.mem_flatMap.2 ⟨B, List.mem_of_getElem? hB, ?_⟩, ?_⟩
      · rw [hinsts, hpiece]
        simp
      · simp [hdst]
    omega
  · have hg₁ := (regOf_keeps (K := ∅) ((regOf_keeps hs.apart hx).1.wf hs).apart hy).1
    obtain ⟨a, ha⟩ := exists_operandWord_of_regOf hx (hg₁.trans (hg₂.trans hS)) p st
    obtain ⟨d, hd⟩ := exists_operandWord_of_regOf hy (hg₂.trans hS) p st
    obtain ⟨-, dst, hdst, hcode⟩ := lowerCompare_ok (p := p) hz hs ho hlower
    cases hheld.symm.trans (hS.lookup hdst)
    obtain ⟨st', hdoes, hwrites⟩ :=
      hcode hS (stands_of_operandWord ha) (stands_of_operandWord hd)
    refine ⟨a, d, st', ha, hd, hdoes, hwrites.leaves hS H.wf hheld, ?_⟩
    rw [hwrites.value, op.test_eq_eval, Word.ofBool]

end Scope.SelectedFrom

namespace Module

variable {m : Module} {t : Target.Spec} {prog : Target.Program} {f : FuncId} {b : BlockId}
  {c : ValueId} {op : CmpOp}

/-- A comparison of a function is lowered once, on a machine with the zero register. If the only use
of it is as the condition of a branch, it has no code of its own, and the one branch that comes from
that use compares its operands. Otherwise one piece of code writes its verdict into its register,
which is what all branches on it test. Both decide as the comparison of the signed numbers does that
the words of the operands stand for. -/
theorem compare_lowered_once (hbuilt : m.Built) (hverify : m.verify = .ok none)
    (h : m.select t = .ok prog) (hz : t.zero = riscv32.zero) (hb : b ∈ m.blocksOf f)
    (hc : c ∈ m.instsOf b) (hk : m.kindOf c = some (.inst (.compare op)))
    (husers : ∀ use ∈ m.usesOf c, ∃ b' ∈ m.blocksOf f, use.user ∈ m.instsOf b') :
    ∃ F S l r, prog.functions[f.idx]? = some F ∧ m.selection t f = .ok (F, S) ∧
      m.operandsOf c = [l, r] ∧
      (∀ (n : Nat) (B : Target.Block), F.blocks[n]? = some B → ∀ i ∈ B.insts,
        i.op.isBranch = true → ∃ u cond, m.BranchesOn f n u cond) ∧
      (m.Fused c ∧ (∃ n u test branch, m.Absorbed f F.blocks S c op l r n u test branch) ∨
        ¬m.Fused c ∧ ∃ k piece, m.Materialized f F.blocks S c op l r k piece) := by
  obtain ⟨lists, hm⟩ := hbuilt.wellFormed hverify
  obtain ⟨F, S, hF, hS⟩ := exists_selection h (List.ne_nil_of_mem hb)
  obtain ⟨y, frame, loops, hy, -, hsel⟩ := selection_ok hS
  have H : Scope.SelectedFrom ⟨m, t, frame, y.blocks⟩ lists f y F.blocks S :=
    ⟨hm, hy, rfl, loops, hsel⟩
  have hfits := hm.fits (hm.owned.mem_blocksOf.1 hb) (hm.threads.instsOf_eq ▸ hc) hk
  obtain ⟨l, r, ho⟩ := List.length_eq_two.1 hfits
  refine ⟨F, S, l, r, hF, hS, ho, fun n B hB i => H.branchesOn_of_isBranch hB, ?_⟩
  by_cases hfused : m.Fused c
  · obtain ⟨u, hinto⟩ := hfused.into
    obtain ⟨b', hb', hu⟩ := husers ⟨u, 0⟩ (hinto.uses ▸ List.mem_cons_self)
    obtain ⟨n, test, branch, habsorbed⟩ := H.absorbed hk hz ho hinto hb' hu
    exact .inl ⟨hfused, n, u, test, branch, habsorbed⟩
  · exact .inr ⟨hfused, H.materialized hk hz ho hfused hb hc⟩

/-- Calls that build a function with two comparisons in its first block: one with a number, on which
two blocks branch, and one that only a later block branches on. -/
def forkActions : List Action := [
  .addFunction "f" .i32 [("a", .i32), ("b", .i32)],
  .addBlock ⟨0⟩ "entry", .addBlock ⟨0⟩ "left", .addBlock ⟨0⟩ "right", .addBlock ⟨0⟩ "done",
  .build ⟨0⟩ (.i32 5000), .build ⟨0⟩ (.compare .sge ⟨0⟩ ⟨6⟩), .build ⟨0⟩ (.compare .ne ⟨0⟩ ⟨1⟩),
  .build ⟨0⟩ (.condBr ⟨7⟩ ⟨1⟩ ⟨2⟩), .build ⟨1⟩ (.condBr ⟨8⟩ ⟨2⟩ ⟨3⟩),
  .build ⟨2⟩ (.condBr ⟨7⟩ ⟨3⟩ ⟨3⟩), .build ⟨3⟩ (.ret (some ⟨0⟩))]

/-- The module that `forkActions` build. -/
def forkModule : Module := (forkActions.foldlM Action.run {}).toOption.getD {}

/-- The first comparison is in a register for the two branches on it, and the block after it takes the
second one over. -/
theorem compare_lowered_once_fork :
    forkModule.Built ∧ forkModule.verify = .ok none ∧ ∃ prog F S,
      forkModule.select riscv32 = .ok prog ∧ prog.functions[0]? = some F ∧
      forkModule.selection riscv32 ⟨0⟩ = .ok (F, S) ∧
      (∃ k piece, forkModule.Materialized ⟨0⟩ F.blocks S ⟨7⟩ .sge ⟨0⟩ ⟨6⟩ k piece) ∧
      ∃ n u test branch, forkModule.Absorbed ⟨0⟩ F.blocks S ⟨8⟩ .ne ⟨0⟩ ⟨1⟩ n u test branch := by
  have hbuilt : forkModule.Built := ⟨forkActions, rfl⟩
  have hverify : forkModule.verify = .ok none := by decide +kernel
  have hcode : (forkModule.codeOf? 0).isSome = true := by decide +kernel
  obtain ⟨F, hF⟩ := Option.isSome_iff_exists.1 hcode
  obtain ⟨prog, hselect, -⟩ := exists_of_codeOf? hF
  have hb : (⟨0⟩ : BlockId) ∈ forkModule.blocksOf ⟨0⟩ := by decide +kernel
  have hk : forkModule.kindOf ⟨7⟩ = some (.inst (.compare .sge)) := by decide +kernel
  have hk' : forkModule.kindOf ⟨8⟩ = some (.inst (.compare .ne)) := by decide +kernel
  obtain ⟨F, S, l, r, hF, hS, ho, -, hfirst⟩ := compare_lowered_once hbuilt hverify hselect rfl hb
    (by decide +kernel) hk (by decide +kernel)
  obtain ⟨F', S', l', r', -, hS', ho', -, hsecond⟩ := compare_lowered_once hbuilt hverify hselect rfl
    hb (by decide +kernel) hk' (by decide +kernel)
  cases hS.symm.trans hS'
  have hnot : ¬forkModule.Fused ⟨7⟩ := by decide +kernel
  have hfused : forkModule.Fused ⟨8⟩ := by decide +kernel
  have hoperands : forkModule.operandsOf ⟨7⟩ = [⟨0⟩, ⟨6⟩] := by decide +kernel
  have hoperands' : forkModule.operandsOf ⟨8⟩ = [⟨0⟩, ⟨1⟩] := by decide +kernel
  cases hoperands.symm.trans ho
  cases hoperands'.symm.trans ho'
  exact ⟨hbuilt, hverify, prog, F, S, hselect, hF, hS,
    (hfirst.resolve_left fun h => hnot h.1).2, (hsecond.resolve_right fun h => h.1 hfused).2⟩

end Module

end SsaCodegen
