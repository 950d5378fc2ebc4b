import SsaCodegen.Proofs.Select.Drafts
import SsaCodegen.Proofs.Select.Faults

/-!
# Copies are never left over

The copies of a block are given three steps each and one more. They are always in sequence by then,
whatever they are, as long as no temporary is one of their destinations. The destinations of the
copies of a block are registers of phis. They are there before any temporary is handed out, so
selection never stops because copies are left over. It needs nothing from the module for that, which
may be ill-formed, and nothing from the machine.

No other part of selection stops for this reason either, which is said once for each of its
functions.

## Main definitions

* `Stop.LeftOver` — selection stopped because copies are left over
* `SelectM.Plain` — a computation does not stop for this reason

## Main results

* `Scope.recordPhis_pending` — the destinations of copies are registers that are there
* `exists_mapM_resolveBlock` — the copies of all blocks are put in sequence
* `Module.select_not_exhausted` — the bound on the steps is never met
-/

namespace SsaCodegen

open Target SelectM Registers

/-- A selection stopped because copies were left over after the steps that they were given. -/
def Stop.LeftOver : Stop → Prop
  | .refused (.phiResolutionExhausted _ _) => True
  | _ => False

/-- A part of a selection that only looks things up does not deal with copies. -/
theorem Ends.looked {y : Except Fault α} :
    Ends (fun stop => ¬stop.LeftOver) (liftM y : Except Stop α) fun _ => True := by
  cases y with
  | ok a => exact .of_ok rfl trivial
  | error e => exact .of_error rfl id

namespace SelectM

/-- Whatever registers have been handed out, a computation has a result or stops for another reason
than that copies are left over. -/
def Plain (x : SelectM α) : Prop :=
  ∀ s, Ends (fun stop => ¬stop.LeftOver) (x s) fun _ => True

namespace Plain

variable {x : SelectM α} {f : α → SelectM β}

theorem pure {a : α} : Plain (Pure.pure a) := fun _ => .of_ok rfl trivial

/-- What follows a computation starts from the registers that it leaves behind. -/
theorem bind_at (hx : Plain x) {s : Registers}
    (hf : ∀ a s', x s = .ok (a, s') →
      Ends (fun stop => ¬stop.LeftOver) (f a s') fun _ => True) :
    Ends (fun stop => ¬stop.LeftOver) ((x >>= f) s) fun _ => True := by
  show Ends _ (x s >>= fun q => f q.1 q.2) _
  exact (hx s).bind fun q hq _ => hf q.1 q.2 hq

theorem bind (hx : Plain x) (hf : ∀ a, Plain (f a)) : Plain (x >>= f) :=
  fun _ => hx.bind_at fun a s' _ => hf a s'

theorem lift {y : Except Fault α} : Plain (liftM y : SelectM α) := by
  intro s
  cases y with
  | ok a => exact .of_ok rfl trivial
  | error e => exact .of_error rfl id

/-- Something is looked up first. -/
theorem lookup {y : Except Fault α} (hf : ∀ a, Plain (f a)) : Plain (liftM y >>= f) :=
  .bind .lift hf

theorem refuse {e : SelectError} (h : ¬(Stop.refused e).LeftOver) :
    Plain (SelectM.refuse e : SelectM α) := fun _ => .of_error rfl h

/-- After a refusal nothing follows. -/
theorem refuse_bind {e : SelectError} (h : ¬(Stop.refused e).LeftOver) :
    Plain (SelectM.refuse e >>= f) := fun _ => .of_error rfl h

theorem halt {e : Fault} : Plain (SelectM.halt e : SelectM α) := fun _ => .of_error rfl id

theorem newReg {name : Option String} : Plain (SelectM.newReg name) := fun _ => .of_ok rfl trivial

theorem forM {l : List α} {k : α → SelectM PUnit} (hk : ∀ a, Plain (k a)) : Plain (l.forM k) := by
  induction l with
  | nil => exact .pure
  | cons a rest ih => exact .bind (hk a) fun _ => ih

end Plain

end SelectM

/-! ## Numbers -/

namespace Target.Spec

variable {t : Spec}

theorem loadImmInto_plain {dst : Reg} {n : Int64} : Plain (t.loadImmInto dst n) := by
  unfold loadImmInto
  dsimp only
  split
  · exact .pure
  · exact .bind .newReg fun _ => .pure

theorem loadImm_plain {n : Int64} : Plain (t.loadImm n) :=
  .bind .newReg fun _ => .bind loadImmInto_plain fun _ => .pure

theorem addOffset_plain {dst base : Reg} {n : Int64} : Plain (t.addOffset dst base n) := by
  unfold addOffset
  split
  · exact .pure
  · split
    · exact .pure
    · exact .bind loadImm_plain fun _ => .pure

theorem adjustStack_plain {n : Int64} : Plain (t.adjustStack n) := by
  unfold adjustStack
  dsimp only
  split
  · exact .pure
  · exact .bind loadImm_plain fun _ => .pure

theorem stackSlot_plain {n : Int64} : Plain (t.stackSlot n) := by
  unfold stackSlot
  dsimp only
  split
  · exact .pure
  · exact .bind .newReg fun _ => .bind addOffset_plain fun _ => .pure

end Target.Spec

namespace Scope

variable {sc : Scope} {v x : ValueId}

/-! ## Operands -/

theorem valueReg_plain : Plain (sc.valueReg v) := by
  refine .bind (fun s => .of_ok rfl trivial) fun s => ?_
  split
  · exact .pure
  · refine .lookup fun x => .bind .newReg fun r => ?_
    exact .bind (fun s => .of_ok rfl trivial) fun _ => .pure

theorem globalAddr_plain {g : Nat} : Plain (globalAddr g) :=
  .bind .newReg fun _ => .bind .newReg fun _ => .pure

theorem regOf_plain {user : ValueId} : Plain (sc.regOf user x) := by
  refine .lookup fun kind => ?_
  cases kind with
  | global g => exact .lookup fun _ => globalAddr_plain
  | const c =>
    dsimp only
    split
    · exact Target.Spec.loadImm_plain
    · exact .refuse id
  | param | inst => exact .bind valueReg_plain fun _ => .pure
  | block b => exact .lookup fun _ => .refuse id

theorem operandPair_plain : Plain (sc.operandPair v) :=
  .lookup fun _ => .bind regOf_plain fun _ => .lookup fun _ => .bind regOf_plain fun _ => .pure

/-! ## Loads, stores and addresses -/

theorem loadOp_plain {size : Nat} : Plain (loadOp v size) := by
  unfold loadOp
  split
  · exact .pure
  · exact .refuse id

theorem storeOp_plain {size : Nat} : Plain (storeOp v size) := by
  unfold storeOp
  split
  · exact .pure
  · exact .refuse id

theorem pointee_plain : Plain (sc.pointee v x) := by
  refine .lookup fun ty => ?_
  split
  · exact .pure
  · exact .refuse id

theorem address_plain : Plain (sc.address v x) := by
  refine .lookup fun kind => ?_
  split
  · exact .lookup fun _ => .bind .newReg fun _ => .pure
  · exact .bind regOf_plain fun _ => .pure

theorem lowerLoad_plain : Plain (sc.lowerLoad v) := by
  refine .lookup fun ptr => .bind pointee_plain fun ty => .bind loadOp_plain fun op => ?_
  exact .bind address_plain fun _ => .bind valueReg_plain fun _ => .pure

theorem lowerStore_plain : Plain (sc.lowerStore v) := by
  refine .lookup fun value => .lookup fun ptr => .bind pointee_plain fun ty => ?_
  refine .bind storeOp_plain fun op => .bind regOf_plain fun src => ?_
  exact .bind address_plain fun _ => .pure

theorem fieldOffset_plain {ty : Ty} : Plain (sc.fieldOffset v ty x) := by
  unfold fieldOffset
  split
  · exact .refuse id
  · refine .lookup fun kind => ?_
    split
    · exact .refuse id
    · split
      · exact .refuse id
      · exact .pure

theorem lowerElement_plain {ty : Ty} {dst base : Reg} :
    Plain (sc.lowerElement v x ty dst base) := by
  refine .lookup fun kind => ?_
  split
  · exact Target.Spec.addOffset_plain
  · refine .bind regOf_plain fun index => .bind Target.Spec.loadImm_plain fun scale => ?_
    exact .bind .newReg fun _ => .pure

theorem lowerGep_plain {needsZero : Bool} : Plain (sc.lowerGep v needsZero) := by
  refine .lookup fun base => .lookup fun index => .bind pointee_plain fun ty => ?_
  refine .bind regOf_plain fun q => .bind valueReg_plain fun dst => ?_
  split
  · refine .bind ?_ fun _ => .pure
    exact .bind fieldOffset_plain fun _ => Target.Spec.addOffset_plain
  · exact .bind lowerElement_plain fun _ => .pure

/-! ## Arithmetic and variables -/

theorem lowerBinary_plain {op : BinOp} : Plain (sc.lowerBinary v op) :=
  .bind operandPair_plain fun _ => .bind valueReg_plain fun _ => .pure

theorem lowerCompare_plain {op : CmpOp} : Plain (sc.lowerCompare v op) := by
  refine .bind operandPair_plain fun q => .bind valueReg_plain fun dst => ?_
  dsimp only
  split
  · exact .pure
  · exact .bind .newReg fun _ => .pure

theorem lowerMove_plain : Plain (sc.lowerMove v) :=
  .lookup fun _ => .bind regOf_plain fun _ => .bind valueReg_plain fun _ => .pure

theorem lowerAlloca_plain : Plain (sc.lowerAlloca v) := by
  unfold lowerAlloca
  split
  · exact .halt
  · exact .bind valueReg_plain fun _ => Target.Spec.addOffset_plain

/-! ## Branches -/

theorem branchTarget_plain {edges : EdgeBlocks} {pred : BlockId} :
    Plain (sc.branchTarget edges pred v x) := by
  refine .lookup fun kind => ?_
  split
  · exact .halt
  · exact .lookup fun _ => .pure

theorem lowerTest_plain {dest : Nat} : Plain (sc.lowerTest v x dest) := by
  refine .lookup fun fused => ?_
  split
  · refine .lookup fun a => .bind regOf_plain fun l => .lookup fun b => ?_
    exact .bind regOf_plain fun _ => .pure
  · exact .bind regOf_plain fun _ => .pure

theorem lowerBr_plain {edges : EdgeBlocks} {pred : BlockId} : Plain (sc.lowerBr edges pred v) := by
  refine .lookup fun operands => ?_
  split
  · exact .bind branchTarget_plain fun _ => .pure
  · refine .bind branchTarget_plain fun n => .bind branchTarget_plain fun n' => ?_
    exact .bind lowerTest_plain fun _ => .pure
  · exact .halt

/-! ## Calls and function boundaries -/

theorem argRegs_plain {args : List ValueId} : Plain (sc.argRegs v args) := by
  induction args with
  | nil => exact .pure
  | cons arg rest ih => exact .bind regOf_plain fun _ => .bind ih fun _ => .pure

theorem passStackArg_plain {src : Reg} {index : Nat} : Plain (sc.passStackArg v x src index) := by
  refine .lookup fun ty => .bind storeOp_plain fun op => .lookup fun offset => ?_
  exact .bind Target.Spec.stackSlot_plain fun _ => .pure

theorem takeStackParam_plain {dst : Reg} {index : Nat} : Plain (sc.takeStackParam v dst index) := by
  refine .lookup fun ty => .bind loadOp_plain fun op => .lookup fun offset => ?_
  exact .bind Target.Spec.stackSlot_plain fun _ => .pure

theorem takeParams_plain {index : Nat} {params : List ValueId} :
    Plain (sc.takeParams index params) := by
  induction params generalizing index with
  | nil => exact .pure
  | cons param rest ih =>
    refine .bind valueReg_plain fun dst => ?_
    dsimp only
    split
    · exact .bind .pure fun _ => .bind ih fun _ => .pure
    · exact .bind takeStackParam_plain fun _ => .bind ih fun _ => .pure

theorem passArgs_plain {index : Nat} {regs : List (ValueId × Reg)} :
    Plain (sc.passArgs v index regs) := by
  induction regs generalizing index with
  | nil => exact .pure
  | cons q rest ih =>
    unfold passArgs
    dsimp only
    split
    · exact .bind .pure fun _ => .bind ih fun _ => .pure
    · exact .bind passStackArg_plain fun _ => .bind ih fun _ => .pure

theorem lowerCall_plain {callee : FuncId} : Plain (sc.lowerCall v callee) := by
  unfold lowerCall
  dsimp only
  split
  · exact .refuse_bind id
  · refine .lookup fun x => .bind argRegs_plain fun q => .bind passArgs_plain fun pass => ?_
    split
    · exact .pure
    · exact .bind valueReg_plain fun _ => .pure

theorem saveEach_plain {regs : List PhysReg} : Plain (saveEach regs) := by
  induction regs with
  | nil => exact .pure
  | cons r rest ih => exact .bind .newReg fun _ => .bind ih fun _ => .pure

theorem prologue_plain {params : List ValueId} : Plain (sc.prologue params) := by
  unfold prologue
  dsimp only
  split
  · refine .bind Target.Spec.adjustStack_plain fun _ => .bind saveEach_plain fun q => ?_
    exact .bind takeParams_plain fun _ => .pure
  · refine .bind .pure fun _ => .bind saveEach_plain fun q => ?_
    exact .bind takeParams_plain fun _ => .pure

theorem lowerReturn_plain {saves : Saves} : Plain (sc.lowerReturn saves v) := by
  have hleave {code : Code → Code} : Plain (do
      let leave ← if sc.frame.size > 0 then sc.target.adjustStack (Int64.ofNat sc.frame.size)
        else pure []
      return code leave) := by
    split
    · exact .bind Target.Spec.adjustStack_plain fun _ => .pure
    · exact .bind .pure fun _ => .pure
  refine .lookup fun operands => ?_
  dsimp only
  split
  · exact .bind regOf_plain fun _ => .bind .pure fun _ => hleave
  · exact .bind .pure fun _ => hleave

/-! ## Blocks and copies -/

theorem lowerInst_plain {saves : Saves} {edges : EdgeBlocks} {b : BlockId} :
    Plain (sc.lowerInst saves edges b v) := by
  refine .lookup fun kind => ?_
  cases kind with
  | none => exact .halt
  | some k =>
    cases k with
    | phi => exact .pure
    | sext | cast => exact lowerMove_plain
    | br => exact lowerBr_plain
    | gep => exact lowerGep_plain
    | ret => exact lowerReturn_plain
    | load => exact lowerLoad_plain
    | store => exact lowerStore_plain
    | call => exact lowerCall_plain
    | alloca => exact lowerAlloca_plain
    | binary => exact lowerBinary_plain
    | compare =>
      refine .lookup fun fused => ?_
      split
      · exact .pure
      · exact lowerCompare_plain

theorem lowerInsts_plain {saves : Saves} {edges : EdgeBlocks} {b : BlockId}
    {insts : List ValueId} : Plain (sc.lowerInsts saves edges b insts) := by
  induction insts with
  | nil => exact .pure
  | cons v rest ih => exact .bind lowerInst_plain fun _ => .bind ih fun _ => .pure

theorem fillBlocks_plain {saves : Saves} {d : Draft} {i : Nat} {bs : List BlockId} :
    Plain (sc.fillBlocks saves d i bs) := by
  induction bs generalizing d i with
  | nil => exact .pure
  | cons b rest ih => exact .lookup fun _ => .bind lowerInsts_plain fun _ => ih

theorem recordIncoming_plain {b : BlockId} {phi : ValueId} {dst : Reg} {d : Draft}
    {operands : List ValueId} : Plain (sc.recordIncoming b phi dst d operands) := by
  induction operands using List.twoStepInduction generalizing d with
  | nil => exact .pure
  | singleton => exact .halt
  | cons_cons value label rest ih _ =>
    refine .lookup fun kind => ?_
    split
    · exact .halt
    · exact .lookup fun _ => .bind regOf_plain fun _ => ih

theorem reservePhis_plain {bs : List BlockId} : Plain (sc.reservePhis bs) := by
  induction bs with
  | nil => exact .pure
  | cons b rest ih =>
    refine .lookup fun phis => .bind (.forM fun phi => ?_) fun _ => .bind ih fun _ => .pure
    exact .bind valueReg_plain fun _ => .pure

theorem recordEach_plain {d : Draft} {phis : List (BlockId × ValueId)} :
    Plain (sc.recordEach d phis) := by
  induction phis generalizing d with
  | nil => exact .pure
  | cons q rest ih =>
    exact .bind valueReg_plain fun _ => .lookup fun _ => .bind recordIncoming_plain fun _ => ih

theorem recordPhis_plain {d : Draft} : Plain (sc.recordPhis d) :=
  .bind reservePhis_plain fun _ => recordEach_plain

/-! ## The destinations of copies -/

variable {s s' : Registers} {d d' : Draft}

/-- The destination of every copy that is gathered is the register of a phi. -/
theorem recordPhis_pending {empty : List Target.Block} {entry : Code} {saves : Saves}
    {loops : LoopNest} {params : List ValueId} (hempty : sc.emptyBlocks loops = .ok empty)
    (hentry : sc.prologue params {} = .ok ((saves, entry), s))
    (h : sc.recordPhis ⟨empty.modify 0 fun B => { B with insts := entry }, []⟩ s = .ok (d, s')) :
    s'.Wf ∧ ∀ B ∈ d.blocks, ∀ c ∈ B.pending, s'.Has c.dst := by
  obtain ⟨phis, s₁, hreserve, h⟩ := bind_ok.1 h
  -- code may refer to anything here, and the register that is watched is not there
  let e : Realm := ⟨sc, s', sc.blocks.length, Set.univ, Set.univ⟩
  let k := s'.names.length
  obtain ⟨hg, hprologue⟩ := prologue_yields (e := e) (k := k) Wf.empty hentry
  obtain ⟨hg₁, -⟩ := reservePhis_keeps (hg.wf .empty).apart hreserve
  have hwf₁ := hg₁.wf (hg.wf .empty)
  have hwf' := (recordEach_extends hwf₁.apart h).1.wf hwf₁
  have hphis : ∀ q ∈ phis, e.Offers q.2 ∧ e.regs.held.lookup q.2 ≠ some (.virt k) := by
    refine fun q _ => ⟨fun x _ g _ _ => Set.mem_univ _, fun hheld => ?_⟩
    exact Nat.lt_irrefl _ ((hwf'.virt hheld).knows _ rfl)
  obtain ⟨hg₂, hrecord⟩ := recordEach_yields (e := e) hphis (Nat.le_refl _) hwf₁ h
  obtain ⟨hlen, hblank⟩ := emptyBlocks_ok hempty
  have hdrawn := hrecord .refl _ (.entered hlen hblank (hprologue (hg₁.trans hg₂)).2)
  refine ⟨hwf', fun B hB c hc => ?_⟩
  obtain ⟨phi, hphi⟩ := (hdrawn.pending B hB c hc).dst
  exact hwf'.virt hphi

/-- To fill blocks with code changes no copies. -/
theorem fillBlocks_pending {saves : Saves} {i : Nat} {bs : List BlockId}
    (h : sc.fillBlocks saves d i bs s = .ok (d', s')) {B : Target.Block} (hB : B ∈ d'.blocks) :
    ∃ B₀ ∈ d.blocks, B.pending = B₀.pending := by
  induction bs generalizing d i s with
  | nil =>
    obtain ⟨rfl, -⟩ := pure_ok.1 h
    exact ⟨B, hB, rfl⟩
  | cons b rest ih =>
    obtain ⟨insts, s₁, -, h⟩ := bind_ok.1 h
    obtain ⟨code, s₂, -, h⟩ := bind_ok.1 h
    obtain ⟨B₁, hB₁, heq⟩ := ih h
    rcases mem_modify hB₁ with hB₀ | ⟨B₀, hB₀, rfl⟩
    · exact ⟨B₁, hB₀, heq⟩
    · exact ⟨B₀, hB₀, heq⟩

end Scope

/-! ## Copies in sequence -/

/-- The copies of a block are put in sequence if their destinations are there already. -/
theorem exists_resolveBlock {s : Registers} {B : Target.Block}
    (h : ∀ c ∈ B.pending, s.Has c.dst) :
    ∃ B' s', Draft.resolveBlock B s = .ok (B', s') := by
  have hold : ∀ c ∈ B.pending, ∀ k, c.dst ≠ .virt (s.names.length + k) := by
    intro c hc k heq
    have hlt := (h c hc).knows _ heq
    omega
  obtain ⟨seq, hseq, -⟩ := Copies.exists_sequentialize hold
  refine ⟨{ B.insertBeforeExit seq.code with pending := [] },
    { s with names := s.names ++ List.replicate seq.temps none }, ?_⟩
  refine bind_ok.2 ⟨s, s, rfl, ?_⟩
  rw [hseq]
  exact bind_ok.2 ⟨⟨⟩, _, rfl, rfl⟩

/-- Temporaries that are handed out for one block are no destinations in another. -/
theorem exists_mapM_resolveBlock {s : Registers} {blocks : List Target.Block}
    (h : ∀ B ∈ blocks, ∀ c ∈ B.pending, s.Has c.dst) :
    ∃ blocks' s', blocks.mapM Draft.resolveBlock s = .ok (blocks', s') := by
  induction blocks generalizing s with
  | nil =>
    rw [List.mapM_nil]
    exact ⟨[], s, rfl⟩
  | cons B rest ih =>
    obtain ⟨hB, hrest⟩ := List.forall_mem_cons.1 h
    obtain ⟨B', s₁, hB'⟩ := exists_resolveBlock hB
    have hg := (resolveBlock_ok hB').1
    obtain ⟨rest', s', hrest'⟩ := ih fun C hC c hc => hg.has (hrest C hC c hc)
    rw [List.mapM_cons]
    exact ⟨B' :: rest', s', bind_ok.2 ⟨B', s₁, hB', bind_ok.2 ⟨rest', s', hrest', rfl⟩⟩⟩

/-! ## Functions and modules -/

theorem Scope.selectBlocks_plain {sc : Scope} {y : Func} {loops : LoopNest} :
    Ends (fun stop => ¬stop.LeftOver) (sc.selectBlocks y loops {}) fun _ => True := by
  refine Plain.lift.bind_at fun empty s hlift => ?_
  obtain ⟨hempty, rfl⟩ := lift_ok.1 hlift
  refine prologue_plain.bind_at fun q s₀ hentry => recordPhis_plain.bind_at fun d s₁ hd => ?_
  obtain ⟨hwf, hpending⟩ := recordPhis_pending hempty hentry hd
  refine fillBlocks_plain.bind_at fun d' s₂ hd' => ?_
  have hg := (fillBlocks_ok hwf hd').1
  have hpending' : ∀ B ∈ d'.blocks, ∀ c ∈ B.pending, s₂.Has c.dst := by
    intro B hB c hc
    obtain ⟨B₀, hB₀, heq⟩ := fillBlocks_pending hd' hB
    exact hg.has (hpending B₀ hB₀ c (heq ▸ hc))
  obtain ⟨blocks, s₃, hblocks⟩ := exists_mapM_resolveBlock hpending'
  exact .of_ok hblocks trivial

namespace Module

theorem selectFunc_plain {m : Module} {t : Target.Spec} {f : FuncId} :
    Ends (fun stop => ¬stop.LeftOver) (m.selectFunc t f) fun _ => True := by
  refine Ends.looked.bind fun x _ _ => Ends.looked.bind fun frame _ _ => ?_
  refine Ends.looked.bind fun loops _ _ => ?_
  exact Scope.selectBlocks_plain.bind fun q _ _ => .pure trivial

theorem select_plain {m : Module} {t : Target.Spec} :
    Ends (fun stop => ¬stop.LeftOver) (m.select t) fun _ => True := by
  refine Ends.looked.bind fun globals _ _ => ?_
  refine Ends.bind (.mapM fun f _ => Ends.looked.bind fun x _ _ => ?_) fun _ _ _ => .pure trivial
  split
  · exact .pure trivial
  · exact selectFunc_plain

/-- Copies that write no temporary are put in sequence within the steps that they are given, with
one temporary each at most. The destinations may repeat, and so may the temporaries. The code of a
module is never refused because copies are left over, whatever the module and the machine are. -/
theorem select_not_exhausted :
    (∀ (R : Type) [DecidableEq R] (fresh : Nat → R) (copies : List (Copy R)),
      (∀ c ∈ copies, ∀ k, c.dst ≠ fresh k) →
        (Copies.run fresh (3 * copies.length + 1) { pending := copies }).pending = [] ∧
        ∃ seq, Copies.sequentialize fresh copies = .ok seq ∧ seq.temps ≤ copies.length) ∧
    ∀ (m : Module) (t : Target.Spec) (block : String) (bound : Nat),
      m.select t ≠ .error (.refused (.phiResolutionExhausted block bound)) := by
  refine ⟨fun R _ fresh copies hdst => ⟨?_, Copies.exists_sequentialize hdst⟩,
    fun m t block bound herror => select_plain.error herror trivial⟩
  have hstart : Copies.Queued fresh copies [] { pending := copies } :=
    ⟨(List.append_nil _).symm, hdst, List.forall_mem_nil _⟩
  exact (hstart.run (by rw [List.length_nil]; omega)).1

/-- A destination is written twice, a register is exchanged with another, and every temporary is the
same register. -/
theorem select_not_exhausted_repeating :
    let copies : List (Copy Nat) := [⟨0, 1⟩, ⟨1, 0⟩, ⟨0, 2⟩, ⟨2, 0⟩]
    (∀ c ∈ copies, c.dst ≠ 7) ∧
      ∃ seq, Copies.sequentialize (fun _ => 7) copies = .ok seq ∧ seq.temps ≤ 4 := by
  intro copies
  have hdst : ∀ c ∈ copies, c.dst ≠ 7 := by decide
  exact ⟨hdst, (select_not_exhausted.1 Nat (fun _ => 7) copies fun c hc _ => hdst c hc).2⟩

end Module

end SsaCodegen
