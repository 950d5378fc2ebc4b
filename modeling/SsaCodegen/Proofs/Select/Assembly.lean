import SsaCodegen.Proofs.Select.Blocks

/-!
# Where the code of a block stands

Whatever the module, a block that is complete has the code of its instructions in one piece, but for
the copies before its exit. What is put around it writes no register that is set apart and makes no
call. A block on an edge has a jump in the place of that code.

## Main definitions

* `Wraps` — some code with calm code before it and before its exit
* `Scope.Sketched` — a block that is still without the code of its instructions

## Main results

* `Wraps.split` — the place of an instruction in a block
* `Wraps.callees` — what a block calls
* `Scope.selectBlocks_wraps` — where the code of each block stands
-/

namespace SsaCodegen

open Target SelectM Registers

variable {K : Set Reg} {entry code insts : Code}

/-! ## Code with other code around it -/

/-- After the code `entry` comes other code, with calm code before it and before its exit. -/
def Wraps (K : Set Reg) (entry code insts : Code) : Prop :=
  ∃ fill moves body exit, Calm K fill ∧ Calm K moves ∧ fill ++ code = body ++ exit ∧
    (∀ i ∈ exit, i.op.isControl = true) ∧ insts = entry ++ (body ++ moves ++ exit)

/-- An instruction that passes on no control stands before the copies, and so does all that comes
before it. -/
theorem Wraps.split {i : Inst} {before after : Code}
    (h : Wraps K entry (before ++ i :: after) insts) (hi : i.op.isControl = false) :
    ∃ fill rest, Calm K fill ∧ Wraps K [] after rest ∧
      insts = entry ++ (fill ++ before ++ i :: rest) := by
  obtain ⟨fill, moves, body, exit, hfill, hmoves, hsplit, hexit, rfl⟩ := h
  rw [← List.append_assoc] at hsplit
  rcases List.append_eq_append_iff.1 hsplit with ⟨mid, rfl, hmid⟩ | ⟨mid, -, rfl⟩
  · cases mid with
    | nil =>
      rw [List.nil_append] at hmid
      have hcontrol := hexit i (hmid ▸ List.mem_cons_self)
      rw [hi] at hcontrol
      cases hcontrol
    | cons j mid =>
      obtain ⟨rfl, rfl⟩ := List.cons.inj hmid
      refine ⟨fill, mid ++ moves ++ exit, hfill, ⟨[], moves, mid, exit, nofun, hmoves, rfl, hexit,
        rfl⟩, ?_⟩
      simp only [List.append_assoc, List.cons_append]
  · have hcontrol := hexit i (List.mem_append_right _ List.mem_cons_self)
    rw [hi] at hcontrol
    cases hcontrol

theorem Wraps.callees (h : Wraps K entry code insts) :
    callees insts = callees entry ++ callees code := by
  obtain ⟨fill, moves, body, exit, hfill, hmoves, hsplit, hexit, rfl⟩ := h
  have hcode := congrArg SsaCodegen.callees hsplit
  rw [callees_append, callees_append, callees_eq_nil fun i hi => (hfill i hi).2.1,
    List.nil_append] at hcode
  rw [callees_append, callees_append, callees_append, hcode,
    callees_eq_nil fun i hi => (hmoves i hi).2.1, List.append_nil]

/-- The code on entry stands in the first block only. -/
theorem Target.Straight.first (h : Straight entry) (n : Nat) :
    Straight (if n = 0 then entry else []) := by
  split
  · exact h
  · exact List.forall_mem_nil _

namespace Scope

variable {sc : Scope} {s s' : Registers} {b : BlockId} {saves : Saves}

/-! ## Blocks without the code of their instructions -/

/-- A block that is still without the code of its instructions, given by its number: the code on
entry if it is the first, code that fills the sources of copies and, after the `count` blocks of the
function, a jump. -/
structure Sketched (K : Set Reg) (entry : Code) (count n : Nat) (B : Target.Block) : Prop where
  insts : ∃ fill exit, Calm K fill ∧ B.insts = (if n = 0 then entry else []) ++ fill ++ exit ∧
    (n < count ∧ exit = [] ∨ count ≤ n ∧ ∃ k, exit = [.jump k])
  pending : ∀ c ∈ B.pending, c.dst ∉ K

/-- A draft of blocks that are still without the code of their instructions. -/
structure Sketch (K : Set Reg) (entry : Code) (count : Nat) (d : Draft) : Prop where
  length : count ≤ d.blocks.length
  block : ∀ {n B}, d.blocks[n]? = some B → Sketched K entry count n B

variable {count : Nat} {d d' : Draft}

/-- Blocks without code of which the first gets the code on entry. -/
theorem Sketch.entered {blocks : List Target.Block} (hlen : blocks.length = count)
    (hblank : ∀ B ∈ blocks, B.insts = [] ∧ B.pending = []) :
    Sketch K entry count (({ blocks } : Draft).modifyBlock 0 fun B => { B with insts := entry }) := by
  refine ⟨?_, fun {n B} hB => ?_⟩
  · rw [Draft.modifyBlock, List.length_modify, hlen]
  · have hlt := (List.getElem?_eq_some_iff.1 hB).1
    rw [Draft.modifyBlock, List.length_modify, hlen] at hlt
    obtain ⟨hinsts, hpending⟩ := blank_modify hblank hB
    refine ⟨⟨[], [], List.forall_mem_nil _, ?_, .inl ⟨hlt, rfl⟩⟩, ?_⟩
    · rw [hinsts, List.append_nil, List.append_nil]
    · rw [hpending]
      exact List.forall_mem_nil _

theorem Sketch.addEdge {edge : BlockId × BlockId} {base : String} {depth dest : Nat}
    (h : Sketch K entry count d) (hd : 0 < d.blocks.length) :
    Sketch K entry count (d.addEdge edge base depth dest) where
  length := by
    rw [Draft.addEdge, List.length_append]
    exact Nat.le_add_right_of_le h.length
  block {n B} hB := by
    rw [Draft.addEdge, List.getElem?_append] at hB
    split at hB
    · exact h.block hB
    · have hlen := h.length
      have hn : n ≠ 0 := by omega
      obtain rfl := List.mem_singleton.1 (List.mem_of_getElem? hB)
      refine ⟨⟨[], [.jump dest], List.forall_mem_nil _, ?_, .inr ⟨by omega, dest, rfl⟩⟩,
        List.forall_mem_nil _⟩
      rw [if_neg hn]
      rfl

/-- The block that does the copies for an edge is there, or it is added to the blocks of a function
and jumps to one of them. -/
theorem copyHolder_cases {pred succ : BlockId} {n : Nat}
    (h : sc.copyHolder d pred succ = .ok (n, d')) :
    d' = d ∨ ∃ base depth dest, 0 < d.blocks.length ∧ sc.blockNumber succ = .ok dest ∧
      d' = d.addEdge (pred, succ) base depth dest := by
  obtain ⟨cond, -, h⟩ := bind_eq_ok.1 h
  split at h
  · split at h
    · cases h
      exact .inl rfl
    · obtain ⟨source, -, h⟩ := bind_eq_ok.1 h
      obtain ⟨x, -, h⟩ := bind_eq_ok.1 h
      obtain ⟨y, -, h⟩ := bind_eq_ok.1 h
      obtain ⟨B, hB, h⟩ := bind_eq_ok.1 h
      obtain ⟨dest, hdest, h⟩ := bind_eq_ok.1 h
      cases h
      have hpos := List.length_pos_of_mem (List.mem_of_getElem? (lookupOr_eq_ok.1 hB))
      exact .inr ⟨_, _, dest, hpos, hdest, rfl⟩
  · obtain ⟨k, -, h⟩ := bind_eq_ok.1 h
    cases h
    exact .inl rfl

theorem copyHolder_sketch {pred succ : BlockId} {n : Nat} (hd : Sketch K entry count d)
    (h : sc.copyHolder d pred succ = .ok (n, d')) : Sketch K entry count d' := by
  rcases copyHolder_cases h with rfl | ⟨base, depth, dest, hpos, -, rfl⟩
  · exact hd
  · exact hd.addEdge hpos

section Entry

variable (hentry : Straight entry)
include hentry

theorem Sketch.addCopy {holder : Nat} {copy : Copy Reg} {new : Code} (h : Sketch K entry count d)
    (hnew : Calm K new) (hdst : copy.dst ∉ K) :
    Sketch K entry count (d.addCopy holder copy new) where
  length := by
    rw [Draft.addCopy, Draft.modifyBlock, List.length_modify]
    exact h.length
  block {n B} hB := by
    rw [Draft.addCopy, Draft.modifyBlock, List.getElem?_modify] at hB
    obtain ⟨B₀, hB₀, rfl⟩ := Option.map_eq_some_iff.1 hB
    have hsketched := h.block hB₀
    split
    · obtain ⟨fill, exit, hfill, hinsts, hexit⟩ := hsketched.insts
      refine ⟨⟨fill ++ new, exit, hfill.append hnew, ?_, hexit⟩, fun c hc => ?_⟩
      · have hstraight : Straight ((if n = 0 then entry else []) ++ fill) :=
          (hentry.first n).append hfill.straight
        have hcontrol : ∀ i ∈ exit, i.op.isControl = true := by
          rcases hexit with ⟨-, rfl⟩ | ⟨-, k, rfl⟩
          · exact List.forall_mem_nil _
          · simp [Inst.jump, Opcode.isControl]
        rw [B₀.insertBeforeExit_eq hinsts hstraight hcontrol, List.append_assoc _ fill]
      · rcases List.mem_append.1 hc with hc | hc
        · exact hsketched.pending c hc
        · rw [List.mem_singleton.1 hc]
          exact hdst
    · exact hsketched

/-! ## Gathering copies -/

theorem recordIncoming_sketch {phi : ValueId} {dst : Reg} (hdst : dst ∉ K)
    {operands : List ValueId} (hd : Sketch K entry count d) :
    Keeps K (sc.recordIncoming b phi dst d operands) (Sketch K entry count) := by
  induction operands using List.twoStepInduction generalizing d with
  | nil => exact .pure hd
  | singleton => exact .halt
  | cons_cons value label rest ih _ =>
    refine .lookup fun kind => ?_
    split
    · exact .halt
    · refine .bind (.lift fun q hq => copyHolder_sketch hd hq) fun q hd' => ?_
      exact .bind regOf_keeps fun r hcode => ih (hd'.addCopy hentry hcode hdst)

theorem recordEach_sketch {phis : List (BlockId × ValueId)} (hd : Sketch K entry count d) :
    Keeps K (sc.recordEach d phis) (Sketch K entry count) := by
  induction phis generalizing d with
  | nil => exact .pure hd
  | cons q rest ih =>
    refine .bind valueReg_keeps fun dst hdst => .lookup fun operands => ?_
    exact .bind (recordIncoming_sketch hentry hdst hd) fun d' hd' => ih hd'

omit hentry in
theorem reservePhis_keeps {bs : List BlockId} : Keeps K (sc.reservePhis bs) fun _ => True := by
  induction bs with
  | nil => exact .pure trivial
  | cons b rest ih =>
    refine .lookup fun phis => .bind (.forM fun phi => ?_) fun _ _ => ?_
    · exact .bind valueReg_keeps fun _ _ => .pure trivial
    · exact .bind ih fun _ _ => .pure trivial

theorem recordPhis_sketch (hd : Sketch K entry count d) :
    Keeps K (sc.recordPhis d) (Sketch K entry count) :=
  .bind reservePhis_keeps fun _ _ => recordEach_sketch hentry hd

end Entry

/-! ## Complete blocks -/

/-- Copies in sequence write to registers that copies write to and to new ones. -/
theorem resolveBlock_wraps {B : Target.Block} (hpending : ∀ c ∈ B.pending, c.dst ∉ K) :
    Keeps K (Draft.resolveBlock B) fun B' => ∀ {entry fill code}, Straight entry → Calm K fill →
      B.insts = entry ++ (fill ++ code) → Wraps K entry code B'.insts := by
  intro s s' B' hs h
  obtain ⟨hg, seq, hseq, hinsts'⟩ := resolveBlock_ok h
  refine ⟨hg, fun {entry fill code} hentry hfill hinsts => ?_⟩
  have hmoves : ∀ c ∈ seq.moves, c.dst ∉ K :=
    Copies.sequentialize_dst hseq (· ∉ K) (fun k => hs.virt_notMem (Nat.le_add_right _ k)) hpending
  have hcalm : Calm K seq.code := by
    intro i hi
    obtain ⟨c, hc, rfl⟩ := List.mem_map.1 hi
    exact Calm.mv (hmoves c hc) _ List.mem_cons_self
  obtain ⟨body, exit, hsplit, hexit, hinsert⟩ :=
    Block.exists_insertBeforeExit hinsts hentry seq.code
  exact ⟨fill, seq.code, body, exit, hfill, hcalm, hsplit, hexit, hinsts'.trans hinsert⟩

/-- The code in a block, given by its number: that of its instructions, or a jump. -/
def CodeAt (sc : Scope) (K : Set Reg) (saves : Saves) (edges : EdgeBlocks) (S : Registers)
    (n : Nat) (code : Code) : Prop :=
  match sc.blocks[n]? with
  | some b => ∃ insts r r', sc.module.insts b = .ok insts ∧ r.Apart K ∧ Grows r' S ∧
    sc.lowerInsts saves edges b insts r = .ok (code, r')
  | none => ∃ k, code = [.jump k]

theorem CodeAt.mono {edges : EdgeBlocks} {S S' : Registers} {n : Nat}
    (h : sc.CodeAt K saves edges S n code) (hg : Grows S S') :
    sc.CodeAt K saves edges S' n code := by
  rw [CodeAt] at h ⊢
  split
  · rename_i b hb
    rw [hb] at h
    obtain ⟨insts, r, r', hinsts, hr, hr', hlower⟩ := h
    exact ⟨insts, r, r', hinsts, hr, hr'.trans hg, hlower⟩
  · rename_i hb
    rwa [hb] at h

/-- A block that was sketched gets the code of its instructions. -/
theorem fillBlocks_codeAt {n : Nat} {B : Target.Block} (hd : Sketch K entry sc.blocks.length d)
    (hs : s.Apart K) (h : sc.fillBlocks saves d 0 sc.blocks s = .ok (d', s'))
    (hB : d'.blocks[n]? = some B) :
    (∀ c ∈ B.pending, c.dst ∉ K) ∧ ∃ fill code, Calm K fill ∧
      B.insts = (if n = 0 then entry else []) ++ (fill ++ code) ∧
      sc.CodeAt K saves d.edges s' n code := by
  obtain ⟨-, hsame, hfill⟩ := fillBlocks_ok hs.wf h
  rw [Nat.zero_add] at hsame
  cases hb : sc.blocks[n]? with
  | none =>
    have hn := List.getElem?_eq_none_iff.1 hb
    rw [hsame (.inr hn)] at hB
    obtain ⟨⟨fill, exit, hcalm, hinsts, hexit⟩, hpending⟩ := hd.block hB
    obtain ⟨-, hjump⟩ := hexit.resolve_left fun hlt => Nat.not_lt_of_le hn hlt.1
    refine ⟨hpending, fill, exit, hcalm, by rw [hinsts, List.append_assoc], ?_⟩
    rw [CodeAt, hb]
    exact hjump
  | some b =>
    have hn := (List.getElem?_eq_some_iff.1 hb).1
    have hB₀ := List.getElem?_eq_getElem (Nat.lt_of_lt_of_le hn hd.length)
    obtain ⟨⟨fill, exit, hcalm, hinsts, hexit⟩, hpending⟩ := hd.block hB₀
    obtain ⟨-, rfl⟩ := hexit.resolve_right fun hle => Nat.not_lt_of_le hle.1 hn
    obtain ⟨insts, code, r, r', hr, hr', hlist, hlower, hB'⟩ :=
      hfill hb (by rw [Nat.zero_add]; exact hB₀)
    rw [Nat.zero_add, hB] at hB'
    cases hB'
    refine ⟨hpending, fill, code, hcalm, ?_, ?_⟩
    · show _ ++ code = _
      rw [hinsts, List.append_nil, List.append_assoc]
    · rw [CodeAt, hb]
      exact ⟨insts, r, r', hlist, hs.grows hr, hr', hlower⟩

/-- Every block that is selected has its code, after the code on entry if it is the first. -/
theorem selectBlocks_wraps {y : Func} {loops : LoopNest} {blocks : List Target.Block}
    {S : Registers} (h : sc.selectBlocks y loops {} = .ok (blocks, S)) :
    ∃ saves entry s₀ edges, sc.prologue y.params {} = .ok ((saves, entry), s₀) ∧ Grows s₀ S ∧
      sc.blocks.length ≤ blocks.length ∧ ∀ K, s₀.Apart K → ∀ {n B}, blocks[n]? = some B →
        ∃ code, sc.CodeAt K saves edges S n code ∧
          Wraps K (if n = 0 then entry else []) code B.insts := by
  obtain ⟨empty, saves, entry, s₀, d, s₁, d', s₂, hempty, hentry, hd, hd', h⟩ := selectBlocks_steps h
  obtain ⟨hlen, hblank⟩ := emptyBlocks_ok hempty
  obtain ⟨hg₀, hcalm⟩ := prologue_keeps (Set.notMem_empty _) Registers.Wf.empty.apart hentry
  have hsketch {K : Set Reg} (hK : s₀.Apart K) :
      Grows s₀ s₁ ∧ Sketch K entry sc.blocks.length d :=
    recordPhis_sketch hcalm.straight (.entered hlen hblank) hK hd
  obtain ⟨hg₁, hsketch₀⟩ := hsketch (hg₀.wf .empty).apart
  obtain ⟨hg₂, -, hfill⟩ := fillBlocks_ok (hg₁.wf (hg₀.wf .empty)) hd'
  have hg₃ := (mapM_resolveBlock_ok h).1
  refine ⟨saves, entry, s₀, d.edges, hentry, (hg₁.trans hg₂).trans hg₃, ?_,
    fun K hK {n B'} hB' => ?_⟩
  · refine Nat.le_of_not_lt fun hlt => ?_
    have hB := List.getElem?_eq_getElem (Nat.lt_of_lt_of_le hlt hsketch₀.length)
    obtain ⟨insts, code, r, r', -, -, -, -, hB'⟩ :=
      hfill (List.getElem?_eq_getElem hlt) (by rw [Nat.zero_add]; exact hB)
    obtain ⟨B'', r, r', hB'', -⟩ := (mapM_resolveBlock_ok h).2 hB'
    rw [Nat.zero_add] at hB''
    exact Nat.lt_irrefl _ (List.getElem?_eq_some_iff.1 hB'').1
  · have hs₁ := hK.grows hg₁
    have hblock {n : Nat} {B : Target.Block} (hB : d'.blocks[n]? = some B) :=
      fillBlocks_codeAt (hsketch hK).2 hs₁ hd' hB
    have hpending : ∀ B ∈ d'.blocks, ∀ c ∈ B.pending, c.dst ∉ K := by
      intro B hB
      obtain ⟨n, hn⟩ := List.getElem?_of_mem hB
      exact (hblock hn).1
    obtain ⟨-, hall⟩ :=
      Keeps.mapM (fun B hB => resolveBlock_wraps (hpending B hB)) (hs₁.grows hg₂) h
    obtain ⟨hlt, rfl⟩ := List.getElem?_eq_some_iff.1 hB'
    have hlt' : n < d'.blocks.length := hall.length_eq ▸ hlt
    obtain ⟨-, fill, code, hfill, hinsts, hcode⟩ := hblock (List.getElem?_eq_getElem hlt')
    refine ⟨code, hcode.mono hg₃, hall.get hlt' hlt ?_ hfill hinsts⟩
    split
    · exact hcalm.straight
    · exact List.forall_mem_nil _

end Scope

end SsaCodegen
