import Mathlib.Data.List.Perm.Subperm
import SsaCodegen.Proofs.Select.Assembly
import SsaCodegen.Proofs.Select.Emitted

/-!
# The code of a whole function

The blocks of a function are filled piece by piece: the code on entry, the code for the sources of
copies, blocks for edges, the code of instructions and the copies in sequence. Each piece is put
somewhere into a block, so the code of all blocks together is, up to its order, what was there before
and the new piece. That carries what is known of pieces over to the function.

## Main definitions

* `Draft.code` — the code of all blocks
* `Drawn` — a draft whose code and copies refer to what there is

## Main results

* `freeName_notMem` — a block for an edge has a name of its own
* `Scope.selectBlocks_emits_unfused` — what the code of a function refers to, and how often it writes
  a register
* `Scope.selectBlocks_names` — blocks have different names if those of the function do
-/

namespace SsaCodegen

open Target SelectM Registers

/-! ## Names -/

theorem numberedName_injective (base : String) : Function.Injective (numberedName base) := by
  intro n n' h
  have hlist (i : Nat) : (numberedName base i).toList =
      base.toList ++ if i = 0 then [] else '.' :: Nat.toDigits 10 i := by
    rw [numberedName]
    split
    · rw [List.append_nil]
    · simp only [String.toList_append, List.append_assoc, Nat.toString_eq_ofList_toDigits,
        String.toList_ofList]
      rfl
  have heq := congrArg String.toList h
  rw [hlist, hlist] at heq
  have hsuffix := List.append_cancel_left heq
  by_cases hn : n = 0
  · by_cases hn' : n' = 0
    · rw [hn, hn']
    · simp [hn, hn'] at hsuffix
  · by_cases hn' : n' = 0
    · simp [hn, hn'] at hsuffix
    · rw [if_neg hn, if_neg hn'] at hsuffix
      have hnum := congrArg (fun ds => Nat.ofDigitChars 10 ds 0) (List.cons.inj hsuffix).2
      simpa using hnum

/-- One of the numbered names is free: there are more of them than names that are taken. -/
theorem freeName_notMem (taken : List String) (base : String) : freeName taken base ∉ taken := by
  rw [freeName]
  cases hfind : (List.range (taken.length + 1)).find?
      fun n => !taken.contains (numberedName base n) with
  | some n =>
    have hfree := List.find?_some hfind
    simpa using hfree
  | none =>
    have hall : (List.range (taken.length + 1)).map (numberedName base) ⊆ taken := by
      intro name hname
      obtain ⟨n, hn, rfl⟩ := List.mem_map.1 hname
      simpa using List.find?_eq_none.1 hfind n hn
    have hnodup : ((List.range (taken.length + 1)).map (numberedName base)).Nodup :=
      List.nodup_range.map (numberedName_injective base)
    have hle := (List.subperm_of_subset hnodup hall).length_le
    rw [List.length_map, List.length_range] at hle
    omega

/-! ## The code of all blocks -/

/-- The code of some blocks, one after the other. -/
def codeOf (blocks : List Target.Block) : Code := blocks.flatMap (·.insts)

/-- The code of all blocks of a draft. -/
def Draft.code (d : Draft) : Code := codeOf d.blocks

theorem Emits.subperm {e : Realm} {k n : Nat} {code code' : Code} (h : Emits e k code n)
    (hsub : List.Subperm code' code) : Emits e k code' n where
  dst i hi := h.dst i (hsub.subset hi)
  srcs i hi := h.srcs i (hsub.subset hi)
  bound := Nat.le_trans (hsub.countP_le _) h.bound

theorem Target.Block.insertBeforeExit_perm (B : Target.Block) (new : Code) :
    List.Perm (B.insertBeforeExit new).insts (B.insts ++ new) := by
  have hsplit := List.take_append_drop B.exitStart B.insts
  show List.Perm (B.insts.take B.exitStart ++ new ++ B.insts.drop B.exitStart) (B.insts ++ new)
  conv_rhs => rw [← hsplit]
  rw [List.append_assoc, List.append_assoc]
  exact List.perm_append_comm.append_left _

/-- To put code into a block is to add it to the code of all blocks. -/
theorem codeOf_modify_subperm {blocks : List Target.Block} {f : Target.Block → Target.Block}
    {new : Code} (hf : ∀ B ∈ blocks, List.Perm (f B).insts (B.insts ++ new)) (i : Nat) :
    List.Subperm (codeOf (blocks.modify i f)) (codeOf blocks ++ new) := by
  induction blocks generalizing i with
  | nil =>
    rw [List.modify_nil]
    exact List.nil_subperm
  | cons B rest ih =>
    obtain ⟨hB, hrest⟩ := List.forall_mem_cons.1 hf
    cases i with
    | zero =>
      have hperm : List.Perm (codeOf (f B :: rest)) (codeOf (B :: rest) ++ new) := by
        show List.Perm ((f B).insts ++ codeOf rest) (B.insts ++ codeOf rest ++ new)
        rw [List.append_assoc]
        refine (hB.append_right _).trans ?_
        rw [List.append_assoc]
        exact List.perm_append_comm.append_left _
      exact hperm.subperm
    | succ i =>
      show List.Subperm (B.insts ++ codeOf (rest.modify i f)) (B.insts ++ codeOf rest ++ new)
      rw [List.append_assoc]
      exact (List.subperm_append_left _).2 (ih hrest i)

theorem map_name_modify {blocks : List Target.Block} {f : Target.Block → Target.Block}
    (hf : ∀ B, (f B).name = B.name) (i : Nat) :
    (blocks.modify i f).map (·.name) = blocks.map (·.name) := by
  refine List.ext_getElem? fun n => ?_
  rw [List.getElem?_map, List.getElem?_map, List.getElem?_modify]
  cases blocks[n]? with
  | none => rfl
  | some B =>
    dsimp only [Option.map_some]
    split
    · exact congrArg some (hf B)
    · rfl

theorem mem_modify {l : List α} {f : α → α} {i : Nat} {a : α} (h : a ∈ l.modify i f) :
    a ∈ l ∨ ∃ b ∈ l, a = f b := by
  obtain ⟨n, hn⟩ := List.getElem?_of_mem h
  rw [List.getElem?_modify] at hn
  obtain ⟨b, hb, rfl⟩ := Option.map_eq_some_iff.1 hn
  split
  · exact .inr ⟨b, List.mem_of_getElem? hb, rfl⟩
  · exact .inl (List.mem_of_getElem? hb)

/-! ## Drafts -/

variable {e : Realm} {k n : Nat} {d d' : Draft}

/-- A copy goes from a register that is there in the end to that of a value, which is not the
virtual register `k`. -/
structure Joins (e : Realm) (k : Nat) (c : Copy Reg) : Prop where
  dst : ∃ phi, e.regs.held.lookup phi = some c.dst
  src : e.regs.Knows c.src
  ne : c.dst ≠ .virt k

/-- The code and the copies of a draft refer to what there is. -/
structure Drawn (e : Realm) (k : Nat) (d : Draft) (n : Nat) : Prop where
  code : Emits e k d.code n
  pending : ∀ B ∈ d.blocks, ∀ c ∈ B.pending, Joins e k c
  length : e.scope.blocks.length ≤ d.blocks.length
  edges : ∀ q ∈ d.edges, q.2 < d.blocks.length

namespace Drawn

theorem mono (h : Drawn e k d n) {n' : Nat} (hn : n ≤ n') : Drawn e k d n' :=
  ⟨h.code.mono hn, h.pending, h.length, h.edges⟩

/-- Code is put into a block. -/
theorem modifyBlock (h : Drawn e k d n) {f : Target.Block → Target.Block} {new : Code} {c : Nat}
    (hf : ∀ B ∈ d.blocks, List.Perm (f B).insts (B.insts ++ new))
    (hpending : ∀ B ∈ d.blocks, ∀ p ∈ (f B).pending, Joins e k p) (hnew : Emits e k new c)
    (i : Nat) : Drawn e k (d.modifyBlock i f) (n + c) where
  code := (h.code.append hnew).subperm (codeOf_modify_subperm hf i)
  pending B hB := by
    rcases mem_modify hB with hB | ⟨B₀, hB₀, rfl⟩
    · exact h.pending B hB
    · exact hpending B₀ hB₀
  length := by
    rw [Draft.modifyBlock, List.length_modify]
    exact h.length
  edges q hq := by
    rw [Draft.modifyBlock, List.length_modify]
    exact h.edges q hq

/-- Blocks without code, the first of which gets the code on entry. -/
theorem entered {empty : List Target.Block} {entry : Code}
    (hlen : empty.length = e.scope.blocks.length)
    (hblank : ∀ B ∈ empty, B.insts = [] ∧ B.pending = []) (hentry : Emits e k entry n) :
    Drawn e k ⟨empty.modify 0 fun B => { B with insts := entry }, []⟩ n := by
  have hstart : Drawn e k { blocks := empty } 0 := by
    refine ⟨?_, fun B hB => ?_, hlen.ge, List.forall_mem_nil _⟩
    · have hnil : codeOf empty = [] := List.flatMap_eq_nil_iff.2 fun B hB => (hblank B hB).1
      rw [Draft.code, hnil]
      exact .nil
    · rw [(hblank B hB).2]
      exact List.forall_mem_nil _
  rw [← Nat.zero_add n]
  exact hstart.modifyBlock (f := fun B => { B with insts := entry })
    (fun B hB => by rw [(hblank B hB).1, List.nil_append]) hstart.pending hentry 0

theorem addCopy (h : Drawn e k d n) {copy : Copy Reg} {new : Code} {c : Nat}
    (hcopy : Joins e k copy) (hnew : Emits e k new c) (holder : Nat) :
    Drawn e k (d.addCopy holder copy new) (n + c) := by
  refine h.modifyBlock (f := fun B => { B.insertBeforeExit new with pending := B.pending ++ [copy] })
    (fun B _ => B.insertBeforeExit_perm new) (fun B hB p hp => ?_) hnew holder
  rcases List.mem_append.1 hp with hp | hp
  · exact h.pending B hB p hp
  · rw [List.mem_singleton.1 hp]
    exact hcopy

theorem addEdge (h : Drawn e k d n) {edge : BlockId × BlockId} {base : String} {depth dest : Nat}
    (hdest : dest < e.blocks) : Drawn e k (d.addEdge edge base depth dest) n where
  code := by
    have hcode : (d.addEdge edge base depth dest).code = d.code ++ [.jump dest] := by
      rw [Draft.code, Draft.code, codeOf, codeOf, Draft.addEdge, List.flatMap_append]
      rfl
    rw [hcode]
    exact h.code.append (Scope.jump_emits hdest)
  pending B hB := by
    rcases List.mem_append.1 hB with hB | hB
    · exact h.pending B hB
    · rw [List.mem_singleton.1 hB]
      exact List.forall_mem_nil _
  length := by
    rw [Draft.addEdge, List.length_append]
    exact Nat.le_add_right_of_le h.length
  edges q hq := by
    rw [Draft.addEdge, List.length_append]
    rcases List.mem_cons.1 hq with rfl | hq
    · exact Nat.lt_succ_self _
    · exact Nat.lt_succ_of_lt (h.edges q hq)

end Drawn

namespace Scope

theorem copyHolder_drawn {pred succ : BlockId} {holder : Nat} (h : Drawn e k d n)
    (hblocks : e.scope.blocks.length ≤ e.blocks)
    (hcopy : e.scope.copyHolder d pred succ = .ok (holder, d')) : Drawn e k d' n := by
  rcases copyHolder_cases hcopy with rfl | ⟨base, depth, dest, -, hdest, rfl⟩
  · exact h
  · exact h.addEdge (Nat.lt_of_lt_of_le (blockNumber_lt hdest) hblocks)

theorem recordIncoming_yields {b : BlockId} {phi : ValueId} {dst : Reg} {operands : List ValueId}
    (hoperands : ∀ x ∈ operands, e.Covers x) (hblocks : e.scope.blocks.length ≤ e.blocks) :
    Yields e.regs k (e.scope.recordIncoming b phi dst d operands) fun d' c =>
      ∀ n, Drawn e k d n → e.regs.held.lookup phi = some dst → dst ≠ .virt k →
        Drawn e k d' (n + c) := by
  induction operands using List.twoStepInduction generalizing d with
  | nil => exact .pure fun n hd _ _ => hd
  | singleton => exact .halt
  | cons_cons value label rest ih _ =>
    obtain ⟨hvalue, hrest⟩ := List.forall_mem_cons.1 hoperands
    refine .lookup fun kind _ => ?_
    split
    · exact .halt
    · refine .lookup fun q hq => .bind (regOf_yields hvalue) fun r => ?_
      refine (ih (List.forall_mem_cons.1 hrest).2).mono ?_
      rintro d' c hd' c' ⟨hsrc, hcode⟩ n hd hdst hne
      have hjoins : Joins e k ⟨dst, r.1⟩ := ⟨⟨phi, hdst⟩, hsrc, hne⟩
      have hcopied := (copyHolder_drawn hd hblocks hq).addCopy hjoins hcode q.1
      rw [← Nat.add_assoc]
      exact hd' _ hcopied hdst hne

theorem recordEach_yields {phis : List (BlockId × ValueId)}
    (hphis : ∀ q ∈ phis, e.Offers q.2 ∧ e.regs.held.lookup q.2 ≠ some (.virt k))
    (hblocks : e.scope.blocks.length ≤ e.blocks) :
    Yields e.regs k (e.scope.recordEach d phis) fun d' c =>
      ∀ n, Drawn e k d n → Drawn e k d' (n + c) := by
  induction phis generalizing d with
  | nil => exact .pure fun n hd => hd
  | cons q rest ih =>
    obtain ⟨⟨hoffers, hne⟩, hrest⟩ := List.forall_mem_cons.1 hphis
    refine .bind valueReg_yields fun dst => .lookup fun operands hoperands => ?_
    have hcovers : ∀ x ∈ operands, e.Covers x := by
      rw [Realm.Offers, Module.operandsOf_of_operands hoperands] at hoffers
      exact hoffers
    refine .bind (recordIncoming_yields hcovers hblocks) fun d₁ => (ih hrest).mono ?_
    rintro d' c hd' c₁ hd₁ c₀ ⟨-, hheld⟩ n hd
    exact (hd' _ (hd₁ n hd hheld fun heq => hne (heq ▸ hheld))).mono (by omega)

/-- Every phi that was given a register is a phi of its block. -/
theorem reservePhis_mem {sc : Scope} {bs : List BlockId} {phis : List (BlockId × ValueId)}
    {s s' : Registers} (h : sc.reservePhis bs s = .ok (phis, s')) :
    ∀ q ∈ phis, q.1 ∈ bs ∧ q.2 ∈ sc.module.instsOf q.1 ∧
      sc.module.kindOf q.2 = some (.inst .phi) := by
  induction bs generalizing phis s s' with
  | nil =>
    obtain ⟨rfl, -⟩ := pure_ok.1 h
    exact List.forall_mem_nil _
  | cons b rest ih =>
    obtain ⟨found, hfound, h⟩ := lift_bind_ok.1 h
    obtain ⟨u, s₂, -, h⟩ := bind_ok.1 h
    obtain ⟨others, s₃, hothers, h⟩ := bind_ok.1 h
    obtain ⟨rfl, -⟩ := pure_ok.1 h
    intro q hq
    rcases List.mem_append.1 hq with hq | hq
    · obtain ⟨phi, hphi, rfl⟩ := List.mem_map.1 hq
      obtain ⟨insts, hinsts, hfilter⟩ := bind_eq_ok.1 hfound
      cases hfilter
      obtain ⟨hmem, hkind⟩ := List.mem_filter.1 hphi
      refine ⟨List.mem_cons_self, ?_, ?_⟩
      · rw [Module.instsOf, hinsts]
        exact hmem
      · cases hx : sc.module.values[phi.idx]? with
        | none => simp [hx] at hkind
        | some x =>
          simp only [hx, Option.any_some, decide_eq_true_eq] at hkind
          exact Module.kindOf_eq_some.2 ⟨x, hx, hkind⟩
    · obtain ⟨hb, hmem⟩ := ih hothers q hq
      exact ⟨List.mem_cons_of_mem _ hb, hmem⟩

theorem fillBlocks_yields {saves : Saves} {i : Nat} {bs : List BlockId}
    (hserves : ∀ b ∈ bs, ∀ v ∈ e.scope.module.instsOf b, Serves e v) (hroutes : Routes e d.edges) :
    Yields e.regs k (e.scope.fillBlocks saves d i bs) fun d' c => KnowsAll e saves →
      ∀ n, Drawn e k d n → Drawn e k d'
        (n + c + ownedBy e.regs k
          ((bs.flatMap e.scope.module.instsOf).filter (¬e.scope.module.Fused ·))) := by
  induction bs generalizing d i with
  | nil => exact .pure fun _ n hd => hd
  | cons b rest ih =>
    obtain ⟨hb, hrest⟩ := List.forall_mem_cons.1 hserves
    refine .lookup fun insts hinsts => ?_
    have hlist : e.scope.module.instsOf b = insts := by
      rw [Module.instsOf, hinsts]
      rfl
    rw [hlist] at hb
    refine .bind (lowerInsts_yields hb hroutes) fun code => ?_
    refine (ih (d := d.modifyBlock i fun x => { x with insts := x.insts ++ code }) hrest
      hroutes).mono ?_
    intro d' c hd' c' hcode hsaves n hd
    have hfilled := hd.modifyBlock (f := fun x => { x with insts := x.insts ++ code })
      (fun B _ => List.Perm.refl _) hd.pending (hcode hsaves) i
    refine (hd' hsaves _ hfilled).mono ?_
    rw [List.flatMap_cons, hlist, List.filter_append, ownedBy_append]
    omega

end Scope

/-! ## Copies in sequence -/

section Resolve

variable {s s' : Registers} {blocks blocks' : List Target.Block}

theorem writes_moves (k : Nat) (moves : List (Copy Reg)) :
    writes k (moves.map fun c => Inst.mv c.dst c.src) = (moves.map Copy.dst).count (.virt k) := by
  induction moves with
  | nil => rfl
  | cons c rest ih =>
    have hrest : writes k (rest.map fun c => Inst.mv c.dst c.src) = _ := ih
    rw [writes] at hrest ⊢
    rw [List.map_cons, List.map_cons, List.countP_cons, List.count_cons, hrest]
    simp [Inst.mv, Inst.onRegs]

/-- The registers of the moves of a block are those of its copies and temporaries. -/
theorem moves_knows {copies : List (Copy Reg)} {seq : Copies.Sequence Reg} {fresh : Nat → Reg}
    (hacc : Copies.Accounted fresh copies ⟨[], seq.moves, seq.temps⟩)
    (hcopies : ∀ c ∈ copies, e.regs.Knows c.dst ∧ e.regs.Knows c.src)
    (hfresh : ∀ j < seq.temps, e.regs.Knows (fresh j)) :
    ∀ c ∈ seq.moves, e.regs.Knows c.dst ∧ e.regs.Knows c.src := by
  intro c hc
  constructor
  · by_cases hmem : c.dst ∈ copies.map Copy.dst
    · obtain ⟨c', hc', heq⟩ := List.mem_map.1 hmem
      rw [← heq]
      exact (hcopies c' hc').1
    · have hfilter : c.dst ∈ (seq.moves.map Copy.dst).filter (· ∉ copies.map Copy.dst) :=
        List.mem_filter.2 ⟨List.mem_map_of_mem hc, decide_eq_true hmem⟩
      rw [hacc.temps] at hfilter
      obtain ⟨j, hj, heq⟩ := List.mem_map.1 hfilter
      rw [← heq]
      exact hfresh j (List.mem_range.1 hj)
  · rcases hacc.src c hc with hmem | ⟨j, hj, heq⟩
    · obtain ⟨c', hc', heq⟩ := List.mem_map.1 hmem
      rw [← heq]
      exact (hcopies c' hc').2
    · rw [heq]
      exact hfresh j hj

/-- A temporary is handed out once and belongs to no value. -/
theorem count_temps_le {S : Registers} {temps : Nat} (hs : s.Wf) (hheld : S.held = s.held)
    (hlen : s'.names.length = s.names.length + temps) :
    ((List.range temps).map fun j => Reg.virt (s.names.length + j)).count (.virt k) ≤
      handed S k s s' := by
  by_cases hmem : Reg.virt k ∈ (List.range temps).map fun j => Reg.virt (s.names.length + j)
  · obtain ⟨j, hj, heq⟩ := List.mem_map.1 hmem
    have hk := Reg.virt.inj heq
    have hlt := List.mem_range.1 hj
    have hfree : S.holds k = false := by
      rw [Bool.eq_false_iff]
      intro hholds
      obtain ⟨v, hv⟩ := holds_iff.1 hholds
      have hlt := (hs.virt (hheld ▸ hv)).knows k rfl
      omega
    rw [handed, if_pos ⟨hfree, by omega, by omega⟩]
    refine List.nodup_iff_count_le_one.1 (List.nodup_range.map ?_) _
    intro j j' heq
    have heq := Reg.virt.inj heq
    omega
  · rw [List.count_eq_zero_of_not_mem hmem]
    exact Nat.zero_le _

/-- The moves of a block read and write what its copies do and new registers, each of which is
written once. -/
theorem resolveBlock_emits {B B' : Target.Block} (hs : s.Wf)
    (h : Draft.resolveBlock B s = .ok (B', s')) (hS : Grows s' e.regs)
    (hheld : e.regs.held = s.held) (hpending : ∀ c ∈ B.pending, Joins e k c) :
    ∃ moves, List.Perm B'.insts (B.insts ++ moves) ∧
      Emits e k moves (handed e.regs k s s') := by
  obtain ⟨seq, hseq, rfl, rfl⟩ := resolveBlock_eq h
  have hhas : ∀ c ∈ B.pending, s.Has c.dst := by
    intro c hc
    obtain ⟨phi, hphi⟩ := (hpending c hc).dst
    exact hs.virt (hheld ▸ hphi)
  have hold : ∀ c ∈ B.pending, ∀ j, c.dst ≠ .virt (s.names.length + j) := by
    intro c hc j heq
    have hlt := (hhas c hc).knows _ heq
    omega
  have hacc := Copies.sequentialize_accounted hseq hold
  have hlen : (s.names ++ List.replicate seq.temps none).length = s.names.length + seq.temps := by
    rw [List.length_append, List.length_replicate]
  have hnew : ∀ j < seq.temps, e.regs.Knows (.virt (s.names.length + j)) := by
    rintro j hj _ ⟨⟩
    have hle := hS.length_le
    rw [hlen] at hle
    omega
  have hgrows := (Grows.replicate s seq.temps).trans hS
  have hknows := moves_knows hacc
    (fun c hc => ⟨hgrows.knows (hhas c hc).knows, (hpending c hc).src⟩) hnew
  refine ⟨seq.code, B.insertBeforeExit_perm seq.code, fun i hi r hr => ?_, fun i hi o ho => ?_, ?_⟩
  · obtain ⟨c, hc, rfl⟩ := List.mem_map.1 hi
    cases hr
    exact (hknows c hc).1
  · obtain ⟨c, hc, rfl⟩ := List.mem_map.1 hi
    rw [List.mem_singleton.1 ho]
    exact (hknows c hc).2
  · -- no copy writes the register, so what writes it are the temporaries
    have hkept : Reg.virt k ∉ B.pending.map Copy.dst := by
      intro hmem
      obtain ⟨c, hc, heq⟩ := List.mem_map.1 hmem
      exact (hpending c hc).ne heq
    rw [Copies.Sequence.code, writes_moves,
      ← List.count_filter (p := fun r => r ∉ B.pending.map Copy.dst) (decide_eq_true hkept),
      hacc.temps]
    exact count_temps_le hs hheld hlen

theorem mapM_resolveBlock_emits (hs : s.Wf)
    (h : blocks.mapM Draft.resolveBlock s = .ok (blocks', s')) (hS : Grows s' e.regs)
    (hheld : e.regs.held = s.held) (hpending : ∀ B ∈ blocks, ∀ c ∈ B.pending, Joins e k c) :
    ∃ moves, List.Perm (codeOf blocks') (codeOf blocks ++ moves) ∧
      Emits e k moves (handed e.regs k s s') := by
  induction blocks generalizing blocks' s with
  | nil =>
    rw [List.mapM_nil] at h
    obtain ⟨rfl, rfl⟩ := pure_ok.1 h
    exact ⟨[], List.Perm.refl _, .nil⟩
  | cons B rest ih =>
    rw [List.mapM_cons] at h
    obtain ⟨B', s₁, hB, h⟩ := bind_ok.1 h
    obtain ⟨rest', s₂, hrest, h⟩ := bind_ok.1 h
    obtain ⟨rfl, rfl⟩ := pure_ok.1 h
    obtain ⟨hpendingB, hpendingRest⟩ := List.forall_mem_cons.1 hpending
    have hg := (resolveBlock_ok hB).1
    have hg' := (mapM_resolveBlock_ok hrest).1
    have hheld₁ : s₁.held = s.held := by
      obtain ⟨seq, -, -, rfl⟩ := resolveBlock_eq hB
      rfl
    obtain ⟨moves, hperm, hmoves⟩ :=
      resolveBlock_emits hs hB (hg'.trans hS) hheld hpendingB
    obtain ⟨moves', hperm', hmoves'⟩ :=
      ih (hg.wf hs) hrest (hheld.trans hheld₁.symm) hpendingRest
    refine ⟨moves ++ moves', ?_, handed_add hg hg' ▸ hmoves.append hmoves'⟩
    show List.Perm (B'.insts ++ codeOf rest') (B.insts ++ codeOf rest ++ (moves ++ moves'))
    refine (hperm.append hperm').trans ?_
    simp only [List.append_assoc]
    refine List.Perm.append_left _ ?_
    rw [← List.append_assoc, ← List.append_assoc]
    exact List.perm_append_comm.append_right _

end Resolve

/-! ## Functions -/

namespace Scope

variable {s s' : Registers}

/-- To fill blocks with code changes no names. -/
theorem fillBlocks_names {sc : Scope} {saves : Saves} {i : Nat} {bs : List BlockId}
    (h : sc.fillBlocks saves d i bs s = .ok (d', s')) :
    d'.blocks.map (·.name) = d.blocks.map (·.name) := by
  induction bs generalizing d i s with
  | nil =>
    obtain ⟨rfl, -⟩ := pure_ok.1 h
    rfl
  | cons b rest ih =>
    obtain ⟨insts, s₁, -, h⟩ := bind_ok.1 h
    obtain ⟨code, s₂, -, h⟩ := bind_ok.1 h
    rw [ih h]
    exact map_name_modify (f := fun x => { x with insts := x.insts ++ code }) (fun _ => rfl) i

/-- The code of a function refers to what there is. It writes the virtual register `k`, unless that
is the register of a phi, no more often than it is handed out or than values have it that no branch
takes over. -/
theorem selectBlocks_emits_unfused {sc : Scope} {y : Func} {loops : LoopNest}
    {blocks : List Target.Block} {S : Registers} {G F : Set Nat}
    (h : sc.selectBlocks y loops {} = .ok (blocks, S))
    (hserves : ∀ b ∈ sc.blocks, ∀ v ∈ sc.module.instsOf b,
      Serves ⟨sc, S, blocks.length, G, F⟩ v)
    (hphis : ∀ b ∈ sc.blocks, ∀ v ∈ sc.module.instsOf b,
      sc.module.kindOf v = some (.inst .phi) → S.held.lookup v ≠ some (.virt k)) :
    Emits ⟨sc, S, blocks.length, G, F⟩ k (codeOf blocks)
      (handed S k {} S + ownedBy S k (y.params ++
        (sc.blocks.flatMap sc.module.instsOf).filter (¬sc.module.Fused ·))) := by
  obtain ⟨-, -, -, -, -, -, hcount, -⟩ := selectBlocks_wraps h
  obtain ⟨empty, saves, entry, s₀, d, s₂, d', s₃, hempty, hentry, hd, hd', hresolve⟩ :=
    selectBlocks_steps h
  obtain ⟨phis, s₁, hreserve, hd⟩ := bind_ok.1 hd
  obtain ⟨hheld, hnames, -⟩ := mapM_resolveBlock_same hresolve
  have hlength : blocks.length = d.blocks.length := by
    have hlen := congrArg List.length (hnames.trans (fillBlocks_names hd'))
    simpa only [List.length_map] using hlen
  generalize he : (⟨sc, S, blocks.length, G, F⟩ : Realm) = e at hserves ⊢
  have hblocks : e.scope.blocks.length ≤ e.blocks := he ▸ hcount
  obtain rfl : sc = e.scope := he ▸ rfl
  obtain rfl : S = e.regs := he ▸ rfl
  obtain ⟨hg₀, hprologue⟩ := prologue_yields (k := k) Wf.empty hentry
  obtain ⟨hg₁, -⟩ := reservePhis_keeps (hg₀.wf .empty).apart hreserve
  have hwf₁ := hg₁.wf (hg₀.wf .empty)
  have hphis' : ∀ q ∈ phis, e.Offers q.2 ∧ e.regs.held.lookup q.2 ≠ some (.virt k) := by
    intro q hq
    obtain ⟨hb, hv, hk⟩ := reservePhis_mem hreserve q hq
    exact ⟨(hserves q.1 hb q.2 hv).operands, hphis q.1 hb q.2 hv hk⟩
  obtain ⟨hg₂, hrecord⟩ := recordEach_yields hphis' hblocks hwf₁ hd
  have hwf₂ := hg₂.wf hwf₁
  have hg₃ := (fillBlocks_ok hwf₂ hd').1
  have hg₄ := (mapM_resolveBlock_ok hresolve).1
  obtain ⟨hsaves, hcode⟩ := hprologue (hg₁.trans (hg₂.trans (hg₃.trans hg₄)))
  -- the pieces, in the order in which they are put into the blocks
  obtain ⟨hlen, hblank⟩ := emptyBlocks_ok hempty
  have hrecorded := hrecord (hg₃.trans hg₄) _ (.entered hlen hblank hcode)
  have hroutes : Routes e d.edges := by
    refine ⟨hblocks, fun q hq => ?_⟩
    have hlt := hrecorded.edges q hq
    rw [← he]
    exact hlength ▸ hlt
  obtain ⟨-, hfill⟩ := fillBlocks_yields (k := k) hserves hroutes hwf₂ hd'
  have hfilled := hfill hg₄ hsaves _ hrecorded
  obtain ⟨moves, hperm, hmoves⟩ :=
    mapM_resolveBlock_emits (hg₃.wf hwf₂) hresolve .refl hheld hfilled.pending
  refine ((hfilled.code.append hmoves).subperm hperm.subperm).mono ?_
  have htotal : handed e.regs k {} e.regs = handed e.regs k {} s₀ + (handed e.regs k s₀ s₁ +
      (handed e.regs k s₁ s₂ + (handed e.regs k s₂ s₃ + handed e.regs k s₃ e.regs))) := by
    rw [handed_add hg₃ hg₄, handed_add hg₂ (hg₃.trans hg₄), handed_add hg₁ (hg₂.trans (hg₃.trans hg₄)),
      handed_add hg₀ (hg₁.trans (hg₂.trans (hg₃.trans hg₄)))]
  rw [htotal, ownedBy_append]
  omega

/-- The same with all values of the function, taken over or not. -/
theorem selectBlocks_emits {sc : Scope} {y : Func} {loops : LoopNest} {blocks : List Target.Block}
    {S : Registers} {G F : Set Nat} (h : sc.selectBlocks y loops {} = .ok (blocks, S))
    (hserves : ∀ b ∈ sc.blocks, ∀ v ∈ sc.module.instsOf b,
      Serves ⟨sc, S, blocks.length, G, F⟩ v)
    (hphis : ∀ b ∈ sc.blocks, ∀ v ∈ sc.module.instsOf b,
      sc.module.kindOf v = some (.inst .phi) → S.held.lookup v ≠ some (.virt k)) :
    Emits ⟨sc, S, blocks.length, G, F⟩ k (codeOf blocks)
      (handed S k {} S + ownedBy S k (y.params ++ sc.blocks.flatMap sc.module.instsOf)) :=
  (selectBlocks_emits_unfused h hserves hphis).mono <| Nat.add_le_add_left
    (List.Sublist.countP_le (List.filter_sublist.append_left _)) _

/-- Different values are in different registers in the end. -/
theorem selectBlocks_wf {sc : Scope} {y : Func} {loops : LoopNest} {blocks : List Target.Block}
    {S : Registers} (h : sc.selectBlocks y loops {} = .ok (blocks, S)) : S.Wf := by
  obtain ⟨saves, entry, s₀, edges, hentry, hg, -, -⟩ := selectBlocks_wraps h
  have hg₀ := (prologue_keeps (Set.notMem_empty _) Wf.empty.apart hentry).1
  exact (hg₀.trans hg).wf .empty

/-- What the code of a function refers to. -/
theorem selectBlocks_admits {sc : Scope} {y : Func} {loops : LoopNest}
    {blocks : List Target.Block} {S : Registers} {G F : Set Nat}
    (h : sc.selectBlocks y loops {} = .ok (blocks, S))
    (hserves : ∀ b ∈ sc.blocks, ∀ v ∈ sc.module.instsOf b,
      Serves ⟨sc, S, blocks.length, G, F⟩ v) :
    ∀ i ∈ codeOf blocks, (∀ r, i.dst = some r → S.Knows r) ∧
      ∀ o ∈ i.srcs, Realm.Admits ⟨sc, S, blocks.length, G, F⟩ i.op o := by
  have hwf := selectBlocks_wf h
  -- nothing is in a register that was never handed out, so no phi is
  have hemits := selectBlocks_emits (k := S.names.length) h hserves
    fun b hb v hv _ hheld => Nat.lt_irrefl _ ((hwf.virt hheld).knows _ rfl)
  exact fun i hi => ⟨hemits.dst i hi, hemits.srcs i hi⟩

/-! ## Names of blocks -/

/-- The names of the blocks of a draft. -/
abbrev names (d : Draft) : List String := d.blocks.map (·.name)

/-- Blocks were added with names of their own. -/
structure Extends (d d' : Draft) : Prop where
  names : names d <+: names d'
  nodup : (Scope.names d).Nodup → (Scope.names d').Nodup

theorem Extends.refl (d : Draft) : Extends d d := ⟨List.prefix_rfl, id⟩

theorem Extends.trans {d₁ : Draft} (h : Extends d d₁) (h' : Extends d₁ d') : Extends d d' :=
  ⟨h.names.trans h'.names, fun hd => h'.nodup (h.nodup hd)⟩

theorem extends_modifyBlock {f : Target.Block → Target.Block} (hf : ∀ B, (f B).name = B.name)
    (i : Nat) : Extends d (d.modifyBlock i f) := by
  have hnames : names (d.modifyBlock i f) = names d := map_name_modify hf i
  exact ⟨hnames ▸ List.prefix_rfl, fun hd => hnames ▸ hd⟩

theorem extends_addCopy {holder : Nat} {copy : Copy Reg} {new : Code} :
    Extends d (d.addCopy holder copy new) := extends_modifyBlock
  (f := fun B => { B.insertBeforeExit new with pending := B.pending ++ [copy] }) (fun _ => rfl) holder

theorem extends_addEdge {edge : BlockId × BlockId} {base : String} {depth dest : Nat} :
    Extends d (d.addEdge edge base depth dest) := by
  have hnames : names (d.addEdge edge base depth dest) =
      names d ++ [freeName (names d) base] := by
    rw [names, Draft.addEdge, List.map_append]
    rfl
  refine ⟨hnames ▸ List.prefix_append _ _, fun hd => ?_⟩
  rw [hnames]
  exact List.nodup_append.2 ⟨hd, List.nodup_singleton _, fun name hname name' hname' heq =>
    freeName_notMem (names d) base (List.mem_singleton.1 hname' ▸ heq ▸ hname)⟩

theorem copyHolder_extends {sc : Scope} {pred succ : BlockId} {holder : Nat}
    (h : sc.copyHolder d pred succ = .ok (holder, d')) : Extends d d' := by
  rcases copyHolder_cases h with rfl | ⟨base, depth, dest, -, -, rfl⟩
  · exact .refl _
  · exact extends_addEdge

section Names

variable {sc : Scope}

theorem recordIncoming_extends {b : BlockId} {phi : ValueId} {dst : Reg}
    {operands : List ValueId} : Keeps ∅ (sc.recordIncoming b phi dst d operands) (Extends d) := by
  induction operands using List.twoStepInduction generalizing d with
  | nil => exact .pure (.refl d)
  | singleton => exact .halt
  | cons_cons value label rest ih _ =>
    refine .lookup fun kind => ?_
    split
    · exact .halt
    · refine .bind (.lift fun q hq => copyHolder_extends hq) fun q hq => ?_
      refine .bind regOf_keeps fun r _ => ih.mono fun d' hd' => ?_
      exact (hq.trans extends_addCopy).trans hd'

theorem recordEach_extends {phis : List (BlockId × ValueId)} :
    Keeps ∅ (sc.recordEach d phis) (Extends d) := by
  induction phis generalizing d with
  | nil => exact .pure (.refl d)
  | cons q rest ih =>
    refine .bind valueReg_keeps fun dst _ => .lookup fun operands => ?_
    exact .bind recordIncoming_extends fun d₁ hd₁ => ih.mono fun d' hd' => hd₁.trans hd'

theorem emptyBlocks_names {loops : LoopNest} {blocks : List Target.Block}
    (h : sc.emptyBlocks loops = .ok blocks) :
    blocks.map (·.name) = sc.blocks.map (sc.module.blockField Block.name "") := by
  rw [emptyBlocks] at h
  generalize sc.blocks = bs at h ⊢
  induction bs generalizing blocks with
  | nil =>
    rw [List.mapM_nil] at h
    cases h
    rfl
  | cons b rest ih =>
    rw [List.mapM_cons] at h
    obtain ⟨B, hB, h⟩ := bind_eq_ok.1 h
    obtain ⟨x, hx, hB⟩ := bind_eq_ok.1 hB
    cases hB
    obtain ⟨others, hothers, h⟩ := bind_eq_ok.1 h
    cases h
    rw [List.map_cons, List.map_cons, ih hothers, Module.blockField_eq (Module.block_eq_ok.1 hx)]

/-- The blocks of the function keep their names, and if these differ, so do the names of all
blocks. -/
theorem selectBlocks_names {y : Func} {loops : LoopNest} {blocks : List Target.Block}
    {S : Registers} (h : sc.selectBlocks y loops {} = .ok (blocks, S)) :
    sc.blocks.map (sc.module.blockField Block.name "") <+: blocks.map (·.name) ∧
      ((sc.blocks.map (sc.module.blockField Block.name "")).Nodup →
        (blocks.map (·.name)).Nodup) := by
  obtain ⟨empty, saves, entry, s₀, d, s₂, d', s₃, hempty, hentry, hd, hd', h⟩ := selectBlocks_steps h
  obtain ⟨phis, s₁, hreserve, hd⟩ := bind_ok.1 hd
  have hg₀ := (prologue_keeps (Set.notMem_empty _) Wf.empty.apart hentry).1
  have hg₁ := (reservePhis_keeps (hg₀.wf .empty).apart hreserve).1
  have hrecorded := (recordEach_extends (hg₁.wf (hg₀.wf .empty)).apart hd).2
  have hentered : Extends { blocks := empty } _ :=
    extends_modifyBlock (f := fun B => { B with insts := entry }) (fun _ => rfl) 0
  have hextends := hentered.trans hrecorded
  rw [(mapM_resolveBlock_same h).2.1, fillBlocks_names hd', ← emptyBlocks_names hempty]
  exact ⟨hextends.names, hextends.nodup⟩

end Names

end Scope

end SsaCodegen
