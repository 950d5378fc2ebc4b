import Mathlib.Algebra.BigOperators.Group.List.Basic
import SsaCodegen.Proofs.Module.Sequences
import SsaCodegen.Proofs.Select.Arguments
import SsaCodegen.Proofs.Select.Drafts
import SsaCodegen.Proofs.Select.Encodable

/-!
# Selected functions are well formed

A function that was selected from a program that the verifier accepts is code that later stages can
take as it is. Each block ends in a jump, a return, or a conditional branch and a jump, and passes on
no control before. Everything that an instruction refers to is there and is what the program refers
to. A virtual register has one instruction that writes it, unless it is the register of a phi.

## Main definitions

* `Target.Closes` — what a block ends with
* `Module.Sound` — a function of a program is well formed

## Main results

* `Scope.lowerInsts_seals` — the code of a block that ends in its only terminator
* `Scope.selectBlocks_seals` — what the blocks of a function end with
* `Module.select_sound` — every function of a selected program is well formed
-/

namespace SsaCodegen

open Target SelectM Registers

/-! ## What blocks end with -/

/-- The operations that pass control on under a condition. -/
def Target.Opcode.isBranch : Opcode → Bool
  | bnez | beq | bne | blt | bgt | bge | ble => true
  | _ => false

/-- What a block ends with: a jump, a return, or a conditional branch and a jump. -/
inductive Target.Closes : List Inst → Prop where
  | jump (n : Nat) : Closes [.jump n]
  | ret : Closes [⟨.ret, none, []⟩]
  | branch {i : Inst} (n : Nat) : i.op.isBranch = true → Closes [i, .jump n]

theorem Target.Closes.control {exit : List Inst} (h : Closes exit) :
    ∀ i ∈ exit, i.op.isControl = true := by
  cases h with
  | jump | ret =>
    intro i hi
    rw [List.mem_singleton.1 hi]
    rfl
  | @branch i n hi =>
    refine List.forall_mem_cons.2 ⟨?_, List.forall_mem_singleton.2 rfl⟩
    revert hi
    cases i.op <;> simp [Opcode.isBranch, Opcode.isControl]

/-- The registers that an instruction writes and reads. -/
def Target.Inst.regs (i : Inst) : List Reg :=
  i.dst.toList ++ i.srcs.filterMap fun o => match o with
    | .reg r => some r
    | .mem a => some a.base
    | _ => none

/-- The global variable that an operand refers to. -/
def Target.Operand.global? : Operand → Option Nat
  | .global g | .globalHi g | .globalLo g | .mem ⟨_, .globalLo g⟩ => some g
  | _ => none

theorem Realm.Admits.knows {e : Realm} {i : Inst} (hdst : ∀ r, i.dst = some r → e.regs.Knows r)
    (hsrcs : ∀ o ∈ i.srcs, e.Admits i.op o) : ∀ r ∈ i.regs, e.regs.Knows r := by
  intro r hr
  rcases List.mem_append.1 hr with hr | hr
  · exact hdst r (Option.mem_toList.1 hr)
  · obtain ⟨o, ho, hreg⟩ := List.mem_filterMap.1 hr
    have hadmits := hsrcs o ho
    cases o with
    | reg r' =>
      cases hreg
      exact hadmits
    | mem a =>
      obtain ⟨base, disp⟩ := a
      cases hreg
      cases disp <;> exact hadmits.1
    | imm | block | func | global | globalHi | globalLo => cases hreg

theorem Realm.Admits.global {e : Realm} {op : Opcode} {o : Operand} {n : Nat}
    (h : e.Admits op o) (hg : o.global? = some n) : n ∈ e.globals := by
  cases o with
  | global | globalHi | globalLo =>
    cases hg
    exact h
  | mem a =>
    obtain ⟨base, disp⟩ := a
    cases disp with
    | globalLo g =>
      cases hg
      exact h.2
    | imm d => cases hg
  | reg | imm | block | func => cases hg

/-- A run of instructions that pass on no control, and then what a block ends with. -/
def Sealed (code : Code) : Prop :=
  ∃ run exit, code = run ++ exit ∧ Straight run ∧ Closes exit

theorem Sealed.append_left {code code' : Code} (h : Sealed code') (hcode : Straight code) :
    Sealed (code ++ code') := by
  obtain ⟨run, exit, rfl, hrun, hexit⟩ := h
  exact ⟨code ++ run, exit, (List.append_assoc ..).symm, hcode.append hrun, hexit⟩

namespace Scope

variable {sc : Scope} {v : ValueId} {saves : Saves} {edges : EdgeBlocks} {b : BlockId}

theorem lowerTest_seals {cond : ValueId} {dest : Nat} :
    Keeps ∅ (sc.lowerTest v cond dest) fun code =>
      ∃ run i, code = run ++ [i] ∧ Straight run ∧ i.op.isBranch = true := by
  refine .lookup fun fused => ?_
  split
  · rename_i op
    refine .lookup fun a => .bind regOf_keeps fun l hl => .lookup fun b => ?_
    refine .bind regOf_keeps fun r hr => .pure ⟨_, _, rfl, (hl.append hr).straight, ?_⟩
    cases op <;> rfl
  · exact .bind regOf_keeps fun q hq => .pure ⟨_, _, rfl, hq.straight, rfl⟩

theorem lowerBr_seals : Keeps ∅ (sc.lowerBr edges b v) Sealed := by
  refine .lookup fun operands => ?_
  split
  · exact .bind branchTarget_keeps fun n _ => .pure ⟨[], _, rfl, List.forall_mem_nil _, .jump n⟩
  · refine .bind branchTarget_keeps fun n _ => .bind branchTarget_keeps fun n' _ => ?_
    refine .bind lowerTest_seals fun code hcode => .pure ?_
    obtain ⟨run, i, rfl, hrun, hi⟩ := hcode
    exact ⟨run, [i, .jump n'], List.append_assoc .., hrun, .branch n' hi⟩
  · exact .halt

/-- The code of an instruction that is no terminator passes on no control. -/
theorem lowerInst_straight {k : InstKind} (hk : sc.module.kindOf v = some (.inst k))
    (hterm : k.isTerminator = false) : Keeps ∅ (sc.lowerInst saves edges b v) Straight := by
  refine .bind (.lift fun kind hkind => Module.kindOf_of_instKind hkind) fun kind hkind => ?_
  obtain ⟨kind, hkind, rfl⟩ := hkind
  cases hk.symm.trans hkind
  have hcalm {x : SelectM Code} (h : Keeps ∅ x (Calm ∅)) : Keeps ∅ x Straight :=
    h.mono fun code hcode => hcode.straight
  cases k with
  | phi => exact .pure (List.forall_mem_nil _)
  | sext | cast => exact hcalm lowerMove_keeps
  | br | ret => cases hterm
  | gep => exact hcalm lowerGep_keeps
  | load => exact hcalm lowerLoad_keeps
  | store => exact hcalm lowerStore_keeps
  | call callee =>
    refine (lowerCall_keeps fun _ _ => Set.notMem_empty _).mono ?_
    rintro code ⟨setup, rest, rfl, hsetup, hrest⟩
    exact hsetup.straight.append (List.forall_mem_cons.2 ⟨rfl, hrest.straight⟩)
  | alloca => exact hcalm lowerAlloca_keeps
  | binary => exact hcalm lowerBinary_keeps
  | compare =>
    refine .lookup fun fused => ?_
    split
    · exact .pure (List.forall_mem_nil _)
    · exact hcalm lowerCompare_keeps

theorem lowerInsts_straight {vs : List ValueId}
    (hvs : ∀ v ∈ vs, ∃ k, sc.module.kindOf v = some (.inst k) ∧ k.isTerminator = false) :
    Keeps ∅ (sc.lowerInsts saves edges b vs) Straight := by
  induction vs with
  | nil => exact .pure (List.forall_mem_nil _)
  | cons v rest ih =>
    obtain ⟨⟨k, hk, hterm⟩, hrest⟩ := List.forall_mem_cons.1 hvs
    refine .bind (lowerInst_straight hk hterm) fun code hcode => ?_
    exact .bind (ih hrest) fun code' hcode' => .pure (hcode.append hcode')

theorem lowerInst_seals {k : InstKind} (hk : sc.module.kindOf v = some (.inst k))
    (hterm : k.isTerminator = true) : Keeps ∅ (sc.lowerInst saves edges b v) Sealed := by
  refine .bind (.lift fun kind hkind => Module.kindOf_of_instKind hkind) fun kind hkind => ?_
  obtain ⟨kind, hkind, rfl⟩ := hkind
  cases hk.symm.trans hkind
  cases k with
  | br => exact lowerBr_seals
  | ret =>
    refine lowerReturn_keeps.mono ?_
    rintro code ⟨calm, rfl, hcalm⟩
    exact ⟨calm, _, rfl, hcalm.straight, .ret⟩
  | phi | sext | cast | gep | load | store | call | alloca | binary | compare => cases hterm

/-- The last of some instructions is a terminator and no other is. -/
structure Terminated (m : Module) (init : List ValueId) (last : ValueId) : Prop where
  init : ∀ v ∈ init, ∃ k, m.kindOf v = some (.inst k) ∧ k.isTerminator = false
  last : ∃ k, m.kindOf last = some (.inst k) ∧ k.isTerminator = true

/-- The code of a block closes it. -/
theorem lowerInsts_seals {init : List ValueId} {last : ValueId}
    (h : Terminated sc.module init last) :
    Keeps ∅ (sc.lowerInsts saves edges b (init ++ [last])) Sealed := by
  obtain ⟨hinit, k, hk, hterm⟩ := h
  intro s s' code hs h
  obtain ⟨front, back, s₁, hfront, hback, rfl⟩ := lowerInsts_concat h
  obtain ⟨hg, hstraight⟩ := lowerInsts_straight hinit hs hfront
  obtain ⟨hg', hsealed⟩ := lowerInst_seals hk hterm (hs.grows hg) hback
  exact ⟨hg.trans hg', hsealed.append_left hstraight⟩

/-- A block that is sealed stays sealed when its copies are put in sequence. -/
theorem resolveBlock_seals {s s' : Registers} {B B' : Target.Block}
    (h : Draft.resolveBlock B s = .ok (B', s')) (hB : Sealed B.insts) : Sealed B'.insts := by
  obtain ⟨seq, -, rfl, -⟩ := resolveBlock_eq h
  obtain ⟨run, exit, hinsts, hrun, hexit⟩ := hB
  refine ⟨run ++ seq.code, exit, ?_, hrun.append seq.straight_code, hexit⟩
  show (B.insertBeforeExit seq.code).insts = _
  rw [B.insertBeforeExit_eq hinsts hrun hexit.control]

/-- No block has copies left that are to be put in sequence. -/
theorem selectBlocks_pending {y : Func} {loops : LoopNest} {blocks : List Target.Block}
    {S : Registers} (h : sc.selectBlocks y loops {} = .ok (blocks, S)) :
    ∀ B ∈ blocks, B.pending = [] := by
  obtain ⟨empty, saves, entry, s₀, d, s₁, d', s₂, -, -, -, -, hresolve⟩ := selectBlocks_steps h
  exact (mapM_resolveBlock_same hresolve).2.2

/-- Every block of a function whose blocks end in their only terminators is sealed. -/
theorem selectBlocks_seals {y : Func} {loops : LoopNest} {blocks : List Target.Block}
    {S : Registers} (h : sc.selectBlocks y loops {} = .ok (blocks, S))
    (hlists : ∀ b ∈ sc.blocks, ∀ insts, sc.module.insts b = .ok insts →
      ∃ init last, insts = init ++ [last] ∧ Terminated sc.module init last) :
    ∀ B ∈ blocks, Sealed B.insts := by
  obtain ⟨empty, saves, entry, s₀, d, s₁, d', s₂, hempty, hentry, hd, hd', hresolve⟩ :=
    selectBlocks_steps h
  obtain ⟨hlen, hblank⟩ := emptyBlocks_ok hempty
  obtain ⟨hg₀, hcalm⟩ := prologue_keeps (Set.notMem_empty _) Wf.empty.apart hentry
  have hs₀ := (hg₀.wf .empty).apart
  obtain ⟨hg₁, hsketch⟩ := recordPhis_sketch hcalm.straight (.entered hlen hblank) hs₀ hd
  have hfilled : ∀ B ∈ d'.blocks, Sealed B.insts := by
    intro B hB
    obtain ⟨n, hn⟩ := List.getElem?_of_mem hB
    obtain ⟨-, fill, code, hfill, hinsts, hcode⟩ := fillBlocks_codeAt hsketch (hs₀.grows hg₁) hd' hn
    rw [hinsts, ← List.append_assoc]
    refine Sealed.append_left ?_ ((hcalm.straight.first n).append hfill.straight)
    -- a block of the function has its terminator, a block on an edge has a jump
    rw [CodeAt] at hcode
    split at hcode
    · rename_i b hb
      obtain ⟨insts, r, r', hlist, hr, -, hlower⟩ := hcode
      obtain ⟨init, last, rfl, hterm⟩ := hlists b (List.mem_of_getElem? hb) insts hlist
      exact (lowerInsts_seals hterm hr hlower).2
    · obtain ⟨k, rfl⟩ := hcode
      exact ⟨[], _, rfl, List.forall_mem_nil _, .jump k⟩
  intro B' hB'
  obtain ⟨n, hn⟩ := List.getElem?_of_mem hB'
  have hlt : n < d'.blocks.length := by
    have hlen' := congrArg List.length (mapM_resolveBlock_same hresolve).2.1
    rw [List.length_map, List.length_map] at hlen'
    exact hlen' ▸ (List.getElem?_eq_some_iff.1 hn).1
  obtain ⟨B'', r, r', hB'', -, -, hblock⟩ :=
    (mapM_resolveBlock_ok hresolve).2 (List.getElem?_eq_getElem hlt)
  cases hn.symm.trans hB''
  exact resolveBlock_seals hblock (hfilled _ (List.getElem_mem hlt))

/-- The blocks of a function call what its instructions do. -/
theorem selectBlocks_callees {y : Func} {loops : LoopNest}
    {blocks : List Target.Block} {S : Registers}
    (h : sc.selectBlocks y loops {} = .ok (blocks, S)) {n : Nat} {b : BlockId} {B : Target.Block}
    (hb : sc.blocks[n]? = some b) (hB : blocks[n]? = some B) :
    callees B.insts = sc.module.callees (sc.module.instsOf b) := by
  obtain ⟨saves, entry, s₀, edges, hentry, -, -, hwraps⟩ := selectBlocks_wraps h
  obtain ⟨hg, hcalm⟩ := prologue_keeps (Set.notMem_empty _) Wf.empty.apart hentry
  obtain ⟨code, hcode, hwrap⟩ := hwraps ∅ (hg.wf .empty).apart hB
  rw [CodeAt, hb] at hcode
  obtain ⟨insts, r, r', hlist, hr, -, hlower⟩ := hcode
  have hnone : callees (if n = 0 then entry else []) = [] := by
    split
    · exact callees_eq_nil fun i hi => (hcalm i hi).2.1
    · rfl
  rw [hwrap.callees, hnone, List.nil_append, (lowerInsts_callees hr hlower).2,
    Module.instsOf, hlist]
  rfl

end Scope

/-! ## Registers that are written once -/

section Owned

variable {S : Registers} {k : Nat} {vs : List ValueId}

theorem ownedBy_eq_zero (h : ∀ v ∈ vs, S.held.lookup v ≠ some (.virt k)) :
    ownedBy S k vs = 0 := by
  refine List.countP_eq_zero.2 fun v hv hheld => ?_
  exact h v hv (of_decide_eq_true hheld)

/-- At most one of different values has the register. -/
theorem ownedBy_le_one (hS : S.Wf) (hvs : vs.Nodup) : ownedBy S k vs ≤ 1 := by
  induction vs with
  | nil => exact Nat.zero_le _
  | cons v rest ih =>
    obtain ⟨hv, hrest⟩ := List.nodup_cons.1 hvs
    by_cases hheld : S.held.lookup v = some (.virt k)
    · have hzero : ownedBy S k rest = 0 := by
        refine ownedBy_eq_zero fun w hw hheld' => hv ?_
        rw [hS.inj hheld hheld']
        exact hw
      rw [ownedBy_cons, hzero, owned, if_pos hheld]
    · rw [ownedBy_cons, owned, if_neg hheld, Nat.zero_add]
      exact ih hrest

/-- A register is handed out without a value, or it belongs to one value. -/
theorem handed_add_ownedBy_le_one (s : Registers) (hS : S.Wf) (hvs : vs.Nodup) :
    handed S k s S + ownedBy S k vs ≤ 1 := by
  cases hholds : S.holds k with
  | true =>
    have hzero : handed S k s S = 0 := by simp [handed, hholds]
    rw [hzero, Nat.zero_add]
    exact ownedBy_le_one hS hvs
  | false =>
    have hzero : ownedBy S k vs = 0 := by
      refine ownedBy_eq_zero fun v _ hheld => ?_
      rw [Bool.eq_false_iff] at hholds
      exact hholds (holds_iff.2 ⟨v, hheld⟩)
    rw [hzero]
    exact handed_le_one

end Owned

/-! ## Functions and global variables of a program -/

namespace Module

variable {m : Module} {t : Target.Spec} {prog : Target.Program} {lists : BlockId → List ValueId}

/-- The parameters and the instructions of a function are all different. -/
theorem WellFormed.values_nodup (hm : m.WellFormed lists) {f : FuncId} {y : Func}
    (hy : m.funcs[f.idx]? = some y) : (y.params ++ y.blocks.flatMap m.instsOf).Nodup := by
  have heq := hm.threads.instsOf_eq
  refine List.nodup_append.2 ⟨hm.owned.params_nodup hy, List.nodup_flatMap.2 ⟨?_, ?_⟩, ?_⟩
  · intro b _
    rw [heq]
    exact hm.threads.nodup b
  · refine (hm.owned.nodup hy).imp fun {b c} hne v hv hv' => hne ?_
    rw [heq] at hv hv'
    exact Option.some.inj ((hm.threads.block_of_mem hv).symm.trans (hm.threads.block_of_mem hv'))
  · rintro v hv w hw rfl
    obtain ⟨i, hi⟩ := List.getElem?_of_mem hv
    obtain ⟨b, -, hb⟩ := List.mem_flatMap.1 hw
    rw [heq] at hb
    obtain ⟨k, hk⟩ := hm.threads.inst hb
    cases hk.symm.trans (hm.owned.param hy hi)

theorem Laid.terminated {f : FuncId} {phis body : List ValueId} {term : ValueId}
    (h : m.Laid f phis body term) : Scope.Terminated m (phis ++ body) term := by
  refine ⟨fun v hv => ?_, h.isTerm⟩
  rcases List.mem_append.1 hv with hv | hv
  · exact ⟨.phi, h.isPhi hv, rfl⟩
  · obtain ⟨k, hk, -, hterm⟩ := h.isBody hv
    exact ⟨k, hk, hterm⟩

/-- A block of a function ends in its only terminator. -/
theorem WellFormed.terminated (hm : m.WellFormed lists) {f : FuncId} {y : Func}
    (hy : m.funcs[f.idx]? = some y) {b : BlockId} (hb : b ∈ y.blocks) {insts : List ValueId}
    (hinsts : m.insts b = .ok insts) :
    ∃ init last, insts = init ++ [last] ∧ Scope.Terminated m init last := by
  obtain ⟨phis, body, term, hlist, hlaid⟩ := hm.laid (hm.owned.mem.2 ⟨y, hy, hb⟩)
  refine ⟨phis ++ body, term, ?_, hlaid.terminated⟩
  have heq : m.instsOf b = insts := by
    rw [instsOf, hinsts]
    rfl
  rw [← heq, hm.threads.instsOf_eq, hlist]

/-- A function counts the virtual registers that were handed out for it. -/
theorem selection_vregNames {f : FuncId} {F : Target.Func} {S : Registers}
    (h : m.selection t f = .ok (F, S)) : F.vregNames = S.names := by
  obtain ⟨y, -, h⟩ := Stop.bind_ok.1 h
  obtain ⟨frame, -, h⟩ := Stop.bind_ok.1 h
  obtain ⟨loops, -, h⟩ := Stop.bind_ok.1 h
  obtain ⟨⟨blocks, regs⟩, -, h⟩ := Stop.bind_ok.1 h
  cases h
  rfl

/-- A function of a program has the name of the one it stands for, and its code unless it is
external. -/
theorem select_function (h : m.select t = .ok prog) {n : Nat} {F : Target.Func}
    (hF : prog.functions[n]? = some F) :
    ∃ y, m.funcs[n]? = some y ∧ F.name = y.name ∧
      (F.isExternal = false → m.selectFunc t ⟨n⟩ = .ok F) := by
  have heach := select_each h
  have hlt : n < m.funcIds.length := heach.length_eq ▸ (List.getElem?_eq_some_iff.1 hF).1
  have hid : m.funcIds[n] = ⟨n⟩ := by simp [funcIds]
  obtain ⟨F', hF', y, hy, hcases⟩ := forall₂_getElem? heach (List.getElem?_eq_getElem hlt)
  cases hF.symm.trans hF'
  rw [hid] at hy hcases
  refine ⟨y, hy, ?_⟩
  rcases hcases with ⟨-, rfl⟩ | ⟨-, hsel⟩
  · exact ⟨rfl, fun hext => Bool.noConfusion hext⟩
  · obtain ⟨y', frame, loops, blocks, regs, hy', -, -, rfl⟩ := selectFunc_parts hsel
    cases hy.symm.trans hy'
    exact ⟨rfl, fun _ => hsel⟩

/-- Every function has one of its name in its place in the program. -/
theorem exists_function (h : m.select t = .ok prog) {n : Nat} (hn : n < m.funcs.size) :
    ∃ y F, m.funcs[n]? = some y ∧ prog.functions[n]? = some F ∧ F.name = y.name := by
  have hlt : n < prog.functions.length := by
    rw [← (select_each h).length_eq]
    simpa [funcIds] using hn
  have hF := List.getElem?_eq_getElem hlt
  obtain ⟨y, hy, hname, -⟩ := select_function h hF
  exact ⟨y, _, hy, hF, hname⟩

/-- Every global variable has one of its name in its place in the program. -/
theorem exists_global (h : m.select t = .ok prog) {n : Nat} (hn : n < m.globals.size) :
    ∃ g G, m.globals[n]? = some g ∧ prog.globals[n]? = some G ∧ G.name = g.name := by
  obtain ⟨globals, hlift, h⟩ := Stop.bind_ok.1 h
  obtain ⟨functions, -, h⟩ := Stop.bind_ok.1 h
  cases h
  have hg := Array.getElem?_eq_getElem hn
  have hg' : m.globals.toList[n]? = some m.globals[n] := by
    rw [Array.getElem?_toList]
    exact hg
  obtain ⟨G, hG, hsel⟩ := forall₂_getElem? (mapM_eq_ok.1 (Stop.lift_ok.1 hlift)) hg'
  refine ⟨_, G, hg, hG, ?_⟩
  unfold selectGlobal at hsel
  dsimp only at hsel
  split at hsel
  all_goals
    obtain ⟨size, -, hsel⟩ := bind_eq_ok.1 hsel
    cases hsel
    rfl

/-- An instruction of a function, or a comparison that a branch of the function takes over. -/
def Involves (m : Module) (f : FuncId) (u : ValueId) : Prop :=
  ∃ b ∈ m.blocksOf f, u ∈ m.instsOf b ∨ ∃ v ∈ m.instsOf b, m.TakesOver v u

/-- A function of a program, selected with the registers `S` for its values, is well formed. -/
structure Sound (m : Module) (prog : Target.Program) (f : FuncId) (F : Target.Func)
    (S : Registers) : Prop where
  sealed : ∀ B ∈ F.blocks, Sealed B.insts
  pending : ∀ B ∈ F.blocks, B.pending = []
  block : ∀ i ∈ codeOf F.blocks, ∀ n, .block n ∈ i.srcs → n < F.blocks.length
  /-- A function that code refers to is one that an instruction calls, and has its name. -/
  func : ∀ i ∈ codeOf F.blocks, ∀ n, .func n ∈ i.srcs → ∃ b v callee y F', b ∈ m.blocksOf f ∧
    v ∈ m.instsOf b ∧ m.kindOf v = some (.inst (.call callee)) ∧ callee.idx = n ∧
    m.funcs[n]? = some y ∧ prog.functions[n]? = some F' ∧ F'.name = y.name
  /-- Each block calls what the instructions of the block that it stands for do, in order. -/
  calls : ∀ (n : Nat) b (B : Target.Block), (m.blocksOf f)[n]? = some b → F.blocks[n]? = some B →
    SsaCodegen.callees B.insts = m.callees (m.instsOf b)
  /-- A global variable that code refers to is an operand of an instruction, and has its name. -/
  global : ∀ i ∈ codeOf F.blocks, ∀ o ∈ i.srcs, ∀ n, o.global? = some n → ∃ u x g G,
    m.Involves f u ∧ x ∈ m.operandsOf u ∧ m.kindOf x = some (.global ⟨n⟩) ∧
    m.globals[n]? = some g ∧ prog.globals[n]? = some G ∧ G.name = g.name
  reg : ∀ i ∈ codeOf F.blocks, ∀ k, .virt k ∈ i.regs → k < F.vregNames.length
  /-- A register that is not that of a phi is written by one instruction at most. -/
  once : ∀ k, (∀ b ∈ m.blocksOf f, ∀ v ∈ m.instsOf b, m.kindOf v = some (.inst .phi) →
    S.held.lookup v ≠ some (.virt k)) → writes k (codeOf F.blocks) ≤ 1
  names : ((m.blocksOf f).map (m.blockField Block.name "")).Nodup →
    (F.blocks.map (·.name)).Nodup

/-- What the code of a function may refer to: what its instructions do. -/
def realm (sc : Scope) (f : FuncId) (S : Registers) (blocks : Nat) : Realm where
  scope := sc
  regs := S
  blocks := blocks
  globals := { n | n < sc.module.globals.size ∧ ∃ u x, sc.module.Involves f u ∧
    x ∈ sc.module.operandsOf u ∧ sc.module.kindOf x = some (.global ⟨n⟩) }
  funcs := { n | n < sc.module.funcs.size ∧ ∃ b ∈ sc.module.blocksOf f, ∃ v ∈ sc.module.instsOf b,
    ∃ callee, sc.module.kindOf v = some (.inst (.call callee)) ∧ callee.idx = n }

theorem realm_serves (sc : Scope) {f : FuncId} {S : Registers} {blocks : Nat} {b : BlockId}
    {v : ValueId} (hb : b ∈ sc.module.blocksOf f) (hv : v ∈ sc.module.instsOf b) :
    Scope.Serves (realm sc f S blocks) v where
  operands x hx _ hg hlt := ⟨hlt, v, x, ⟨b, hb, .inl hv⟩, hx, hg⟩
  tested cond hcond x hx _ hg hlt := ⟨hlt, cond, x, ⟨b, hb, .inr ⟨v, hv, hcond⟩⟩, hx, hg⟩
  callee callee hk hlt := ⟨hlt, b, hb, v, hv, callee, hk, rfl⟩

/-- Every function with a body that is selected from a program that the verifier accepts is well
formed. -/
theorem select_sound (hbuilt : m.Built) (hverify : m.verify = .ok none)
    (h : m.select t = .ok prog) {n : Nat} {F : Target.Func} (hF : prog.functions[n]? = some F)
    (hext : F.isExternal = false) :
    ∃ S, m.selection t ⟨n⟩ = .ok (F, S) ∧ m.Sound prog ⟨n⟩ F S := by
  obtain ⟨lists, hm⟩ := hbuilt.wellFormed hverify
  obtain ⟨-, -, -, hfunc⟩ := select_function h hF
  obtain ⟨S, hS⟩ := selection_of_selectFunc (hfunc hext)
  refine ⟨S, hS, ?_⟩
  obtain ⟨y, frame, loops, hy, -, hblocks⟩ := selection_ok hS
  have hblocksOf : m.blocksOf ⟨n⟩ = y.blocks := blocksOf_of_func hy
  have hserves : ∀ b ∈ y.blocks, ∀ v ∈ m.instsOf b,
      Scope.Serves (realm ⟨m, t, frame, y.blocks⟩ ⟨n⟩ S F.blocks.length) v := fun b hb v hv =>
    realm_serves ⟨m, t, frame, y.blocks⟩ (hblocksOf ▸ hb) hv
  have hadmits := Scope.selectBlocks_admits hblocks hserves
  refine ⟨?sealed, Scope.selectBlocks_pending hblocks, fun i hi k hk => (hadmits i hi).2 _ hk,
    ?func, ?calls, ?global, ?reg, ?once, ?names⟩
  case sealed => exact Scope.selectBlocks_seals hblocks fun b hb insts => hm.terminated hy hb
  case func =>
    intro i hi k hk
    obtain ⟨hlt, b, hb, v, hv, callee, hkind, hidx⟩ := (hadmits i hi).2 _ hk
    obtain ⟨y', F', hy', hF', hname⟩ := exists_function h hlt
    exact ⟨b, v, callee, y', F', hb, hv, hkind, hidx, hy', hF', hname⟩
  case calls =>
    intro k b B hb hB
    rw [hblocksOf] at hb
    exact Scope.selectBlocks_callees hblocks hb hB
  case global =>
    intro i hi o ho k hk
    obtain ⟨hlt, u, x, hu, hx, hkind⟩ := ((hadmits i hi).2 o ho).global hk
    obtain ⟨g, G, hg, hG, hname⟩ := exists_global h hlt
    exact ⟨u, x, g, G, hu, hx, hkind, hg, hG, hname⟩
  case reg =>
    intro i hi k hk
    rw [selection_vregNames hS]
    obtain ⟨hdst, hsrcs⟩ := hadmits i hi
    exact Realm.Admits.knows hdst hsrcs _ hk k rfl
  case once =>
    intro k hphis
    rw [hblocksOf] at hphis
    have hemits := Scope.selectBlocks_emits hblocks hserves hphis
    have hwf := Scope.selectBlocks_wf hblocks
    exact hemits.bound.trans (handed_add_ownedBy_le_one {} hwf (hm.values_nodup hy))
  case names =>
    rw [hblocksOf]
    exact (Scope.selectBlocks_names hblocks).2

/-- Calls that build a function with a loop of one block. The loop makes a call and exchanges two
phis each time around, and the block after it has the name that the block on the edge around the
loop would get. -/
def ferryActions : List Action := [
  .addFunction "ext" .i32 [("x", .i32)], .addFunction "f" .i32 [("n", .i32)],
  .addBlock ⟨1⟩ "entry", .addBlock ⟨1⟩ "loop", .addBlock ⟨1⟩ "loop.loop",
  .addGlobal "g" .i32 none,
  .build ⟨0⟩ (.load ⟨5⟩), .build ⟨0⟩ (.br ⟨1⟩),
  .build ⟨1⟩ (.phi .i32), .build ⟨1⟩ (.phi .i32), .build ⟨1⟩ (.call ⟨0⟩ [⟨8⟩]),
  .build ⟨1⟩ (.compare .slt ⟨10⟩ ⟨1⟩), .build ⟨1⟩ (.condBr ⟨11⟩ ⟨1⟩ ⟨2⟩),
  .build ⟨2⟩ (.store ⟨9⟩ ⟨5⟩), .build ⟨2⟩ (.ret (some ⟨8⟩)),
  .build ⟨1⟩ (.addIncoming ⟨8⟩ ⟨1⟩ ⟨0⟩), .build ⟨1⟩ (.addIncoming ⟨8⟩ ⟨9⟩ ⟨1⟩),
  .build ⟨1⟩ (.addIncoming ⟨9⟩ ⟨6⟩ ⟨0⟩), .build ⟨1⟩ (.addIncoming ⟨9⟩ ⟨8⟩ ⟨1⟩)]

/-- The module that `ferryActions` build. -/
def ferryModule : Module := (ferryActions.foldlM Action.run {}).toOption.getD {}

/-- The block on the edge takes another name. It has three copies for the exchange of the phis, and
two of the registers that they write belong to phis. -/
theorem select_sound_ferry :
    ferryModule.Built ∧ ferryModule.verify = .ok none ∧ ∃ prog F S,
      ferryModule.select riscv32 = .ok prog ∧ prog.functions[1]? = some F ∧ F.isExternal = false ∧
      F.blocks.map (·.name) = ["entry", "loop", "loop.loop", "loop.loop.1"] ∧
      F.blocks.map (fun B => B.insts.length) = [19, 5, 17, 4] ∧
      ferryModule.selection riscv32 ⟨1⟩ = .ok (F, S) ∧ ferryModule.Sound prog ⟨1⟩ F S := by
  have hbuilt : ferryModule.Built := ⟨ferryActions, rfl⟩
  have hverify : ferryModule.verify = .ok none := by decide +kernel
  have hcode : (ferryModule.codeOf? 1).map (fun F => (F.isExternal, F.blocks.map (·.name),
      F.blocks.map fun B => B.insts.length)) =
        some (false, ["entry", "loop", "loop.loop", "loop.loop.1"], [19, 5, 17, 4]) := by
    decide +kernel
  obtain ⟨F, hF, heq⟩ := Option.map_eq_some_iff.1 hcode
  obtain ⟨hext, heq⟩ := Prod.mk.inj heq
  obtain ⟨hnames, hlengths⟩ := Prod.mk.inj heq
  obtain ⟨prog, hselect, hplace⟩ := exists_of_codeOf? hF
  obtain ⟨S, hS, hsound⟩ := select_sound hbuilt hverify hselect hplace hext
  exact ⟨hbuilt, hverify, prog, F, S, hselect, hplace, hext, hnames, hlengths, hS, hsound⟩

end Module

end SsaCodegen
