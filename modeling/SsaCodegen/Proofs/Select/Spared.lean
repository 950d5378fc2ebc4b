import Mathlib.Data.Set.Basic
import SsaCodegen.Proofs.Select.Body

/-!
# What code writes and what it calls

Selection writes to registers that it hands out itself and to argument registers, and to no others
but at the boundaries of a function. So a set of registers that hold no value and are not handed out
again keeps its contents, whatever else the code that is selected does, and whether or not that code
has a meaning. The only calls in the code of an instruction are the ones that it stands for.

## Main definitions

* `Calm` — code passes on no control, makes no call and writes no register of a set
* `Spares` — code neither calls nor returns and writes no register of a set
* `callees` — the functions that code calls
* `Registers.Apart` — the registers of a set hold no value and are not handed out again
* `SelectM.Keeps` — what holds of the results of a computation, from registers apart from a set

## Main results

* `Calm.exec` — what calm code leaves as it is
* `Scope.lowerCall_keeps`, `Scope.lowerInst_keeps` — what the code of an instruction writes
* `Scope.lowerInsts_callees` — what the code of a block calls
-/

namespace SsaCodegen

open Target SelectM Registers

variable {K : Set Reg}

/-! ## Code -/

/-- An instruction passes on no control, makes no call and writes no register of a set. -/
def Target.Inst.Calm (K : Set Reg) (i : Inst) : Prop :=
  i.op.isControl = false ∧ i.op ≠ .call ∧ ∀ r, i.dst = some r → r ∉ K

/-- An instruction neither calls nor returns and writes no register of a set. -/
def Target.Inst.Spares (K : Set Reg) (i : Inst) : Prop :=
  i.op ≠ .call ∧ i.op ≠ .ret ∧ ∀ r, i.dst = some r → r ∉ K

/-- Every instruction of some code is calm. -/
abbrev Calm (K : Set Reg) (code : Code) : Prop := ∀ i ∈ code, i.Calm K

/-- Every instruction of some code spares a set of registers. -/
abbrev Spares (K : Set Reg) (code : Code) : Prop := ∀ i ∈ code, i.Spares K

theorem Calm.straight {code : Code} (h : Calm K code) : Straight code := fun i hi => (h i hi).1

theorem Calm.spares {code : Code} (h : Calm K code) : Spares K code := by
  intro i hi
  obtain ⟨hop, hcall, hdst⟩ := h i hi
  refine ⟨hcall, fun hret => ?_, hdst⟩
  rw [hret] at hop
  cases hop

theorem Calm.append {code code' : Code} (h : Calm K code) (h' : Calm K code') :
    Calm K (code ++ code') := by
  intro i hi
  exact (List.mem_append.1 hi).elim (h i) (h' i)

theorem Spares.append {code code' : Code} (h : Spares K code) (h' : Spares K code') :
    Spares K (code ++ code') := by
  intro i hi
  exact (List.mem_append.1 hi).elim (h i) (h' i)

/-- An instruction that writes a register outside the set comes first. -/
theorem Calm.cons {op : Opcode} {dst : Reg} {srcs : List Operand} {code : Code}
    (hop : op.isControl = false) (hcall : op ≠ .call) (hdst : dst ∉ K) (h : Calm K code) :
    Calm K (⟨op, some dst, srcs⟩ :: code) := by
  refine List.forall_mem_cons.2 ⟨⟨hop, hcall, ?_⟩, h⟩
  rintro r ⟨⟩
  exact hdst

theorem Calm.single {op : Opcode} {dst : Reg} {srcs : List Operand} (hop : op.isControl = false)
    (hcall : op ≠ .call) (hdst : dst ∉ K) : Calm K [⟨op, some dst, srcs⟩] :=
  .cons hop hcall hdst nofun

theorem Calm.mv {dst src : Reg} (hdst : dst ∉ K) : Calm K [.mv dst src] :=
  .single rfl nofun hdst

theorem Calm.store {op : Opcode} {srcs : List Operand} (hop : op.isControl = false)
    (hcall : op ≠ .call) : Calm K [⟨op, none, srcs⟩] := by
  intro i hi
  obtain rfl := List.mem_singleton.1 hi
  exact ⟨hop, hcall, nofun⟩

/-- One instruction that writes no register. -/
theorem Spares.single {op : Opcode} {srcs : List Operand} (hcall : op ≠ .call) (hret : op ≠ .ret) :
    Spares K [⟨op, none, srcs⟩] := by
  intro i hi
  obtain rfl := List.mem_singleton.1 hi
  exact ⟨hcall, hret, nofun⟩

/-- Calm code gets stuck, or comes to its end with the registers of the set as they were. -/
theorem Calm.exec {code : Code} (h : Calm K code) (p : Platform) (st : State) (rest : Code) :
    (exec p (code ++ rest) st).1 = .stuck ∨
      ∃ st', exec p (code ++ rest) st = exec p rest st' ∧ ∀ r ∈ K, st'.get r = st.get r := by
  induction code generalizing st with
  | nil => exact .inr ⟨st, rfl, fun _ _ => rfl⟩
  | cons i code ih =>
    obtain ⟨⟨hop, hcall, hdst⟩, hcode⟩ := List.forall_mem_cons.1 h
    have heffect := i.step_effect p st
    rw [List.cons_append, Target.exec]
    cases hstep : i.step p st with
    | next st₁ =>
      rcases ih hcode st₁ with hstuck | ⟨st', hexec, hget⟩
      · exact .inl hstuck
      · refine .inr ⟨st', hexec, fun r hr => (hget r hr).trans ?_⟩
        exact Inst.step_get hstep (fun heq => hdst r heq hr) fun hop => absurd hop hcall
    | stuck => exact .inl rfl
    | goto b | fall | ret =>
      rw [hstep] at heffect
      cases heffect
      simp_all [Opcode.isControl]

/-- The function that an instruction calls. -/
def Target.Inst.callee? (i : Inst) : Option Nat :=
  match i.op, i.srcs with
  | .call, [.func f] => some f
  | _, _ => none

/-- The functions that some code calls, in order. -/
def callees (code : Code) : List Nat := code.filterMap Inst.callee?

theorem callees_cons (i : Inst) (code : Code) :
    callees (i :: code) = i.callee?.toList ++ callees code := by
  rw [callees, List.filterMap_cons]
  cases i.callee? <;> rfl

theorem callees_append (code code' : Code) :
    callees (code ++ code') = callees code ++ callees code' := List.filterMap_append

theorem callees_eq_nil {code : Code} (h : ∀ i ∈ code, i.op ≠ .call) : callees code = [] := by
  refine List.filterMap_eq_nil_iff.2 fun i hi => ?_
  rw [Inst.callee?]
  split
  · exact absurd (by assumption) (h i hi)
  · rfl

namespace Module

/-- The function that an instruction calls. -/
def callee? (m : Module) (v : ValueId) : Option Nat :=
  match m.kindOf v with
  | some (.inst (.call f)) => some f.idx
  | _ => none

theorem callee?_eq_none {m : Module} {v : ValueId}
    (h : ∀ callee, m.kindOf v ≠ some (.inst (.call callee))) : m.callee? v = none := by
  rw [callee?]
  split
  · exact absurd (by assumption) (h _)
  · rfl

/-- The functions that some instructions call, in order. -/
def callees (m : Module) (insts : List ValueId) : List Nat := insts.filterMap m.callee?

end Module

/-! ## Handing out registers -/

/-- The registers of a set hold no value and are not handed out again. -/
structure Registers.Apart (K : Set Reg) (s : Registers) : Prop where
  wf : s.Wf
  knows : ∀ r ∈ K, s.Knows r
  held : ∀ {v r}, s.held.lookup v = some r → r ∉ K

theorem Registers.Apart.grows {s s' : Registers} (h : s.Apart K) (hg : Grows s s') :
    s'.Apart K where
  wf := hg.wf h.wf
  knows r hr := hg.knows (h.knows r hr)
  held hv hr := by
    rcases hg.lookup_inv hv with hv | ⟨k, rfl, hle⟩
    · exact h.held hv hr
    · have hlt := h.knows _ hr k rfl
      omega

theorem Registers.Wf.apart {s : Registers} (h : s.Wf) : s.Apart ∅ := ⟨h, nofun, fun _ => nofun⟩

theorem Registers.Apart.virt_notMem {s : Registers} (h : s.Apart K) {k : Nat}
    (hk : s.names.length ≤ k) : Reg.virt k ∉ K := by
  intro hr
  have hlt := h.knows _ hr k rfl
  omega

namespace SelectM

/-- From registers that are apart from a set a computation only adds some, and its result has a
property. -/
def Keeps (K : Set Reg) (x : SelectM α) (P : α → Prop) : Prop :=
  ∀ ⦃s s' a⦄, s.Apart K → x s = .ok (a, s') → Grows s s' ∧ P a

namespace Keeps

variable {x : SelectM α} {f : α → SelectM β} {P P' : α → Prop} {Q : β → Prop}

theorem bind (hx : Keeps K x P) (hf : ∀ a, P a → Keeps K (f a) Q) : Keeps K (x >>= f) Q := by
  intro s s' b hs h
  obtain ⟨a, s₁, ha, hb⟩ := bind_ok.1 h
  obtain ⟨hg, hP⟩ := hx hs ha
  obtain ⟨hg', hQ⟩ := hf a hP (hs.grows hg) hb
  exact ⟨hg.trans hg', hQ⟩

theorem pure {a : α} (h : P a) : Keeps K (Pure.pure a) P := by
  intro s s' b hs h
  obtain ⟨rfl, rfl⟩ := pure_ok.1 h
  exact ⟨.refl, by assumption⟩

theorem mono (hx : Keeps K x P) (h : ∀ a, P a → P' a) : Keeps K x P' := by
  intro s s' a hs ha
  obtain ⟨hg, hP⟩ := hx hs ha
  exact ⟨hg, h a hP⟩

theorem lift {e : Except Fault α} (h : ∀ a, e = .ok a → P a) : Keeps K (liftM e) P := by
  intro s s' a hs ha
  obtain ⟨he, rfl⟩ := lift_ok.1 ha
  exact ⟨.refl, h a he⟩

/-- Something is looked up first. -/
theorem lookup {e : Except Fault α} (hf : ∀ a, Keeps K (f a) Q) : Keeps K (liftM e >>= f) Q :=
  .bind (.lift fun _ _ => trivial) fun a _ => hf a

theorem refuse {e : SelectError} : Keeps K (SelectM.refuse e) P := fun _ _ _ _ h =>
  absurd h refuse_ne_ok

theorem halt {e : Fault} : Keeps K (SelectM.halt e) P := fun _ _ _ _ h => absurd h halt_ne_ok

theorem newReg {name : Option String} : Keeps K (SelectM.newReg name) (· ∉ K) := by
  intro s s' r hs h
  obtain ⟨rfl, rfl⟩ := newReg_ok.1 h
  exact ⟨.fresh name .refl, hs.virt_notMem (Nat.le_refl _)⟩

theorem forM {l : List α} {f : α → SelectM PUnit} (hf : ∀ a, Keeps K (f a) fun _ => True) :
    Keeps K (l.forM f) fun _ => True := by
  induction l with
  | nil => exact .pure trivial
  | cons a rest ih => exact .bind (hf a) fun _ _ => ih

theorem mapM {l : List α} {R : α → β → Prop} (hf : ∀ a ∈ l, Keeps K (f a) (R a)) :
    Keeps K (l.mapM f) (List.Forall₂ R l) := by
  induction l with
  | nil =>
    rw [List.mapM_nil]
    exact .pure .nil
  | cons a rest ih =>
    obtain ⟨ha, hrest⟩ := List.forall_mem_cons.1 hf
    rw [List.mapM_cons]
    exact .bind ha fun b hb => .bind (ih hrest) fun bs hbs => .pure (.cons hb hbs)

end Keeps

end SelectM

/-! ## Numbers -/

namespace Target.Spec

variable {t : Spec}

theorem loadImmInto_keeps {dst : Reg} {n : Int64} (hdst : dst ∉ K) :
    Keeps K (t.loadImmInto dst n) (Calm K) := by
  unfold loadImmInto
  dsimp only
  split
  · exact .pure (.single rfl nofun hdst)
  · refine .bind .newReg fun upper hupper => .pure ?_
    exact .cons rfl nofun hupper (.single rfl nofun hdst)

theorem loadImm_keeps {n : Int64} : Keeps K (t.loadImm n) fun q => Calm K q.2 := by
  refine .bind .newReg fun dst hdst => .bind (loadImmInto_keeps hdst) fun code hcode => ?_
  exact .pure hcode

theorem addOffset_keeps {dst base : Reg} {n : Int64} (hdst : dst ∉ K) :
    Keeps K (t.addOffset dst base n) (Calm K) := by
  unfold addOffset
  split
  · exact .pure (.mv hdst)
  · split
    · exact .pure (.single rfl nofun hdst)
    · refine .bind loadImm_keeps fun q hcode => .pure ?_
      exact hcode.append (.single rfl nofun hdst)

theorem adjustStack_keeps {n : Int64} (hsp : .phys t.stackPointer ∉ K) :
    Keeps K (t.adjustStack n) (Calm K) := by
  unfold adjustStack
  dsimp only
  split
  · exact .pure (.single rfl nofun hsp)
  · refine .bind loadImm_keeps fun q hcode => .pure ?_
    exact hcode.append (.single rfl nofun hsp)

theorem stackSlot_keeps {n : Int64} : Keeps K (t.stackSlot n) fun q => Calm K q.2 := by
  unfold stackSlot
  dsimp only
  split
  · exact .pure nofun
  · refine .bind .newReg fun base hbase => .bind (addOffset_keeps hbase) fun code hcode => ?_
    exact .pure hcode

end Target.Spec

namespace Scope

variable {sc : Scope} {v : ValueId}

/-! ## Operands -/

theorem valueReg_keeps : Keeps K (sc.valueReg v) (· ∉ K) := by
  intro s s' r hs h
  obtain ⟨hg, hheld⟩ := valueReg_ok h
  exact ⟨hg, (hs.grows hg).held hheld⟩

theorem globalAddr_keeps {g : Nat} : Keeps K (globalAddr g) fun q => Calm K q.2 := by
  refine .bind .newReg fun hi hhi => .bind .newReg fun addr haddr => .pure ?_
  exact .cons rfl nofun hhi (.single rfl nofun haddr)

theorem regOf_keeps {user : ValueId} : Keeps K (sc.regOf user v) fun q => Calm K q.2 := by
  refine .lookup fun kind => ?_
  cases kind with
  | global g => exact .lookup fun n => globalAddr_keeps
  | const c =>
    dsimp only
    split
    · exact Target.Spec.loadImm_keeps
    · exact .refuse
  | param | inst => exact .bind valueReg_keeps fun r _ => .pure nofun
  | block b => exact .lookup fun n => .refuse

theorem operandPair_keeps : Keeps K (sc.operandPair v) fun q => Calm K q.2.2 := by
  refine .lookup fun a => .bind regOf_keeps fun l hl => .lookup fun b => ?_
  exact .bind regOf_keeps fun r hr => .pure (hl.append hr)

theorem address_keeps {ptr : ValueId} : Keeps K (sc.address v ptr) fun q => Calm K q.2 := by
  refine .lookup fun kind => ?_
  split
  · refine .lookup fun n => .bind .newReg fun hi hhi => .pure ?_
    exact .single rfl nofun hhi
  · exact .bind regOf_keeps fun q hcode => .pure hcode

/-! ## Instructions that neither call nor pass on control -/

theorem loadOp_calm {size : Nat} : Keeps K (loadOp v size) fun op =>
    op.isControl = false ∧ op ≠ .call := by
  intro s s' op hs h
  obtain ⟨hsize, rfl⟩ := loadOp_ok h
  refine ⟨.refl, Opcode.isControl_of_loadSize hsize, ?_⟩
  rintro rfl
  cases hsize

theorem storeOp_calm {size : Nat} : Keeps K (storeOp v size) fun op =>
    op.isControl = false ∧ op ≠ .call := by
  intro s s' op hs h
  obtain ⟨hsize, rfl⟩ := storeOp_ok h
  exact ⟨.refl, Opcode.isControl_of_storeSize hsize⟩

theorem pointee_keeps {ptr : ValueId} : Keeps K (sc.pointee v ptr) fun _ => True := by
  refine .lookup fun ty => ?_
  split
  · exact .pure trivial
  · exact .refuse

theorem lowerBinary_keeps {op : BinOp} : Keeps K (sc.lowerBinary v op) (Calm K) := by
  refine .bind operandPair_keeps fun q hcode => .bind valueReg_keeps fun dst hdst => .pure ?_
  refine hcode.append (.single ?_ ?_ hdst)
  · cases op <;> rfl
  · cases op <;> decide

theorem lowerCompare_keeps {op : CmpOp} : Keeps K (sc.lowerCompare v op) (Calm K) := by
  refine .bind operandPair_keeps fun q hcode => .bind valueReg_keeps fun dst hdst => ?_
  have hplain : ∀ o : CmpOp, o.opcodes.1.isControl = false ∧ o.opcodes.1 ≠ .call ∧
      ∀ finish ∈ o.opcodes.2, finish.isControl = false ∧ finish ≠ .call := by
    rintro ⟨⟩ <;> decide
  obtain ⟨hcontrol, hcall, hfinish⟩ := hplain op
  dsimp only
  split
  · rename_i first heq
    rw [heq] at hcontrol hcall
    exact .pure (hcode.append (.single hcontrol hcall hdst))
  · rename_i first finish heq
    rw [heq] at hcontrol hcall hfinish
    obtain ⟨hcontrol', hcall'⟩ := hfinish finish rfl
    refine .bind .newReg fun tmp htmp => .pure ?_
    exact hcode.append (.cons hcontrol hcall htmp (.single hcontrol' hcall' hdst))

theorem lowerMove_keeps : Keeps K (sc.lowerMove v) (Calm K) := by
  refine .lookup fun o => .bind regOf_keeps fun q hcode => .bind valueReg_keeps fun dst hdst => ?_
  exact .pure (hcode.append (.mv hdst))

theorem lowerAlloca_keeps : Keeps K (sc.lowerAlloca v) (Calm K) := by
  unfold lowerAlloca
  split
  · exact .halt
  · exact .bind valueReg_keeps fun dst hdst => Target.Spec.addOffset_keeps hdst

theorem lowerLoad_keeps : Keeps K (sc.lowerLoad v) (Calm K) := by
  refine .lookup fun ptr => .bind pointee_keeps fun ty _ => .bind loadOp_calm fun op hop => ?_
  refine .bind address_keeps fun q hcode => .bind valueReg_keeps fun dst hdst => .pure ?_
  exact hcode.append (.single hop.1 hop.2 hdst)

theorem lowerStore_keeps : Keeps K (sc.lowerStore v) (Calm K) := by
  refine .lookup fun value => .lookup fun ptr => .bind pointee_keeps fun ty _ => ?_
  refine .bind storeOp_calm fun op hop => .bind regOf_keeps fun q hvalue => ?_
  refine .bind address_keeps fun a hcode => .pure ((hvalue.append hcode).append ?_)
  exact .store hop.1 hop.2

theorem fieldOffset_keeps {ty : Ty} {index : ValueId} :
    Keeps K (sc.fieldOffset v ty index) fun _ => True := by
  unfold fieldOffset
  split
  · exact .refuse
  · refine .lookup fun kind => ?_
    split
    · exact .refuse
    · split
      · exact .refuse
      · exact .pure trivial

theorem lowerElement_keeps {index : ValueId} {ty : Ty} {dst base : Reg} (hdst : dst ∉ K) :
    Keeps K (sc.lowerElement v index ty dst base) (Calm K) := by
  refine .lookup fun kind => ?_
  split
  · exact Target.Spec.addOffset_keeps hdst
  · refine .bind regOf_keeps fun q hindex => .bind Target.Spec.loadImm_keeps fun r hscale => ?_
    refine .bind .newReg fun offset hoffset => .pure ((hindex.append hscale).append ?_)
    exact .cons rfl nofun hoffset (.single rfl nofun hdst)

theorem lowerGep_keeps {needsZero : Bool} : Keeps K (sc.lowerGep v needsZero) (Calm K) := by
  refine .lookup fun base => .lookup fun index => .bind pointee_keeps fun ty _ => ?_
  refine .bind regOf_keeps fun q hcode => .bind valueReg_keeps fun dst hdst => ?_
  split
  · refine .bind (P := Calm K) ?_ fun c hc => .pure (hcode.append hc)
    exact .bind fieldOffset_keeps fun n _ => Target.Spec.addOffset_keeps hdst
  · exact .bind (lowerElement_keeps hdst) fun c hc => .pure (hcode.append hc)

/-! ## Branches -/

theorem branchTarget_keeps {edges : EdgeBlocks} {pred : BlockId} {label : ValueId} :
    Keeps K (sc.branchTarget edges pred v label) fun _ => True := by
  refine .lookup fun kind => ?_
  split
  · exact .halt
  · exact .lookup fun n => .pure trivial

theorem lowerTest_keeps {cond : ValueId} {dest : Nat} :
    Keeps K (sc.lowerTest v cond dest) (Spares K) := by
  refine .lookup fun fused => ?_
  split
  · rename_i op
    refine .lookup fun a => .bind regOf_keeps fun l hl => .lookup fun b => ?_
    refine .bind regOf_keeps fun r hr => .pure ((hl.append hr).spares.append (.single ?_ ?_))
    · cases op <;> decide
    · cases op <;> decide
  · exact .bind regOf_keeps fun q hcode => .pure (hcode.spares.append (.single nofun nofun))

theorem lowerBr_keeps {edges : EdgeBlocks} {pred : BlockId} :
    Keeps K (sc.lowerBr edges pred v) (Spares K) := by
  refine .lookup fun operands => ?_
  split
  · exact .bind branchTarget_keeps fun n _ => .pure (.single nofun nofun)
  · refine .bind branchTarget_keeps fun n _ => .bind branchTarget_keeps fun n' _ => ?_
    exact .bind lowerTest_keeps fun code hcode => .pure (hcode.append (.single nofun nofun))
  · exact .halt

/-! ## Arguments and parameters -/

theorem argRegs_keeps {args : List ValueId} : Keeps K (sc.argRegs v args) fun q => Calm K q.2 := by
  induction args with
  | nil => exact .pure nofun
  | cons arg rest ih =>
    refine .bind regOf_keeps fun q hcode => .bind ih fun r hrest => .pure ?_
    exact hcode.append hrest

theorem passStackArg_keeps {arg : ValueId} {src : Reg} {index : Nat} :
    Keeps K (sc.passStackArg v arg src index) (Calm K) := by
  refine .lookup fun ty => .bind storeOp_calm fun op hop => .lookup fun offset => ?_
  refine .bind Target.Spec.stackSlot_keeps fun q hcode => .pure (hcode.append ?_)
  exact .store hop.1 hop.2

theorem takeStackParam_keeps {dst : Reg} {index : Nat} (hdst : dst ∉ K) :
    Keeps K (sc.takeStackParam v dst index) (Calm K) := by
  refine .lookup fun ty => .bind loadOp_calm fun op hop => .lookup fun offset => ?_
  refine .bind Target.Spec.stackSlot_keeps fun q hcode => .pure (hcode.append ?_)
  exact .single hop.1 hop.2 hdst

theorem takeParams_keeps {index : Nat} {params : List ValueId} :
    Keeps K (sc.takeParams index params) (Calm K) := by
  induction params generalizing index with
  | nil => exact .pure nofun
  | cons param rest ih =>
    refine .bind valueReg_keeps fun dst hdst => ?_
    dsimp only
    split
    · refine .bind (.pure (Calm.mv hdst)) fun code hcode => .bind ih fun c hc => ?_
      exact .pure (hcode.append hc)
    · refine .bind (takeStackParam_keeps hdst) fun code hcode => .bind ih fun c hc => ?_
      exact .pure (hcode.append hc)

section Calls

variable (hparams : ∀ r ∈ sc.target.paramRegs, .phys r ∉ K)
include hparams

theorem passArgs_keeps {index : Nat} {regs : List (ValueId × Reg)} :
    Keeps K (sc.passArgs v index regs) (Calm K) := by
  induction regs generalizing index with
  | nil => exact .pure nofun
  | cons q rest ih =>
    unfold passArgs
    dsimp only
    split
    · rename_i r hr
      have hmv : Calm K [.mv (.phys r) q.2] := .mv (hparams r (List.mem_of_getElem? hr))
      exact .bind (.pure hmv) fun code hcode => .bind ih fun c hc => .pure (hcode.append hc)
    · refine .bind passStackArg_keeps fun code hcode => .bind ih fun c hc => ?_
      exact .pure (hcode.append hc)

/-- The code of a call: the arguments are passed, and the result is taken if there is one. -/
theorem lowerCall_keeps {callee : FuncId} : Keeps K (sc.lowerCall v callee) fun code =>
    ∃ setup rest, code = setup ++ ⟨.call, none, [.func callee.idx]⟩ :: rest ∧ Calm K setup ∧
      Calm K rest := by
  unfold lowerCall
  dsimp only
  split
  · exact .bind (P := fun _ => False) .refuse fun _ h => h.elim
  · refine .lookup fun x => .bind argRegs_keeps fun q hargs => ?_
    refine .bind (passArgs_keeps hparams) fun pass hpass => ?_
    have hsetup := hargs.append hpass
    split
    · exact .pure ⟨_, [], rfl, hsetup, nofun⟩
    · refine .bind valueReg_keeps fun dst hdst => .pure ?_
      exact ⟨_, _, List.append_assoc .., hsetup, .mv hdst⟩

end Calls

/-! ## Entry and return -/

theorem saveEach_keeps {regs : List PhysReg} : Keeps K (saveEach regs) fun q => Calm K q.2 := by
  induction regs with
  | nil => exact .pure nofun
  | cons r rest ih =>
    refine .bind .newReg fun copy hcopy => .bind ih fun q hq => .pure ?_
    exact (Calm.mv hcopy).append hq

theorem prologue_keeps {params : List ValueId} (hsp : .phys sc.target.stackPointer ∉ K) :
    Keeps K (sc.prologue params) fun q => Calm K q.2 := by
  unfold prologue
  dsimp only
  split
  all_goals
    refine .bind (P := Calm K) ?_ fun room hroom => .bind saveEach_keeps fun q hq =>
      .bind takeParams_keeps fun code hcode => .pure ((hroom.append hq).append hcode)
  · exact Target.Spec.adjustStack_keeps hsp
  · exact .pure (List.forall_mem_nil _)

/-- The code of a return is calm up to its end, except that it puts registers back. -/
theorem lowerReturn_keeps {saves : Saves} :
    Keeps ∅ (sc.lowerReturn saves v) fun code => ∃ calm, code = calm ++ [⟨.ret, none, []⟩] ∧
      Calm ∅ calm := by
  have hrest {value : Option Reg} {valueCode : Code} (hvalue : Calm ∅ valueCode) :
      Keeps ∅ (do
        let restore := saves.map fun q => Inst.mv (.phys q.1) q.2
        let place := value.toList.map fun r => Inst.mv (.phys sc.target.result) r
        let leave ← if sc.frame.size > 0 then sc.target.adjustStack (Int64.ofNat sc.frame.size)
          else pure []
        return valueCode ++ restore ++ place ++ leave ++ [Inst.mk .ret none []]) fun code =>
          ∃ calm, code = calm ++ [⟨.ret, none, []⟩] ∧ Calm ∅ calm := by
    have hmoves {β : Type} (l : List β) (dst src : β → Reg) :
        Calm ∅ (l.map fun q => Inst.mv (dst q) (src q)) := by
      intro i hi
      obtain ⟨q, -, rfl⟩ := List.mem_map.1 hi
      exact Calm.mv (Set.notMem_empty _) _ List.mem_cons_self
    have hcalm := (hvalue.append (hmoves saves (fun q => .phys q.1) Prod.snd)).append
      (hmoves value.toList (fun _ => .phys sc.target.result) id)
    dsimp only
    split
    · refine .bind (Target.Spec.adjustStack_keeps (Set.notMem_empty _)) fun leave hleave => ?_
      exact .pure ⟨_, rfl, hcalm.append hleave⟩
    · refine .bind (.pure (P := Calm ∅) (List.forall_mem_nil _)) fun leave hleave => ?_
      exact .pure ⟨_, rfl, hcalm.append hleave⟩
  refine .lookup fun operands => ?_
  dsimp only
  split
  · exact .bind regOf_keeps fun q hq => .bind (.pure hq) fun q hq => hrest hq
  · exact .bind (.pure (P := fun q => Calm ∅ q.2) (List.forall_mem_nil _)) fun q hq => hrest hq

/-! ## Instructions -/

/-- What holds of all code that neither calls nor returns, of the code of calls and of the code of
returns holds of the code of every instruction. -/
theorem lowerInst_keeps {saves : Saves} {edges : EdgeBlocks} {b : BlockId} {P : Code → Prop}
    (hparams : ∀ r ∈ sc.target.paramRegs, .phys r ∉ K)
    (hspares : (∀ callee, sc.module.kindOf v ≠ some (.inst (.call callee))) →
      ∀ code, Spares K code → P code)
    (hcall : ∀ callee, sc.module.kindOf v = some (.inst (.call callee)) → ∀ setup rest,
      Calm K setup → Calm K rest → P (setup ++ ⟨.call, none, [.func callee.idx]⟩ :: rest))
    (hret : sc.module.kindOf v = some (.inst .ret) → Keeps K (sc.lowerReturn saves v) P) :
    Keeps K (sc.lowerInst saves edges b v) P := by
  refine .bind (.lift fun kind hkind => Module.kindOf_of_instKind hkind) fun kind hkind => ?_
  obtain ⟨k, hk, rfl⟩ := hkind
  have hspares' {x : SelectM Code} (hnot : ∀ callee, k.asInst ≠ some (.call callee))
      (h : Keeps K x (Spares K)) : Keeps K x P := by
    refine h.mono (hspares fun callee hcall => hnot callee ?_)
    cases hk.symm.trans hcall
    rfl
  have hplain {x : SelectM Code} (hnot : ∀ callee, k.asInst ≠ some (.call callee))
      (h : Keeps K x (Calm K)) : Keeps K x P := hspares' hnot (h.mono fun _ hcode => hcode.spares)
  cases k with
  | const | global | param | block => exact .halt
  | inst k =>
    cases k with
    | phi => exact hplain nofun (.pure nofun)
    | sext | cast => exact hplain nofun lowerMove_keeps
    | br => exact hspares' nofun lowerBr_keeps
    | gep => exact hplain nofun lowerGep_keeps
    | ret => exact hret hk
    | load => exact hplain nofun lowerLoad_keeps
    | store => exact hplain nofun lowerStore_keeps
    | call callee =>
      refine (lowerCall_keeps hparams).mono ?_
      rintro code ⟨setup, rest, rfl, hsetup, hrest⟩
      exact hcall callee hk setup rest hsetup hrest
    | alloca => exact hplain nofun lowerAlloca_keeps
    | binary => exact hplain nofun lowerBinary_keeps
    | compare =>
      refine .lookup fun fused => ?_
      split
      · exact hplain nofun (.pure nofun)
      · exact hplain nofun lowerCompare_keeps

/-! ## Calls -/

theorem lowerInst_callees {saves : Saves} {edges : EdgeBlocks} {b : BlockId} :
    Keeps ∅ (sc.lowerInst saves edges b v) fun code => callees code = sc.module.callees [v] := by
  refine lowerInst_keeps (fun _ _ => Set.notMem_empty _) ?_ ?_ ?_
  · intro hnot code hcode
    rw [callees_eq_nil fun i hi => (hcode i hi).1]
    simp [Module.callees, Module.callee?_eq_none hnot]
  · intro callee hk setup rest hsetup hrest
    rw [callees_append, callees_cons, callees_eq_nil fun i hi => (hsetup i hi).2.1,
      callees_eq_nil fun i hi => (hrest i hi).2.1]
    simp [Module.callees, Module.callee?, hk, Inst.callee?]
  · intro hk
    refine lowerReturn_keeps.mono ?_
    rintro code ⟨calm, rfl, hcalm⟩
    rw [callees_append, callees_eq_nil fun i hi => (hcalm i hi).2.1]
    simp [Module.callees, Module.callee?, hk, callees, Inst.callee?]

theorem lowerInsts_callees {saves : Saves} {edges : EdgeBlocks} {b : BlockId}
    {insts : List ValueId} :
    Keeps ∅ (sc.lowerInsts saves edges b insts) fun code =>
      callees code = sc.module.callees insts := by
  induction insts with
  | nil => exact .pure rfl
  | cons v rest ih =>
    refine .bind lowerInst_callees fun code hcode => .bind ih fun later hlater => .pure ?_
    rw [callees_append, hcode, hlater]
    exact List.filterMap_append.symm

theorem lowerInst_grows {saves : Saves} {edges : EdgeBlocks} {b : BlockId} {s s' : Registers}
    {code : Code} (hs : s.Wf) (h : sc.lowerInst saves edges b v s = .ok (code, s')) : Grows s s' :=
  (lowerInst_callees hs.apart h).1

theorem lowerInsts_grows {saves : Saves} {edges : EdgeBlocks} {b : BlockId} {s s' : Registers}
    {insts : List ValueId} {code : Code} (hs : s.Wf)
    (h : sc.lowerInsts saves edges b insts s = .ok (code, s')) : Grows s s' :=
  (lowerInsts_callees hs.apart h).1

end Scope

end SsaCodegen
