import SsaCodegen.Proofs.Flow.Dominators
import SsaCodegen.Proofs.Module.Declared
import SsaCodegen.Proofs.Select.Drafts
import SsaCodegen.Proofs.Select.Faults

/-!
# Selection of accepted programs

What the verifier checks is nearly enough for selection. It looks at the labels of branches and phis
and at the number of operands of each instruction in a block. It does not look for labels among the
other operands, and not at instructions outside all blocks. So there are two ways for an accepted
program to be astray. A label of another function stands where a value is read, or a branch takes
over a comparison that is in no block and lacks operands. Then selection may ask for a block or an
operand that is not there. In all other accepted programs it has a result or refuses the program,
unless a byte count does not fit.

## Main definitions

* `Module.Stray` — a function of an accepted program is astray
* `Scope.Rooted` — the scope of a function of an accepted program

## Main results

* `Scope.lowerInst_finishes`, `Scope.selectBlocks_finishes` — what is looked up on the way is there
* `Module.select_outcome` — selection of a program that the verifier accepts
-/

namespace SsaCodegen

open Target SelectM

/-- The position of the operand that an instruction takes as an address. -/
def InstKind.addressIndex : InstKind → Option Nat
  | .load | .gep _ => some 0
  | .store => some 1
  | _ => none

namespace Module

/-- A value is the label of a block that is not one of a function. -/
def IsForeign (m : Module) (f : FuncId) (x : ValueId) : Prop :=
  ∃ c, m.kindOf x = some (.block c) ∧ m.funcOf c ≠ some f

/-- A function is astray. -/
inductive Stray (m : Module) (f : FuncId) : Prop
  /-- An operand that is not taken as an address is a label of another function. -/
  | operand {b : BlockId} {v x : ValueId} {k : InstKind} {i : Nat} (hb : m.funcOf b = some f)
      (hv : v ∈ m.instsOf b) (hk : m.kindOf v = some (.inst k)) (haddr : k.addressIndex ≠ some i)
      (hx : (m.operandsOf v)[i]? = some x) (hforeign : m.IsForeign f x) : Stray m f
  /-- A branch takes over a comparison that lacks an operand. -/
  | short {b : BlockId} {v c : ValueId} (hb : m.funcOf b = some f) (hv : v ∈ m.instsOf b)
      (htakes : m.TakesOver v c) (hlen : (m.operandsOf c).length < 2) : Stray m f
  /-- A branch takes over a comparison with a label of another function. -/
  | tested {b : BlockId} {v c x : ValueId} {i : Nat} (hb : m.funcOf b = some f)
      (hv : v ∈ m.instsOf b) (htakes : m.TakesOver v c) (hi : i < 2)
      (hx : (m.operandsOf c)[i]? = some x) (hforeign : m.IsForeign f x) : Stray m f

end Module

/-! ## Numbers -/

namespace Target.Spec

variable {t : Spec} {stray : Prop}

theorem loadImmInto_finishes {dst : Reg} {n : Int64} :
    Finishes stray (t.loadImmInto dst n) fun _ => True := by
  unfold loadImmInto
  dsimp only
  split
  · exact .pure trivial
  · exact .bind .newReg fun _ _ => .pure trivial

theorem loadImm_finishes {n : Int64} : Finishes stray (t.loadImm n) fun _ => True :=
  .bind .newReg fun _ _ => .bind loadImmInto_finishes fun _ _ => .pure trivial

theorem addOffset_finishes {dst base : Reg} {n : Int64} :
    Finishes stray (t.addOffset dst base n) fun _ => True := by
  unfold addOffset
  split
  · exact .pure trivial
  · split
    · exact .pure trivial
    · exact .bind loadImm_finishes fun _ _ => .pure trivial

theorem adjustStack_finishes {n : Int64} : Finishes stray (t.adjustStack n) fun _ => True := by
  unfold adjustStack
  dsimp only
  split
  · exact .pure trivial
  · exact .bind loadImm_finishes fun _ _ => .pure trivial

theorem stackSlot_finishes {n : Int64} : Finishes stray (t.stackSlot n) fun _ => True := by
  unfold stackSlot
  dsimp only
  split
  · exact .pure trivial
  · exact .bind .newReg fun _ _ => .bind addOffset_finishes fun _ _ => .pure trivial

end Target.Spec

namespace Scope

variable {sc : Scope} {v x : ValueId} {stray : Prop}

/-! ## Operands -/

/-- A value can be asked for in a register: what its kind refers to is there. -/
def Ready (stray : Prop) (sc : Scope) (x : ValueId) : Prop :=
  ∃ k, sc.module.kindOf x = some k ∧ (∀ g, k = .global g → g.idx < sc.module.globals.size) ∧
    ∀ b, k = .block b → b ∈ sc.blocks ∨ stray

theorem blockNumber_ends {b : BlockId} (h : b ∈ sc.blocks ∨ stray) :
    Ends (Fault.Excused stray) (sc.blockNumber b) (· < sc.blocks.length) := by
  refine ⟨blockNumber_lt, (Ends.lookup fun hnone => ?_).error⟩
  exact h.resolve_left (List.idxOf?_eq_none_iff.1 hnone)

theorem globalNumber_ends {g : GlobalId} (h : g.idx < sc.module.globals.size) :
    Ends (Fault.Excused stray) (sc.globalNumber g) fun _ => True := by
  rw [globalNumber, if_pos h]
  exact .of_ok rfl trivial

theorem valueReg_finishes (hv : v.idx < sc.module.values.size) :
    Finishes stray (sc.valueReg v) fun _ => True := by
  have hx := Module.value_eq_ok.2 (Array.getElem?_eq_getElem hv)
  refine .bind (P := fun _ => True) (fun s => .of_ok rfl trivial) fun s _ => ?_
  split
  · exact .pure trivial
  · refine .known hx (.bind .newReg fun r _ => ?_)
    exact .bind (P := fun _ => True) (fun s => .of_ok rfl trivial) fun _ _ => .pure trivial

theorem globalAddr_finishes {g : Nat} : Finishes stray (globalAddr g) fun _ => True :=
  .bind .newReg fun _ _ => .bind .newReg fun _ _ => .pure trivial

theorem regOf_finishes {user : ValueId} (hx : sc.Ready stray x) :
    Finishes stray (sc.regOf user x) fun _ => True := by
  obtain ⟨k, hk, hglobal, hblock⟩ := hx
  refine .known (Module.kind_eq hk) ?_
  cases k with
  | global g =>
    exact .bind (.lift (globalNumber_ends (hglobal g rfl))) fun _ _ => globalAddr_finishes
  | const c =>
    dsimp only
    split
    · exact Target.Spec.loadImm_finishes
    · exact .refuse
  | param | inst =>
    exact .bind (valueReg_finishes (Module.lt_of_kindOf hk)) fun _ _ => .pure trivial
  | block b => exact .bind (.lift (blockNumber_ends (hblock b rfl))) fun _ _ => .refuse

/-! ## Functions of accepted programs -/

/-- The scope of a function of an accepted program. -/
structure Rooted (sc : Scope) (f : FuncId) (lists : BlockId → List ValueId) : Prop where
  wf : sc.module.WellFormed lists
  declared : sc.module.Declared
  mem_blocks : ∀ {b}, b ∈ sc.blocks ↔ sc.module.funcOf b = some f
  roomy : Frame.Roomy sc.module f sc.target.paramRegs.length sc.target.word sc.frame

/-- A value is an instruction of a function. -/
def Has (sc : Scope) (f : FuncId) (v : ValueId) (k : InstKind) : Prop :=
  sc.module.kindOf v = some (.inst k) ∧ ∃ b, sc.module.funcOf b = some f ∧ v ∈ sc.module.instsOf b

namespace Rooted

variable {f : FuncId} {lists : BlockId → List ValueId} {k : InstKind} {i : Nat} {u : ValueId}

theorem lt (h : sc.Rooted f lists) (hx : x ∈ sc.module.operandsOf u) :
    x.idx < sc.module.values.size := h.wf.operand_lt hx

/-- An operand is ready unless it is a label of another function. -/
theorem ready (h : sc.Rooted f lists) (hx : x ∈ sc.module.operandsOf u)
    (hstray : sc.module.IsForeign f x → stray) : sc.Ready stray x := by
  obtain ⟨k, hk⟩ := Module.exists_kindOf (h.lt hx)
  refine ⟨k, hk, ?_, ?_⟩
  · rintro g rfl
    exact h.declared.global hk
  · rintro b rfl
    by_cases hb : sc.module.funcOf b = some f
    · exact .inl (h.mem_blocks.2 hb)
    · exact .inr (hstray ⟨b, hk, hb⟩)

theorem ready_of_isData (h : sc.Rooted f lists) (hx : x ∈ sc.module.operandsOf u)
    (hdata : sc.module.IsData x) : sc.Ready stray x := by
  refine h.ready hx ?_
  rintro ⟨c, hc, -⟩
  exact absurd hc (hdata c)

/-- An operand that is not taken as an address is ready, or the function is astray. -/
theorem ready_operand (h : sc.Rooted f lists) (hv : sc.Has f v k)
    (hx : (sc.module.operandsOf v)[i]? = some x) (haddr : k.addressIndex ≠ some i) :
    sc.Ready (sc.module.Stray f) x := by
  obtain ⟨hk, b, hb, hmem⟩ := hv
  exact h.ready (List.mem_of_getElem? hx) fun hforeign => .operand hb hmem hk haddr hx hforeign

theorem fits (h : sc.Rooted f lists) (hv : sc.Has f v k) :
    sc.module.Fits f k (sc.module.operandsOf v) := by
  obtain ⟨hk, b, hb, hmem⟩ := hv
  rw [h.wf.instsOf_eq hb] at hmem
  exact h.wf.fits hb hmem hk

end Rooted

variable {f : FuncId} {lists : BlockId → List ValueId} {k : InstKind}

/-- An operand that an instruction has. -/
theorem exists_operand {n i : Nat} (hlen : (sc.module.operandsOf v).length = n) (hi : i < n) :
    ∃ x, (sc.module.operandsOf v)[i]? = some x ∧ sc.module.operand v i = .ok x := by
  subst hlen
  exact ⟨_, List.getElem?_eq_getElem hi, Module.operand_eq (List.getElem?_eq_getElem hi)⟩

/-! ## Loads, stores and addresses -/

theorem loadOp_finishes {n : Nat} : Finishes stray (loadOp v n) fun _ => True := by
  unfold loadOp
  split
  · exact .pure trivial
  · exact .refuse

theorem storeOp_finishes {n : Nat} : Finishes stray (storeOp v n) fun _ => True := by
  unfold storeOp
  split
  · exact .pure trivial
  · exact .refuse

theorem exists_ty (hx : x.idx < sc.module.values.size) : ∃ ty, sc.module.ty x = .ok ty :=
  ⟨_, bind_eq_ok.2 ⟨_, Module.value_eq_ok.2 (Array.getElem?_eq_getElem hx), rfl⟩⟩

/-- What has a pointer type is no label. -/
theorem pointee_finishes (h : sc.Rooted f lists) (hx : x.idx < sc.module.values.size) :
    Finishes stray (sc.pointee v x) fun _ => sc.module.IsData x := by
  have hval := Array.getElem?_eq_getElem hx
  refine .known (bind_eq_ok.2 ⟨_, Module.value_eq_ok.2 hval, rfl⟩) ?_
  split
  · rename_i ty hty
    refine .pure fun b hb => ?_
    rw [h.declared.label hb hval] at hty
    cases hty
  · exact .refuse

theorem address_finishes (hx : sc.Ready stray x) : Finishes stray (sc.address v x) fun _ => True := by
  obtain ⟨k, hk, hglobal, -⟩ := id hx
  refine .known (Module.kind_eq hk) ?_
  cases k with
  | global g =>
    refine .bind (.lift (globalNumber_ends (hglobal g rfl))) fun n _ => ?_
    exact .bind .newReg fun _ _ => .pure trivial
  | const | param | inst | block => exact .bind (regOf_finishes hx) fun _ _ => .pure trivial

theorem lowerLoad_finishes (h : sc.Rooted f lists) (hv : sc.Has f v .load) :
    Finishes (sc.module.Stray f) (sc.lowerLoad v) fun _ => True := by
  have hlen : (sc.module.operandsOf v).length = 1 := h.fits hv
  obtain ⟨ptr, hptr, hlookup⟩ := exists_operand hlen (i := 0) (by decide)
  have hmem := List.mem_of_getElem? hptr
  refine .known hlookup (.bind (pointee_finishes h (h.lt hmem)) fun ty hdata => ?_)
  refine .bind loadOp_finishes fun op _ => .bind (address_finishes (h.ready_of_isData hmem hdata)) ?_
  intro q _
  exact .bind (valueReg_finishes (Module.lt_of_kindOf hv.1)) fun _ _ => .pure trivial

theorem lowerStore_finishes (h : sc.Rooted f lists) (hv : sc.Has f v .store) :
    Finishes (sc.module.Stray f) (sc.lowerStore v) fun _ => True := by
  have hlen : (sc.module.operandsOf v).length = 2 := h.fits hv
  obtain ⟨value, hvalue, hlookup⟩ := exists_operand hlen (i := 0) (by decide)
  obtain ⟨ptr, hptr, hlookup'⟩ := exists_operand hlen (i := 1) (by decide)
  have hmem := List.mem_of_getElem? hptr
  refine .known hlookup (.known hlookup' ?_)
  refine .bind (pointee_finishes h (h.lt hmem)) fun ty hdata => .bind storeOp_finishes fun op _ => ?_
  refine .bind (regOf_finishes (h.ready_operand hv hvalue (by decide))) fun q _ => ?_
  exact .bind (address_finishes (h.ready_of_isData hmem hdata)) fun _ _ => .pure trivial

theorem fieldOffset_finishes {index : ValueId} {ty : Ty} (hindex : index.idx < sc.module.values.size) :
    Finishes stray (sc.fieldOffset v ty index) fun _ => True := by
  obtain ⟨k, hk⟩ := Module.exists_kindOf hindex
  unfold fieldOffset
  split
  · exact .refuse
  · refine .known (Module.kind_eq hk) ?_
    split
    · exact .refuse
    · split
      · exact .refuse
      · exact .pure trivial

theorem lowerField_finishes {index : ValueId} {ty : Ty} {dst base : Reg}
    (hindex : index.idx < sc.module.values.size) :
    Finishes stray (sc.lowerField v index ty dst base) fun _ => True :=
  .bind (fieldOffset_finishes hindex) fun _ _ => Target.Spec.addOffset_finishes

theorem lowerElement_finishes {index : ValueId} {ty : Ty} {dst base : Reg}
    (hindex : sc.Ready stray index) :
    Finishes stray (sc.lowerElement v index ty dst base) fun _ => True := by
  obtain ⟨k, hk, -⟩ := id hindex
  refine .known (Module.kind_eq hk) ?_
  split
  · exact Target.Spec.addOffset_finishes
  · refine .bind (regOf_finishes hindex) fun _ _ => .bind Target.Spec.loadImm_finishes fun _ _ => ?_
    exact .bind .newReg fun _ _ => .pure trivial

theorem lowerGep_finishes {needsZero : Bool} (h : sc.Rooted f lists)
    (hv : sc.Has f v (.gep needsZero)) :
    Finishes (sc.module.Stray f) (sc.lowerGep v needsZero) fun _ => True := by
  have hlen : (sc.module.operandsOf v).length = 2 := h.fits hv
  obtain ⟨base, hbase, hlookup⟩ := exists_operand hlen (i := 0) (by decide)
  obtain ⟨index, hindex, hlookup'⟩ := exists_operand hlen (i := 1) (by decide)
  have hmem := List.mem_of_getElem? hbase
  have hready := h.ready_operand hv hindex (by simp [InstKind.addressIndex])
  refine .known hlookup (.known hlookup' ?_)
  refine .bind (pointee_finishes h (h.lt hmem)) fun ty hdata => ?_
  refine .bind (regOf_finishes (h.ready_of_isData hmem hdata)) fun q _ => ?_
  refine .bind (valueReg_finishes (Module.lt_of_kindOf hv.1)) fun dst _ => ?_
  split
  · refine .bind (lowerField_finishes ?_) fun _ _ => .pure trivial
    exact h.lt (List.mem_of_getElem? hindex)
  · exact .bind (lowerElement_finishes hready) fun _ _ => .pure trivial

/-! ## Arithmetic and variables -/

theorem operandPair_finishes (h : sc.Rooted f lists) (hv : sc.Has f v k)
    (hlen : (sc.module.operandsOf v).length = 2) (haddr : k.addressIndex = none) :
    Finishes (sc.module.Stray f) (sc.operandPair v) fun _ => True := by
  have hne (i : Nat) : k.addressIndex ≠ some i := by
    rw [haddr]
    exact (Option.some_ne_none i).symm
  obtain ⟨l, hl, hlookup⟩ := exists_operand hlen (i := 0) (by decide)
  obtain ⟨r, hr, hlookup'⟩ := exists_operand hlen (i := 1) (by decide)
  refine .known hlookup (.bind (regOf_finishes (h.ready_operand hv hl (hne 0))) fun _ _ => ?_)
  refine .known hlookup' (.bind (regOf_finishes (h.ready_operand hv hr (hne 1))) fun _ _ => ?_)
  exact .pure trivial

theorem lowerBinary_finishes {op : BinOp} (h : sc.Rooted f lists) (hv : sc.Has f v (.binary op)) :
    Finishes (sc.module.Stray f) (sc.lowerBinary v op) fun _ => True := by
  refine .bind (operandPair_finishes h hv (h.fits hv) rfl) fun _ _ => ?_
  exact .bind (valueReg_finishes (Module.lt_of_kindOf hv.1)) fun _ _ => .pure trivial

theorem lowerCompare_finishes {op : CmpOp} (h : sc.Rooted f lists) (hv : sc.Has f v (.compare op)) :
    Finishes (sc.module.Stray f) (sc.lowerCompare v op) fun _ => True := by
  refine .bind (operandPair_finishes h hv (h.fits hv) rfl) fun _ _ => ?_
  refine .bind (valueReg_finishes (Module.lt_of_kindOf hv.1)) fun _ _ => ?_
  split
  · exact .pure trivial
  · exact .bind .newReg fun _ _ => .pure trivial

theorem lowerMove_finishes (h : sc.Rooted f lists) (hv : sc.Has f v k)
    (hlen : (sc.module.operandsOf v).length = 1) (haddr : k.addressIndex ≠ some 0) :
    Finishes (sc.module.Stray f) (sc.lowerMove v) fun _ => True := by
  obtain ⟨src, hsrc, hlookup⟩ := exists_operand hlen (i := 0) (by decide)
  refine .known hlookup (.bind (regOf_finishes (h.ready_operand hv hsrc haddr)) fun _ _ => ?_)
  exact .bind (valueReg_finishes (Module.lt_of_kindOf hv.1)) fun _ _ => .pure trivial

theorem lowerAlloca_finishes {ty : Ty} (h : sc.Rooted f lists) (hv : sc.Has f v (.alloca ty)) :
    Finishes stray (sc.lowerAlloca v) fun _ => True := by
  obtain ⟨hk, b, hb, hmem⟩ := hv
  obtain ⟨offset, hoffset⟩ := Option.isSome_iff_exists.1 (h.roomy.slot hb hmem hk)
  unfold lowerAlloca
  rw [hoffset]
  exact .bind (valueReg_finishes (Module.lt_of_kindOf hk)) fun _ _ => Target.Spec.addOffset_finishes

/-! ## Branches -/

/-- The use of a value is by one that is there. -/
theorem fusedBranch_ends (h : sc.Rooted f lists) (hv : v.idx < sc.module.values.size) :
    Ends (Fault.Excused stray) (fusedBranch sc.module v) fun _ => True := by
  refine .known (Module.uses_eq hv) ?_
  split
  · rename_i use huses
    have hmem : use ∈ sc.module.usesOf v := by
      rw [huses]
      exact List.mem_singleton_self _
    have hlt := Module.lt_of_mem_operandsOf (List.mem_of_getElem? (h.wf.mirrored.mem.1 hmem))
    exact .known (Module.value_eq_ok.2 (Array.getElem?_eq_getElem hlt)) (.pure trivial)
  · exact .pure trivial

theorem branchTarget_finishes {edges : EdgeBlocks} {pred : BlockId} {label : ValueId}
    (h : sc.Rooted f lists) (hlabel : sc.module.IsLabel f label) :
    Finishes stray (sc.branchTarget edges pred v label) fun _ => True := by
  obtain ⟨succ, hk, hsucc⟩ := hlabel
  refine .known (Module.kind_eq hk) ?_
  refine .bind (.lift (blockNumber_ends (.inl (h.mem_blocks.2 hsucc)))) fun _ _ => ?_
  exact .pure trivial

theorem fusedCompare_ends {cond : ValueId} (h : sc.Rooted f lists)
    (hcond : cond.idx < sc.module.values.size) :
    Ends (Fault.Excused stray) (sc.fusedCompare v cond) fun r =>
      ∀ op, r = some op → sc.module.TakesOver v cond := by
  refine ⟨fun {r} hr op hop => ?_, fun {e} he => ?_⟩
  · obtain ⟨hcompare, hinto⟩ := (fusedCompare_ok hr).1 op hop
    exact ⟨⟨op, hcompare⟩, hinto⟩
  · obtain ⟨k, hk⟩ := Module.exists_kindOf hcond
    have hends : Ends (Fault.Excused stray) (sc.fusedCompare v cond) fun _ => True := by
      refine .known (Module.kind_eq hk) ?_
      split
      · exact (fusedBranch_ends h hcond).bind fun _ _ _ => .pure trivial
      · exact .pure trivial
    exact hends.error he

/-- An operand of a comparison that a branch takes over is there, or the function is astray. -/
theorem testedOperand_ends {b : BlockId} {c : ValueId} {i : Nat} (h : sc.Rooted f lists)
    (hb : sc.module.funcOf b = some f) (hv : v ∈ sc.module.instsOf b)
    (htakes : sc.module.TakesOver v c) (hi : i < 2) :
    Ends (Fault.Excused (sc.module.Stray f)) (sc.module.operand c i)
      (sc.Ready (sc.module.Stray f)) := by
  obtain ⟨op, hk⟩ := htakes.1
  refine .known (Module.operands_eq (Module.lt_of_kindOf hk)) ?_
  refine (Ends.lookup fun hnone => ?_).mono fun x hx => ?_
  · have hle := List.getElem?_eq_none_iff.1 hnone
    exact .short hb hv htakes (by omega)
  · exact h.ready (List.mem_of_getElem? hx) fun hforeign => .tested hb hv htakes hi hx hforeign

theorem lowerTest_finishes {b : BlockId} {cond : ValueId} {dest : Nat} (h : sc.Rooted f lists)
    (hb : sc.module.funcOf b = some f) (hv : v ∈ sc.module.instsOf b)
    (hcond : cond ∈ sc.module.operandsOf v) (hdata : sc.module.IsData cond) :
    Finishes (sc.module.Stray f) (sc.lowerTest v cond dest) fun _ => True := by
  refine .bind (.lift (fusedCompare_ends h (h.lt hcond))) fun fused hfused => ?_
  cases fused with
  | some op =>
    have htakes := hfused op rfl
    refine .bind (.lift (testedOperand_ends h hb hv htakes (i := 0) (by decide))) fun l hl => ?_
    refine .bind (regOf_finishes hl) fun _ _ => ?_
    refine .bind (.lift (testedOperand_ends h hb hv htakes (i := 1) (by decide))) fun r hr => ?_
    exact .bind (regOf_finishes hr) fun _ _ => .pure trivial
  | none => exact .bind (regOf_finishes (h.ready_of_isData hcond hdata)) fun _ _ => .pure trivial

theorem lowerBr_finishes {edges : EdgeBlocks} {pred : BlockId} (h : sc.Rooted f lists)
    (hv : sc.Has f v .br) : Finishes (sc.module.Stray f) (sc.lowerBr edges pred v) fun _ => True := by
  have hfits := h.fits hv
  obtain ⟨hk, b, hb, hmem⟩ := hv
  refine .known (Module.operands_eq (Module.lt_of_kindOf hk)) ?_
  rcases hfits with ⟨dest, heq, hdest⟩ | ⟨cond, thenLabel, elseLabel, heq, hdata, hthen, helse⟩
  · rw [heq]
    exact .bind (branchTarget_finishes h hdest) fun _ _ => .pure trivial
  · have hcond : cond ∈ sc.module.operandsOf v := by
      rw [heq]
      exact List.mem_cons_self
    rw [heq]
    refine .bind (branchTarget_finishes h hthen) fun _ _ => ?_
    refine .bind (branchTarget_finishes h helse) fun _ _ => ?_
    exact .bind (lowerTest_finishes h hb hmem hcond hdata) fun _ _ => .pure trivial

/-! ## Calls and function boundaries -/

theorem argRegs_finishes {args : List ValueId} (hargs : ∀ x ∈ args, sc.Ready stray x) :
    Finishes stray (sc.argRegs v args) fun q => q.1.map Prod.fst = args := by
  induction args with
  | nil => exact .pure rfl
  | cons arg rest ih =>
    obtain ⟨harg, hrest⟩ := List.forall_mem_cons.1 hargs
    refine .bind (regOf_finishes harg) fun _ _ => .bind (ih hrest) fun q hq => .pure ?_
    rw [List.map_cons, hq]

theorem passStackArg_finishes {arg : ValueId} {src : Reg} {index : Nat}
    (harg : arg.idx < sc.module.values.size) (hroom : index * sc.target.word < sc.frame.outgoing) :
    Finishes stray (sc.passStackArg v arg src index) fun _ => True := by
  obtain ⟨ty, hty⟩ := exists_ty harg
  have hoffset : Ends (Fault.Excused stray)
      (sc.frame.outgoingOffset index sc.target.word) fun _ => True := by
    refine Ends.fit.bind fun offset _ heq => ?_
    rw [heq, if_pos hroom]
    exact .pure trivial
  refine .known hty (.bind storeOp_finishes fun _ _ => .bind (.lift hoffset) fun _ _ => ?_)
  exact .bind Target.Spec.stackSlot_finishes fun _ _ => .pure trivial

/-- The arguments that have no register have room in the frame. -/
theorem passArgs_finishes {args : List (ValueId × Reg)} {index n : Nat}
    (hargs : ∀ q ∈ args, q.1.idx < sc.module.values.size) (hn : index + args.length ≤ n)
    (hroom : ∀ i, i + sc.target.paramRegs.length < n → i * sc.target.word < sc.frame.outgoing) :
    Finishes stray (sc.passArgs v index args) fun _ => True := by
  induction args generalizing index with
  | nil => exact .pure trivial
  | cons q rest ih =>
    obtain ⟨arg, src⟩ := q
    obtain ⟨harg, hrest⟩ := List.forall_mem_cons.1 hargs
    rw [List.length_cons] at hn
    unfold passArgs
    dsimp only
    split
    all_goals
      refine .bind (P := fun _ => True) ?_ fun _ _ =>
        .bind (ih hrest (by omega)) fun _ _ => .pure trivial
    · exact .pure trivial
    · rename_i hnone
      have hle := List.getElem?_eq_none_iff.1 hnone
      exact passStackArg_finishes harg (hroom _ (by omega))

theorem lowerCall_finishes {callee : FuncId} (h : sc.Rooted f lists)
    (hv : sc.Has f v (.call callee)) :
    Finishes (sc.module.Stray f) (sc.lowerCall v callee) fun _ => True := by
  obtain ⟨hk, b, hb, hmem⟩ := id hv
  have hlt := Module.lt_of_kindOf hk
  have hval := Array.getElem?_eq_getElem hlt
  have hoperands : sc.module.operandsOf v = sc.module.values[v.idx].operands :=
    Module.valueField_eq hval
  have hready : ∀ x ∈ sc.module.operandsOf v, sc.Ready (sc.module.Stray f) x := by
    intro x hx
    obtain ⟨i, hi⟩ := List.getElem?_of_mem hx
    exact h.ready_operand hv hi (Option.some_ne_none i).symm
  unfold lowerCall
  dsimp only
  split
  · exact .bind (P := fun _ => False) .refuse fun _ hfalse => hfalse.elim
  · refine .known (Module.value_eq_ok.2 hval) ?_
    rw [← hoperands]
    refine .bind (argRegs_finishes hready) fun q hq => ?_
    refine .bind (P := fun _ => True) (passArgs_finishes (n := q.1.length) ?_ (by omega) ?_) ?_
    · intro p hp
      refine h.lt (u := v) ?_
      rw [← hq]
      exact List.mem_map_of_mem hp
    · intro i hi
      refine h.roomy.args hb hmem hk ?_
      rw [← hq, List.length_map]
      exact hi
    · intro pass _
      split
      · exact .pure trivial
      · exact .bind (valueReg_finishes hlt) fun _ _ => .pure trivial

theorem lowerReturn_finishes {saves : Saves} (h : sc.Rooted f lists) (hv : sc.Has f v .ret) :
    Finishes (sc.module.Stray f) (sc.lowerReturn saves v) fun _ => True := by
  have hleave {k : Code → Code} : Finishes (sc.module.Stray f)
      (if sc.frame.size > 0 then do
        let leave ← sc.target.adjustStack (Int64.ofNat sc.frame.size)
        return k leave
      else do
        let leave ← pure []
        return k leave) fun _ => True := by
    split
    · exact .bind Target.Spec.adjustStack_finishes fun _ _ => .pure trivial
    · exact .bind (P := fun _ => True) (.pure trivial) fun _ _ => .pure trivial
  refine .known (Module.operands_eq (Module.lt_of_kindOf hv.1)) ?_
  dsimp only
  split
  · rename_i x hx
    rw [List.head?_eq_getElem?] at hx
    refine .bind (regOf_finishes (h.ready_operand hv hx (by decide))) fun _ _ => ?_
    exact .bind (P := fun _ => True) (.pure trivial) fun _ _ => hleave
  · exact .bind (P := fun _ => True) (.pure trivial) fun _ _ => hleave

theorem saveEach_finishes {regs : List PhysReg} : Finishes stray (saveEach regs) fun _ => True := by
  induction regs with
  | nil => exact .pure trivial
  | cons r rest ih => exact .bind .newReg fun _ _ => .bind ih fun _ _ => .pure trivial

theorem takeStackParam_finishes {dst : Reg} {index : Nat} (hv : v.idx < sc.module.values.size) :
    Finishes stray (sc.takeStackParam v dst index) fun _ => True := by
  obtain ⟨ty, hty⟩ := exists_ty hv
  have hoffset : Ends (Fault.Excused stray)
      (sc.frame.incomingOffset index sc.target.word) fun _ => True :=
    Ends.fit.bind fun _ _ _ => Ends.fit.mono fun _ _ => trivial
  refine .known hty (.bind loadOp_finishes fun _ _ => .bind (.lift hoffset) fun _ _ => ?_)
  exact .bind Target.Spec.stackSlot_finishes fun _ _ => .pure trivial

theorem takeParams_finishes {params : List ValueId} {index : Nat}
    (hparams : ∀ v ∈ params, v.idx < sc.module.values.size) :
    Finishes stray (sc.takeParams index params) fun _ => True := by
  induction params generalizing index with
  | nil => exact .pure trivial
  | cons v rest ih =>
    obtain ⟨hv, hrest⟩ := List.forall_mem_cons.1 hparams
    refine .bind (valueReg_finishes hv) fun dst _ => ?_
    dsimp only
    split
    all_goals
      refine .bind (P := fun _ => True) ?_ fun _ _ => .bind (ih hrest) fun _ _ => .pure trivial
    · exact .pure trivial
    · exact takeStackParam_finishes hv

theorem prologue_finishes {params : List ValueId}
    (hparams : ∀ v ∈ params, v.idx < sc.module.values.size) :
    Finishes stray (sc.prologue params) fun _ => True := by
  unfold prologue
  dsimp only
  split
  all_goals
    refine .bind (P := fun _ => True) ?_ fun _ _ => .bind saveEach_finishes fun _ _ =>
      .bind (takeParams_finishes hparams) fun _ _ => .pure trivial
  · exact Target.Spec.adjustStack_finishes
  · exact .pure trivial

/-! ## Instructions -/

/-- The code of an instruction of an accepted function. -/
theorem lowerInst_finishes {saves : Saves} {edges : EdgeBlocks} {b : BlockId}
    (h : sc.Rooted f lists) (hb : sc.module.funcOf b = some f) (hv : v ∈ sc.module.instsOf b) :
    Finishes (sc.module.Stray f) (sc.lowerInst saves edges b v) fun _ => True := by
  obtain ⟨k, hk⟩ : ∃ k, sc.module.kindOf v = some (.inst k) := by
    rw [h.wf.instsOf_eq hb] at hv
    exact h.wf.threads.inst hv
  have hhas : sc.Has f v k := ⟨hk, b, hb, hv⟩
  refine .known (Module.instKind_eq hk) ?_
  cases k with
  | phi => exact .pure trivial
  | sext => exact lowerMove_finishes h hhas (h.fits hhas) (by decide)
  | cast => exact lowerMove_finishes h hhas (h.fits hhas) (by decide)
  | br => exact lowerBr_finishes h hhas
  | gep needsZero => exact lowerGep_finishes h hhas
  | ret => exact lowerReturn_finishes h hhas
  | load => exact lowerLoad_finishes h hhas
  | store => exact lowerStore_finishes h hhas
  | call callee => exact lowerCall_finishes h hhas
  | alloca ty => exact lowerAlloca_finishes h hhas
  | binary op => exact lowerBinary_finishes h hhas
  | compare op =>
    refine .bind (.lift (fusedBranch_ends h (Module.lt_of_kindOf hk))) fun _ _ => ?_
    split
    · exact .pure trivial
    · exact lowerCompare_finishes h hhas

theorem lowerInsts_finishes {saves : Saves} {edges : EdgeBlocks} {b : BlockId}
    {insts : List ValueId} (h : sc.Rooted f lists) (hb : sc.module.funcOf b = some f)
    (hinsts : ∀ v ∈ insts, v ∈ sc.module.instsOf b) :
    Finishes (sc.module.Stray f) (sc.lowerInsts saves edges b insts) fun _ => True := by
  induction insts with
  | nil => exact .pure trivial
  | cons v rest ih =>
    obtain ⟨hv, hrest⟩ := List.forall_mem_cons.1 hinsts
    refine .bind (lowerInst_finishes h hb hv) fun _ _ => ?_
    exact .bind (ih hrest) fun _ _ => .pure trivial

/-! ## Copies for phis -/

theorem endsConditionally_ends {b : BlockId} (h : sc.Rooted f lists)
    (hb : sc.module.funcOf b = some f) :
    Ends (Fault.Excused stray) (endsConditionally sc.module b) fun _ => True := by
  obtain ⟨phis, body, term, hlist, hlaid⟩ := h.wf.laid hb
  obtain ⟨k, hk, -⟩ := hlaid.isTerm
  refine .known (h.wf.terminator hb hlist) ?_
  exact .known (Module.operands_eq (Module.lt_of_kindOf hk)) (.pure trivial)

/-- There is a block for the copies on an edge. -/
theorem copyHolder_ends {d : Draft} {pred succ : BlockId} (h : sc.Rooted f lists)
    (hpred : sc.module.funcOf pred = some f) (hsucc : sc.module.funcOf succ = some f)
    (hd : sc.blocks.length ≤ d.blocks.length) :
    Ends (Fault.Excused stray) (sc.copyHolder d pred succ) fun q =>
      sc.blocks.length ≤ q.2.blocks.length := by
  obtain ⟨x, hx, -⟩ := Module.funcOf_eq_some.1 hpred
  obtain ⟨y, hy, -⟩ := Module.funcOf_eq_some.1 hsucc
  refine (endsConditionally_ends h hpred).bind fun conditional _ _ => ?_
  split
  · split
    · exact .pure hd
    · refine (blockNumber_ends (.inl (h.mem_blocks.2 hpred))).bind fun source _ hsource => ?_
      refine .known (Module.block_eq_ok.2 hx) (.known (Module.block_eq_ok.2 hy) ?_)
      have hlt : source < d.blocks.length := Nat.lt_of_lt_of_le hsource hd
      refine .known (lookupOr_eq_ok.2 (List.getElem?_eq_getElem hlt)) ?_
      refine (blockNumber_ends (.inl (h.mem_blocks.2 hsucc))).bind fun dest _ _ => .pure ?_
      simp only [Draft.addEdge, List.length_append]
      omega
  · exact (blockNumber_ends (.inl (h.mem_blocks.2 hpred))).bind fun _ _ _ => .pure hd

theorem recordIncoming_finishes {b : BlockId} {phi : ValueId} {dst : Reg} {d : Draft}
    {operands : List ValueId} (h : sc.Rooted f lists) (hb : sc.module.funcOf b = some f)
    (hpairs : sc.module.PhiPairs f operands)
    (hoperands : ∀ x ∈ operands, x ∈ sc.module.operandsOf phi)
    (hd : sc.blocks.length ≤ d.blocks.length) :
    Finishes stray (sc.recordIncoming b phi dst d operands) fun d' =>
      sc.blocks.length ≤ d'.blocks.length := by
  fun_induction recordIncoming sc b phi dst d operands with
  | case1 => exact .pure hd
  | case2 => exact hpairs.elim
  | case3 d value label rest ih =>
    obtain ⟨hdata, ⟨pred, hk, hpred⟩, hrest⟩ := hpairs
    obtain ⟨hvalue, hoperands⟩ := List.forall_mem_cons.1 hoperands
    refine .known (Module.kind_eq hk) ?_
    refine .bind (.lift (copyHolder_ends h hpred hb hd)) fun q hq => ?_
    refine .bind (regOf_finishes (h.ready_of_isData hvalue hdata)) fun r _ => ?_
    refine ih q.1 q.2 r.1 r.2 hrest (fun x hx => hoperands x (List.mem_cons_of_mem _ hx)) ?_
    simpa only [Draft.addCopy, Draft.modifyBlock, List.length_modify] using hq

theorem reservePhis_finishes {bs : List BlockId} (h : sc.Rooted f lists)
    (hbs : ∀ b ∈ bs, sc.module.funcOf b = some f) :
    Finishes stray (sc.reservePhis bs) fun phis =>
      ∀ q ∈ phis, sc.module.funcOf q.1 = some f ∧ sc.Has f q.2 .phi := by
  have hfinishes : Finishes stray (sc.reservePhis bs) fun _ => True := by
    induction bs with
    | nil => exact .pure trivial
    | cons b rest ih =>
      obtain ⟨hb, hrest⟩ := List.forall_mem_cons.1 hbs
      refine .known (bind_eq_ok.2 ⟨_, h.wf.insts hb, rfl⟩) (.bind (.forM fun v hv => ?_) ?_)
      · obtain ⟨k, hk⟩ := h.wf.threads.inst (List.mem_of_mem_filter hv)
        exact .bind (valueReg_finishes (Module.lt_of_kindOf hk)) fun _ _ => .pure trivial
      · exact fun _ _ => .bind (ih hrest) fun _ _ => .pure trivial
  intro s
  refine ⟨fun {r} hr q hq => ?_, (hfinishes s).error⟩
  obtain ⟨hb, hv, hk⟩ := reservePhis_mem hr q hq
  exact ⟨hbs _ hb, hk, q.1, hbs _ hb, hv⟩

theorem recordEach_finishes {phis : List (BlockId × ValueId)} {d : Draft} (h : sc.Rooted f lists)
    (hphis : ∀ q ∈ phis, sc.module.funcOf q.1 = some f ∧ sc.Has f q.2 .phi)
    (hd : sc.blocks.length ≤ d.blocks.length) :
    Finishes stray (sc.recordEach d phis) fun _ => True := by
  induction phis generalizing d with
  | nil => exact .pure trivial
  | cons q rest ih =>
    obtain ⟨⟨hb, hphi⟩, hrest⟩ := List.forall_mem_cons.1 hphis
    have hlt := Module.lt_of_kindOf hphi.1
    refine .bind (valueReg_finishes hlt) fun dst _ => .known (Module.operands_eq hlt) ?_
    refine .bind (recordIncoming_finishes h hb (h.fits hphi) (fun _ hx => hx) hd) fun d' hd' => ?_
    exact ih hrest hd'

/-! ## Blocks -/

theorem fillBlocks_finishes {saves : Saves} {d : Draft} {i : Nat} {bs : List BlockId}
    (h : sc.Rooted f lists) (hbs : ∀ b ∈ bs, sc.module.funcOf b = some f) :
    Finishes (sc.module.Stray f) (sc.fillBlocks saves d i bs) fun _ => True := by
  induction bs generalizing d i with
  | nil => exact .pure trivial
  | cons b rest ih =>
    obtain ⟨hb, hrest⟩ := List.forall_mem_cons.1 hbs
    refine .known (h.wf.insts hb) (.bind (lowerInsts_finishes h hb fun v hv => ?_) fun _ _ => ?_)
    · rw [h.wf.instsOf_eq hb]
      exact hv
    · exact ih hrest

theorem resolveBlock_finishes {B : Target.Block} :
    Finishes stray (Draft.resolveBlock B) fun _ => True := by
  refine .bind (P := fun _ => True) (fun s => .of_ok rfl trivial) fun s _ => ?_
  dsimp only
  split
  · exact .refuse
  · exact .bind (P := fun _ => True) (fun s => .of_ok rfl trivial) fun _ _ => .pure trivial

/-- The blocks of an accepted function. -/
theorem selectBlocks_finishes {y : Func} {loops : LoopNest} (h : sc.Rooted f lists)
    (hparams : ∀ v ∈ y.params, v.idx < sc.module.values.size) :
    Finishes (sc.module.Stray f) (sc.selectBlocks y loops) fun _ => True := by
  have hbs : ∀ b ∈ sc.blocks, sc.module.funcOf b = some f := fun b hb => h.mem_blocks.1 hb
  obtain ⟨empty, hempty⟩ := FlowGraph.exists_mapM (l := sc.blocks) (k := fun b => do
      return { name := (← sc.module.block b).name, depth := loops.depth b : Target.Block })
    fun b hb => by
      obtain ⟨x, hx, -⟩ := Module.funcOf_eq_some.1 (hbs b hb)
      exact ⟨_, bind_eq_ok.2 ⟨x, Module.block_eq_ok.2 hx, rfl⟩⟩
  refine .known hempty (.bind (prologue_finishes hparams) fun q _ => ?_)
  refine .bind (P := fun _ => True) ?_ fun d _ => ?_
  · refine .bind (reservePhis_finishes h hbs) fun phis hphis => recordEach_finishes h hphis ?_
    simp only [Draft.modifyBlock, List.length_modify, (mapM_eq_ok.1 hempty).length_eq]
    exact Nat.le_refl _
  · exact .bind (fillBlocks_finishes h hbs) fun d' _ => .mapM fun B _ => resolveBlock_finishes

end Scope

/-! ## Programs -/

namespace Module

variable {m : Module} {f : FuncId} {lists : BlockId → List ValueId} {t : Target.Spec}

/-- A terminator goes to blocks of its function, or the function is astray. -/
theorem WellFormed.stray_of_exit (hm : m.WellFormed lists) {b c : BlockId} {phis body : List ValueId}
    {term : ValueId} (hb : m.funcOf b = some f) (hlist : lists b = phis ++ body ++ [term])
    (hlaid : m.Laid f phis body term) (hc : c ∈ m.exitsOf term) (hne : m.funcOf c ≠ some f) :
    m.Stray f := by
  obtain ⟨k, hk, hterm⟩ := hlaid.isTerm
  have hmem : term ∈ m.instsOf b := by
    rw [hm.instsOf_eq hb, hlist]
    exact List.mem_append_right _ (List.mem_singleton_self _)
  obtain ⟨x, hx, hxc⟩ := List.mem_filterMap.1 hc
  have hxk := blockOf?_eq_some.1 hxc
  obtain ⟨i, hi⟩ := List.getElem?_of_mem hx
  have hlabel (hlabel : m.IsLabel f x) : m.Stray f := by
    obtain ⟨c', hc', hfunc⟩ := hlabel
    cases hxk.symm.trans hc'
    exact absurd hfunc hne
  cases k with
  | ret => exact .operand hb hmem hk (Option.some_ne_none i).symm hi ⟨c, hxk, hne⟩
  | br =>
    have hfits : m.Fits f .br (m.operandsOf term) := by
      refine hlaid.fits (List.mem_append_right _ (List.mem_singleton_self _)) hk
    rcases hfits with ⟨dest, heq, hdest⟩ | ⟨cond, thenLabel, elseLabel, heq, hdata, hthen, helse⟩
    · rw [heq, List.mem_singleton] at hx
      exact hlabel (hx ▸ hdest)
    · rw [heq] at hx
      rcases List.mem_cons.1 hx with rfl | hx
      · exact absurd hxk (hdata c)
      · rcases List.mem_cons.1 hx with rfl | hx
        · exact hlabel hthen
        · rw [List.mem_singleton] at hx
          exact hlabel (hx ▸ helse)
  | phi | sext | cast | gep | load | store | call | alloca | binary | compare => cases hterm

theorem WellFormed.ofFunc_ends (hm : m.WellFormed lists) {y : Func}
    (hy : m.funcs[f.idx]? = some y) :
    Ends (Fault.Excused (m.Stray f)) (FlowGraph.ofFunc m f) fun _ => True := by
  refine .known (lookupOr_eq_ok.2 hy) ?_
  refine Ends.bind (.mapM fun b hb => ?_) fun _ _ _ => .pure trivial
  have hfunc := hm.owned.mem.2 ⟨y, hy, hb⟩
  obtain ⟨phis, body, term, hlist, hlaid⟩ := hm.laid hfunc
  refine .known (hm.successors hfunc hlist) ((Ends.mapM fun c hc => ?_))
  refine (Ends.lookup fun hnone => ?_).mono fun _ _ => trivial
  refine hm.stray_of_exit hfunc hlist hlaid (List.mem_eraseDups.1 hc) fun hfunc' => ?_
  obtain ⟨y', hy', hmem⟩ := hm.owned.mem.1 hfunc'
  cases hy.symm.trans hy'
  exact List.idxOf?_eq_none_iff.1 hnone hmem

/-- An accepted function that is not astray has its loops. -/
theorem WellFormed.loops_ends (hm : m.WellFormed lists) {y : Func}
    (hy : m.funcs[f.idx]? = some y) (hdef : y.blocks ≠ []) :
    Ends (Fault.Excused (m.Stray f)) (LoopNest.ofFunc m f) fun _ => True := by
  refine (hm.ofFunc_ends hy).bind fun g hg _ => ?_
  have hlt := (Array.getElem?_eq_some_iff.1 hy).1
  obtain ⟨g', hg', hsound, hblocks⟩ :=
    FlowGraph.exists_ofFunc hlt (FlowGraph.ownSuccessors_of_ofFunc hg)
  cases hg.symm.trans hg'
  have hsize : 0 < g.size := by
    rw [FlowGraph.size, hblocks, blocksOf_of_func hy]
    exact List.length_pos_iff.2 hdef
  obtain ⟨d, hd, -⟩ := FlowGraph.exists_dominators hsound hsize
  exact .known hd (.pure trivial)

theorem WellFormed.selectFunc_ends (hm : m.WellFormed lists) (hdeclared : m.Declared)
    (hword : 0 < t.word) {y : Func} (hy : m.funcs[f.idx]? = some y) (hdef : y.blocks ≠ []) :
    Ends (Stop.Excused (m.Stray f)) (m.selectFunc t f) fun _ => True := by
  refine .found (lookupOr_eq_ok.2 hy) ?_
  refine .bind (.lift (Frame.compute_ends hm hword hy)) fun frame _ hroomy => ?_
  refine .bind (.lift (hm.loops_ends hy hdef)) fun loops _ _ => ?_
  have hmem {b : BlockId} : b ∈ y.blocks ↔ m.funcOf b = some f := by
    rw [← hm.owned.mem_blocksOf, blocksOf_of_func hy]
  have hrooted : Scope.Rooted ⟨m, t, frame, y.blocks⟩ f lists := ⟨hm, hdeclared, hmem, hroomy⟩
  have hparams : ∀ v ∈ y.params, v.idx < m.values.size := by
    intro v hv
    obtain ⟨i, hi⟩ := List.getElem?_of_mem hv
    exact lt_of_kindOf (hm.owned.param hy hi)
  exact (Scope.selectBlocks_finishes hrooted hparams {}).bind fun _ _ _ => .pure trivial

theorem selectGlobal_ends {stray : Prop} {g : Global} :
    Ends (Fault.Excused stray) (m.selectGlobal g) fun _ => True := by
  unfold selectGlobal
  dsimp only
  split
  · exact Ends.fit.bind fun _ _ _ => .pure trivial
  · exact Ends.bind (P := fun _ => True) (.pure trivial) fun _ _ _ => .pure trivial

theorem WellFormed.select_ends (hm : m.WellFormed lists) (hdeclared : m.Declared)
    (hword : 0 < t.word) :
    Ends (Stop.Excused (∃ f, m.Stray f)) (m.select t) fun _ => True := by
  refine .bind (.lift (.mapM fun g _ => selectGlobal_ends)) fun _ _ _ => ?_
  refine Ends.bind (.mapM fun f hf => ?_) fun _ _ _ => .pure trivial
  obtain ⟨i, hi, rfl⟩ := List.mem_map.1 hf
  have hy := Array.getElem?_eq_getElem (List.mem_range.1 hi)
  refine .found (lookupOr_eq_ok.2 hy) ?_
  split
  · exact .pure trivial
  · rename_i hdecl
    refine (hm.selectFunc_ends hdeclared hword hy fun hnil => hdecl ?_).weaken fun stop hstop =>
      hstop.mono fun hstray => ⟨_, hstray⟩
    exact List.isEmpty_iff.2 hnil

/-- Selection of a program that the verifier accepts has a result or refuses the program, unless a
byte count does not fit. Only where a function is astray can a place in a table be missing. -/
theorem select_outcome (hbuilt : m.Built) (hverify : m.verify = .ok none) (hword : 0 < t.word) :
    (∃ prog, m.select t = .ok prog) ∨ (∃ e, m.select t = .error (.refused e)) ∨
      m.select t = .error (.fault .overflow) ∨
      m.select t = .error (.fault .outOfRange) ∧ ∃ f, m.Stray f := by
  obtain ⟨lists, hm⟩ := hbuilt.wellFormed hverify
  have hends := hm.select_ends hbuilt.declared hword
  cases hselect : m.select t with
  | ok prog => exact .inl ⟨prog, rfl⟩
  | error stop =>
    cases stop with
    | refused e => exact .inr (.inl ⟨e, rfl⟩)
    | fault e =>
      rcases hends.error hselect with rfl | ⟨rfl, hstray⟩
      · exact .inr (.inr (.inl rfl))
      · exact .inr (.inr (.inr ⟨rfl, hstray⟩))

/-- Calls that build a function with a variable and a call with nine arguments. A branch takes over
a comparison that is in no block. -/
def looseActions : List Action := [
  .addFunction "g" .void ((List.range 9).map fun _ => ("x", .i32)),
  .addFunction "f" .i32 [("n", .i32)], .addBlock ⟨1⟩ "entry", .addBlock ⟨1⟩ "exit",
  .createInst (.compare .slt) .bool [⟨9⟩, ⟨9⟩] none,
  .build ⟨0⟩ (.alloca .i32), .build ⟨0⟩ (.call ⟨0⟩ (List.replicate 9 ⟨9⟩)),
  .build ⟨0⟩ (.condBr ⟨12⟩ ⟨0⟩ ⟨1⟩), .build ⟨1⟩ (.ret (some ⟨9⟩))]

/-- The module that `looseActions` build. -/
def looseModule : Module := (looseActions.foldlM Action.run {}).toOption.getD {}

theorem select_outcome_loose :
    looseModule.Built ∧ looseModule.verify = .ok none ∧ 0 < riscv32.word ∧
      looseModule.TakesOver ⟨15⟩ ⟨12⟩ ∧ looseModule.linkOf ⟨12⟩ = {} ∧
      ((∃ prog, looseModule.select riscv32 = .ok prog) ∨
        (∃ e, looseModule.select riscv32 = .error (.refused e)) ∨
        looseModule.select riscv32 = .error (.fault .overflow) ∨
        looseModule.select riscv32 = .error (.fault .outOfRange) ∧ ∃ f, looseModule.Stray f) := by
  have hbuilt : looseModule.Built := ⟨looseActions, rfl⟩
  have hverify : looseModule.verify = .ok none := by decide +kernel
  refine ⟨hbuilt, hverify, by decide, ⟨⟨.slt, by decide +kernel⟩, ?_⟩, by decide +kernel, ?_⟩
  · constructor <;> decide +kernel
  · exact select_outcome hbuilt hverify (by decide)

/-- Calls that build a function that adds the label of another function's block and a number. -/
def adriftActions : List Action := [
  .addFunction "g" .void [], .addFunction "f" .i32 [],
  .addBlock ⟨0⟩ "entry", .addBlock ⟨1⟩ "entry", .build ⟨0⟩ (.ret none),
  .build ⟨1⟩ (.i32 1), .build ⟨1⟩ (.binary .add ⟨0⟩ ⟨3⟩), .build ⟨1⟩ (.ret (some ⟨4⟩))]

/-- The module that `adriftActions` build. -/
def adriftModule : Module := (adriftActions.foldlM Action.run {}).toOption.getD {}

/-- Calls that build a function with a branch on a comparison that is in no block and has no
operands. -/
def bareTestActions : List Action := [
  .addFunction "f" .void [], .addBlock ⟨0⟩ "entry", .addBlock ⟨0⟩ "exit",
  .createInst (.compare .eq) .bool [] none,
  .build ⟨0⟩ (.condBr ⟨2⟩ ⟨1⟩ ⟨1⟩), .build ⟨1⟩ (.ret none)]

/-- The module that `bareTestActions` build. -/
def bareTestModule : Module := (bareTestActions.foldlM Action.run {}).toOption.getD {}

/-- The verifier accepts both programs, and selection does not refuse them but fails. -/
theorem select_fails_astray :
    (adriftModule.Built ∧ adriftModule.verify = .ok none ∧
      adriftModule.select riscv32 = .error (.fault .outOfRange)) ∧
    bareTestModule.Built ∧ bareTestModule.verify = .ok none ∧
      bareTestModule.select riscv32 = .error (.fault .outOfRange) := by
  refine ⟨⟨⟨adriftActions, rfl⟩, ?_, ?_⟩, ⟨bareTestActions, rfl⟩, ?_, ?_⟩ <;> decide +kernel

end Module

end SsaCodegen
