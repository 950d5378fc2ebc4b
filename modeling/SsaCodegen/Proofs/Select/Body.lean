import SsaCodegen.Proofs.Select.Operand

/-!
# Code for single instructions

The code that is selected for an instruction does to registers and world what the 32-bit dialect
says the instruction does: from a state in which its operands have their words, it leads to one in
which its register has its result, the world is as it should be, and nothing else has changed that a
later instruction could read.

## Main definitions

* `Scope.Evaluates` — the machine has evaluated an instruction
* `Scope.Performs` — a piece of code evaluates an instruction

## Main results

* `Scope.lowerBinary_performs` and its like, one for each kind of instruction but calls
-/

namespace SsaCodegen

open Target SelectM Registers

/-! ## Operators -/

theorem BinOp.compute_opcode (op : BinOp) (x y : Word) :
    op.opcode.compute [x, y] = some (op.apply x y) := by
  cases op <;> rfl

theorem Word.sub_eq_zero {x y : Word} : x - y = 0#32 ↔ x = y := by
  constructor
  · intro h
    rw [← BitVec.sub_add_cancel x y, h]
    exact BitVec.zero_add y
  · rintro rfl
    exact BitVec.sub_self x

theorem Word.ofBool_xor_one (b : Bool) : Word.ofBool b ^^^ .lit 1 = Word.ofBool !b := by
  cases b <;> rfl

/-- The operation of a comparison that needs no second one. -/
theorem CmpOp.compute_single {op : CmpOp} {first : Opcode} (h : op.opcodes = (first, none))
    (x y : Word) : first.compute [x, y] = some (.ofBool (op.test x y)) := by
  cases op <;> cases h <;> rfl

/-- The two operations of a comparison, the second of which may take the number one. -/
theorem CmpOp.compute_pair {op : CmpOp} {first finish : Opcode}
    (h : op.opcodes = (first, some finish)) (x y : Word) :
    ∃ t, first.compute [x, y] = some t ∧
      finish.compute (t :: if finish = .xori then [.lit 1] else []) =
        some (.ofBool (op.test x y)) := by
  cases op with
  | slt | sgt => cases h
  | eq =>
    cases h
    refine ⟨x - y, rfl, ?_⟩
    simp [Opcode.compute, CmpOp.test, Word.sub_eq_zero]
  | ne =>
    cases h
    refine ⟨x ^^^ y, rfl, ?_⟩
    simp [Opcode.compute, CmpOp.test]
  | sge =>
    cases h
    refine ⟨_, rfl, ?_⟩
    simp only [if_true, Opcode.compute, Word.ofBool_xor_one, CmpOp.test, BitVec.sle_eq_not_slt]
  | sle =>
    cases h
    refine ⟨_, rfl, ?_⟩
    simp only [if_true, Opcode.compute, Word.ofBool_xor_one, CmpOp.test, BitVec.sle_eq_not_slt]

namespace Scope

/-! ## Evaluating an instruction -/

variable {sc : Scope} {p : Platform} {a : Activation} {s s₁ s' S : Registers} {st st₁ st' : State}
  {v : ValueId} {args : List Word} {code : Code}

/-- The machine has evaluated an instruction on words that its operands had. -/
structure Evaluates (sc : Scope) (p : Platform) (a : Activation) (s s' S : Registers) (v : ValueId)
    (args : List Word) (st st' : State) : Prop where
  world : st'.world = ((Dialect.word sc.module p a).exec v args st.world).2
  result : ∀ {w r}, ((Dialect.word sc.module p a).exec v args st.world).1 = some w →
    S.held.lookup v = some r → st'.get r = w
  kept : ∀ {q}, State.isKept q = true → S.held.lookup v ≠ some q → ¬Scratch s s' q →
    st'.get q = st.get q

/-- A piece of code, selected between two states of the registers, evaluates an instruction. -/
structure Performs (sc : Scope) (p : Platform) (a : Activation) (s s' : Registers) (v : ValueId)
    (code : Code) : Prop where
  grows : Grows s s'
  evaluates : ∀ {S st args}, Grows s' S →
    List.Forall₂ (sc.Stands p S st) (sc.module.operandsOf v) args → st.get State.sp = a.base →
    ∃ st', Does p code st st' ∧ sc.Evaluates p a s s' S v args st st'

/-- An instruction that has a result and leaves the world alone. -/
theorem Evaluates.of_writes {dst : Reg} {w : Word} (hw : Writes s s' dst w st st')
    (hheld : S.held.lookup v = some dst)
    (hexec : (Dialect.word sc.module p a).exec v args st.world = (some w, st.world)) :
    sc.Evaluates p a s s' S v args st st' where
  world := by rw [hexec, hw.world]
  result {w' r} hr hr' := by
    cases hheld.symm.trans hr'
    rw [hexec] at hr
    rw [hw.value, Option.some.inj hr]
  kept {q} _ hq hs := hw.get (fun heq => hq (heq ▸ hheld)) hs

/-! ## Instructions by kind -/

section Instructions

variable (hz : sc.target.zero = riscv32.zero) (hs : s.Wf)
include hz hs

/-- The code for the two operands of an instruction. -/
theorem operandPair_ok {l r : ValueId} {lr rr : Reg} (ho : sc.module.operandsOf v = [l, r])
    (h : sc.operandPair v s = .ok ((lr, rr, code), s')) :
    Grows s s' ∧ ∀ {S st x y}, Grows s' S → sc.Stands p S st l x →
      sc.Stands p S st r y →
      ∃ st', Does p code st st' ∧ Quiet s s' st st' ∧ st'.get lr = x ∧ st'.get rr = y := by
  obtain ⟨l', hl', h⟩ := lift_bind_ok.1 h
  obtain ⟨⟨lr', lcode⟩, s₂, hlr, h⟩ := bind_ok.1 h
  obtain ⟨r', hr', h⟩ := lift_bind_ok.1 h
  obtain ⟨⟨rr', rcode⟩, s₃, hrr, h⟩ := bind_ok.1 h
  obtain ⟨heq, rfl⟩ := pure_ok.1 h
  cases heq
  have hl' := Module.operandsOf_of_operand hl'
  have hr' := Module.operandsOf_of_operand hr'
  rw [ho] at hl' hr'
  cases hl'
  cases hr'
  exact regOf_regOf_ok hz hs hlr hrr

theorem lowerBinary_performs {op : BinOp} (hk : sc.module.kindOf v = some (.inst (.binary op)))
    (hlen : (sc.module.operandsOf v).length = 2) (h : sc.lowerBinary v op s = .ok (code, s')) :
    sc.Performs p a s s' v code := by
  obtain ⟨l, r, ho⟩ := List.length_eq_two.1 hlen
  obtain ⟨⟨lr, rr, pairCode⟩, s₁, hpair, h⟩ := bind_ok.1 h
  obtain ⟨dst, s₂, hdst, h⟩ := bind_ok.1 h
  obtain ⟨rfl, rfl⟩ := pure_ok.1 h
  obtain ⟨hg, hcode⟩ := operandPair_ok (p := p) hz hs ho hpair
  obtain ⟨hg', hheld⟩ := valueReg_ok hdst
  refine ⟨hg.trans hg', fun {S st args} hS hargs _ => ?_⟩
  rw [ho] at hargs
  obtain ⟨x, y, hx, hy, rfl⟩ := Dialect.forall₂_pair.1 hargs
  obtain ⟨st₁, hdoes, hquiet, hlr, hrr⟩ := hcode (hg'.trans hS) hx hy
  have hstep : op.opcode.compute [st₁.get lr, st₁.get rr] = some (op.apply x y) := by
    rw [hlr, hrr, BinOp.compute_opcode]
  refine ⟨_, hdoes.append (.single (step_onRegs p st₁ dst lr rr hstep)), ?_⟩
  refine .of_writes (hquiet.set hg hg' ((hg.trans hg').wf hs) hheld _) (hS.lookup hheld) ?_
  simp [Dialect.word, hk]

/-- The code for a comparison leaves its verdict in its register. -/
theorem lowerCompare_ok {op : CmpOp} {l r : ValueId} (ho : sc.module.operandsOf v = [l, r])
    (h : sc.lowerCompare v op s = .ok (code, s')) :
    Grows s s' ∧ ∃ dst, s'.held.lookup v = some dst ∧ ∀ {S st x y}, Grows s' S →
      sc.Stands p S st l x → sc.Stands p S st r y →
      ∃ st', Does p code st st' ∧ Writes s s' dst (.ofBool (op.test x y)) st st' := by
  obtain ⟨⟨lr, rr, pairCode⟩, s₁, hpair, h⟩ := bind_ok.1 h
  obtain ⟨dst, s₂, hdst, h⟩ := bind_ok.1 h
  obtain ⟨hg, hcode⟩ := operandPair_ok (p := p) hz hs ho hpair
  obtain ⟨hg', hheld⟩ := valueReg_ok hdst
  have hs₂ := (hg.trans hg').wf hs
  dsimp only at h
  rcases hops : op.opcodes with ⟨first, finish⟩
  rw [hops] at h
  cases finish with
  | none =>
    obtain ⟨rfl, rfl⟩ := pure_ok.1 h
    refine ⟨hg.trans hg', dst, hheld, fun {S st x y} hS hx hy => ?_⟩
    obtain ⟨st₁, hdoes, hquiet, hlr, hrr⟩ := hcode (hg'.trans hS) hx hy
    have hstep : first.compute [st₁.get lr, st₁.get rr] = some (.ofBool (op.test x y)) := by
      rw [hlr, hrr, CmpOp.compute_single hops]
    exact ⟨_, hdoes.append (.single (step_onRegs p st₁ dst lr rr hstep)),
      hquiet.set hg hg' hs₂ hheld _⟩
  | some finish =>
    obtain ⟨tmp, s₃, htmp, h⟩ := bind_ok.1 h
    obtain ⟨rfl, rfl⟩ := pure_ok.1 h
    obtain ⟨hg₃, hscratch, hhas⟩ := fresh_ok hs₂ htmp
    have hne := hhas.ne_zero
    refine ⟨(hg.trans hg').trans hg₃, dst, hg₃.lookup hheld, fun {S st x y} hS hx hy => ?_⟩
    obtain ⟨st₁, hdoes, hquiet, hlr, hrr⟩ := hcode (hg'.trans (hg₃.trans hS)) hx hy
    obtain ⟨t, hfirst, hfinish⟩ := CmpOp.compute_pair hops x y
    have hstep : first.compute [st₁.get lr, st₁.get rr] = some t := by rw [hlr, hrr, hfirst]
    have htmp : (st₁.set tmp t).get tmp = t := st₁.get_set_self t hne
    have hstep' : (Inst.mk finish (some dst)
        (.reg tmp :: if finish = .xori then [.imm 1] else [])).step p (st₁.set tmp t) =
        .next ((st₁.set tmp t).set dst (.ofBool (op.test x y))) := by
      refine step_compute p _ dst ?_ hfinish
      split <;> simp [State.value?, htmp]
    refine ⟨_, hdoes.append (.cons (step_onRegs p st₁ tmp lr rr hstep) (.single hstep')), ?_⟩
    have hquiet' : Quiet s₂ s₃ st₁ (st₁.set tmp t) := (Writes.set s₂ s₃ st₁ t hne).quiet hscratch
    have hquiet₂ := (hquiet.trans .refl hg hg').trans hquiet' (hg.trans hg') hg₃
    exact hquiet₂.set ((hg.trans hg').trans hg₃) .refl (hg₃.wf hs₂) (hg₃.lookup hheld) _

theorem lowerCompare_performs {op : CmpOp} (hk : sc.module.kindOf v = some (.inst (.compare op)))
    (hlen : (sc.module.operandsOf v).length = 2) (h : sc.lowerCompare v op s = .ok (code, s')) :
    sc.Performs p a s s' v code := by
  obtain ⟨l, r, ho⟩ := List.length_eq_two.1 hlen
  obtain ⟨hg, dst, hheld, hcode⟩ := lowerCompare_ok (p := p) hz hs ho h
  refine ⟨hg, fun {S st args} hS hargs _ => ?_⟩
  rw [ho] at hargs
  obtain ⟨x, y, hx, hy, rfl⟩ := Dialect.forall₂_pair.1 hargs
  obtain ⟨st', hdoes, hwrites⟩ := hcode hS hx hy
  exact ⟨st', hdoes, .of_writes hwrites (hS.lookup hheld) (by simp [Dialect.word, hk])⟩

/-- A sign extension or a change of type. -/
theorem lowerMove_performs {k : InstKind} (hk : sc.module.kindOf v = some (.inst k))
    (hmove : k = .sext ∨ k = .cast) (hlen : (sc.module.operandsOf v).length = 1)
    (h : sc.lowerMove v s = .ok (code, s')) : sc.Performs p a s s' v code := by
  obtain ⟨o, ho⟩ := List.length_eq_one_iff.1 hlen
  obtain ⟨o', ho', h⟩ := lift_bind_ok.1 h
  obtain ⟨⟨src, srcCode⟩, s₁, hsrc, h⟩ := bind_ok.1 h
  obtain ⟨dst, s₂, hdst, h⟩ := bind_ok.1 h
  obtain ⟨rfl, rfl⟩ := pure_ok.1 h
  have ho' := Module.operandsOf_of_operand ho'
  rw [ho] at ho'
  cases ho'
  obtain ⟨hg, -, hcode⟩ := regOf_ok (p := p) hz hs hsrc
  obtain ⟨hg', hheld⟩ := valueReg_ok hdst
  refine ⟨hg.trans hg', fun {S st args} hS hargs _ => ?_⟩
  rw [ho] at hargs
  obtain ⟨x, hx, rfl⟩ := Dialect.forall₂_singleton.1 hargs
  obtain ⟨st₁, hdoes, hquiet, hget⟩ := hcode (hg'.trans hS) hx
  refine ⟨_, hdoes.append (.single (step_mv p st₁ dst src)), ?_⟩
  rw [hget]
  refine .of_writes (hquiet.set hg hg' ((hg.trans hg').wf hs) hheld _) (hS.lookup hheld) ?_
  rcases hmove with rfl | rfl <;> simp [Dialect.word, hk]

omit hz in
theorem lowerAlloca_performs {slot : Ty} (ht : sc.target = riscv32)
    (hk : sc.module.kindOf v = some (.inst (.alloca slot))) (hframe : sc.frame = a.frame)
    (h : sc.lowerAlloca v s = .ok (code, s')) :
    sc.Performs p a s s' v code := by
  unfold lowerAlloca at h
  rw [hframe, ht] at h
  cases hslot : a.frame.slotOffset? v with
  | none =>
    rw [hslot] at h
    exact absurd h halt_ne_ok
  | some offset =>
    rw [hslot] at h
    obtain ⟨dst, s₁, hdst, h⟩ := bind_ok.1 h
    obtain ⟨hg, hheld⟩ := valueReg_ok hdst
    have hs₁ := hg.wf hs
    obtain ⟨hg', hcode⟩ := addOffset_ok (p := p) rfl hs₁ (hs₁.virt hheld).ne_zero (s₁.knows_phys _)
      h
    refine ⟨hg.trans hg', fun {S st args} hS _ hsp => ?_⟩
    obtain ⟨st', hdoes, hwrites⟩ := hcode st
    refine ⟨st', hdoes, .of_writes (Quiet.refl.trans_writes hwrites hg hg')
      (hS.lookup (hg'.lookup hheld)) ?_⟩
    show _ = (some (st.get State.sp + _), _)
    simp [Dialect.word, hk, Activation.slot, hslot, hsp, Word.lit_ofNat]

omit hz hs in
theorem pointee_found {ptr : ValueId} {ty : Ty} (h : sc.pointee v ptr s = .ok (ty, s')) :
    (sc.module.tyOf ptr).bind Ty.pointee = some ty ∧ s = s' := by
  obtain ⟨ptrTy, hty, h⟩ := lift_bind_ok.1 h
  cases hp : ptrTy.pointee with
  | none =>
    rw [hp] at h
    exact absurd h refuse_ne_ok
  | some ty' =>
    rw [hp] at h
    obtain ⟨rfl, rfl⟩ := pure_ok.1 h
    exact ⟨by rw [Module.tyOf_of_ty hty, Option.bind_some, hp], rfl⟩

omit hz hs in
theorem pointee_ok {ptr : ValueId} {ty : Ty} (h : sc.pointee v ptr s = .ok (ty, s')) :
    sc.module.pointeeOf ptr = ty ∧ s = s' := by
  obtain ⟨hty, rfl⟩ := pointee_found h
  exact ⟨by rw [Module.pointeeOf, hty]; rfl, rfl⟩

omit hz hs in
theorem loadOp_ok {size : Nat} {op : Opcode} (h : loadOp v size s = .ok (op, s')) :
    op.loadSize? = some size ∧ s = s' := by
  unfold loadOp at h
  cases hop : loadOp? size with
  | none =>
    rw [hop] at h
    exact absurd h refuse_ne_ok
  | some op' =>
    rw [hop] at h
    obtain ⟨rfl, rfl⟩ := pure_ok.1 h
    refine ⟨?_, rfl⟩
    unfold loadOp? at hop
    split at hop <;> cases hop <;> rfl

omit hz hs in
theorem storeOp_ok {size : Nat} {op : Opcode} (h : storeOp v size s = .ok (op, s')) :
    op.storeSize? = some size ∧ s = s' := by
  unfold storeOp at h
  cases hop : storeOp? size with
  | none =>
    rw [hop] at h
    exact absurd h refuse_ne_ok
  | some op' =>
    rw [hop] at h
    obtain ⟨rfl, rfl⟩ := pure_ok.1 h
    refine ⟨?_, rfl⟩
    unfold storeOp? at hop
    split at hop <;> cases hop <;> rfl

theorem lowerLoad_performs (hk : sc.module.kindOf v = some (.inst .load))
    (hlen : (sc.module.operandsOf v).length = 1) (h : sc.lowerLoad v s = .ok (code, s')) :
    sc.Performs p a s s' v code := by
  obtain ⟨ptr, ho⟩ := List.length_eq_one_iff.1 hlen
  obtain ⟨ptr', hptr, h⟩ := lift_bind_ok.1 h
  have hptr := Module.operandsOf_of_operand hptr
  rw [ho] at hptr
  cases hptr
  obtain ⟨ty, s₁, hty, h⟩ := bind_ok.1 h
  obtain ⟨rfl, rfl⟩ := pointee_ok hty
  obtain ⟨op, s₁, hop, h⟩ := bind_ok.1 h
  obtain ⟨hsize, rfl⟩ := loadOp_ok hop
  obtain ⟨⟨mem, memCode⟩, s₁, hmem, h⟩ := bind_ok.1 h
  obtain ⟨dst, s₂, hdst, h⟩ := bind_ok.1 h
  obtain ⟨rfl, rfl⟩ := pure_ok.1 h
  obtain ⟨hg, hcode⟩ := address_ok (p := p) hz hs hmem
  obtain ⟨hg', hheld⟩ := valueReg_ok hdst
  refine ⟨hg.trans hg', fun {S st args} hS hargs _ => ?_⟩
  rw [ho] at hargs
  obtain ⟨x, hx, rfl⟩ := Dialect.forall₂_singleton.1 hargs
  obtain ⟨st₁, hdoes, hquiet, haddr⟩ := hcode (hg'.trans hS) hx
  refine ⟨_, hdoes.append (.single (step_load p st₁ dst mem hsize)), ?_⟩
  rw [haddr, hquiet.world]
  refine .of_writes (hquiet.set hg hg' ((hg.trans hg').wf hs) hheld _) (hS.lookup hheld) ?_
  simp [Dialect.word, hk, ho]

theorem lowerStore_performs (hk : sc.module.kindOf v = some (.inst .store))
    (hlen : (sc.module.operandsOf v).length = 2) (h : sc.lowerStore v s = .ok (code, s')) :
    sc.Performs p a s s' v code := by
  obtain ⟨value, ptr, ho⟩ := List.length_eq_two.1 hlen
  obtain ⟨value', hvalue, h⟩ := lift_bind_ok.1 h
  obtain ⟨ptr', hptr, h⟩ := lift_bind_ok.1 h
  have hvalue := Module.operandsOf_of_operand hvalue
  have hptr := Module.operandsOf_of_operand hptr
  rw [ho] at hvalue hptr
  cases hvalue
  cases hptr
  obtain ⟨ty, s₁, hty, h⟩ := bind_ok.1 h
  obtain ⟨rfl, rfl⟩ := pointee_ok hty
  obtain ⟨op, s₁, hop, h⟩ := bind_ok.1 h
  obtain ⟨hsize, rfl⟩ := storeOp_ok hop
  obtain ⟨⟨src, valueCode⟩, s₁, hsrc, h⟩ := bind_ok.1 h
  obtain ⟨⟨mem, ptrCode⟩, s₂, hmem, h⟩ := bind_ok.1 h
  obtain ⟨rfl, rfl⟩ := pure_ok.1 h
  obtain ⟨hg, hhas, hcode⟩ := regOf_ok (p := p) hz hs hsrc
  obtain ⟨hg', hcode'⟩ := address_ok (p := p) hz (hg.wf hs) hmem
  refine ⟨hg.trans hg', fun {S st args} hS hargs _ => ?_⟩
  rw [ho] at hargs
  obtain ⟨w, x, hw, hx, rfl⟩ := Dialect.forall₂_pair.1 hargs
  obtain ⟨st₁, hdoes, hquiet, hget⟩ := hcode (hg'.trans hS) hw
  obtain ⟨st₂, hdoes', hquiet', haddr⟩ := hcode' hS (hx.quiet hquiet (hg'.trans hS))
  have hget' : st₂.get src = w := by rw [hquiet'.get hhas.knows.not_scratch, hget]
  have hquiet₂ := hquiet.trans hquiet' hg hg'
  refine ⟨_, (hdoes.append hdoes').append (.single (step_store p st₂ src mem hsize)), ?_, ?_, ?_⟩
  · simp [Dialect.word, hk, ho, haddr, hget', hquiet₂.world]
  · intro w' r hw'
    simp [Dialect.word, hk, ho] at hw'
  · exact fun _ _ hq => hquiet₂.get hq

/-! ## Addresses of fields and elements -/

omit hz hs in
/-- A field that has an offset is one of the layout that its class has. -/
theorem fieldOffset_found {index : ValueId} {ty : Ty} {offset : Nat}
    (h : sc.fieldOffset v ty index s = .ok (offset, s')) :
    s = s' ∧ ∃ layout n, ty.className.bind sc.module.types.layout? = some layout ∧
      sc.module.constOf index = some n ∧ 0 ≤ n ∧ layout.offset n.toInt.toNat = some offset := by
  unfold fieldOffset at h
  cases hl : ty.className.bind sc.module.types.layout? with
  | none =>
    rw [hl] at h
    exact absurd h refuse_ne_ok
  | some layout =>
    rw [hl] at h
    obtain ⟨kind, hkind, h⟩ := lift_bind_ok.1 h
    cases hn : kind.asConstInt with
    | none =>
      rw [hn] at h
      exact absurd h refuse_ne_ok
    | some n =>
      rw [hn] at h
      dsimp only at h
      by_cases hneg : n < 0
      · rw [if_pos hneg] at h
        exact absurd h refuse_ne_ok
      · rw [if_neg hneg] at h
        cases ho : layout.offset n.toInt.toNat with
        | none =>
          rw [ho] at h
          exact absurd h refuse_ne_ok
        | some offset' =>
          rw [ho] at h
          obtain ⟨rfl, rfl⟩ := pure_ok.1 h
          refine ⟨rfl, layout, n, rfl, ?_, Int64.not_lt.1 hneg, ho⟩
          rw [Module.constOf, Module.kindOf_of_kind hkind, Option.bind_some, hn]

omit hz hs in
theorem fieldOffset_ok {base index : ValueId} {offset : Nat}
    (h : sc.fieldOffset v (sc.module.pointeeOf base) index s = .ok (offset, s')) :
    sc.module.fieldOffsetOf base index = offset ∧ s = s' := by
  obtain ⟨rfl, layout, n, hl, hn, -, ho⟩ := fieldOffset_found h
  refine ⟨?_, rfl⟩
  rw [Module.fieldOffsetOf, hl, Option.bind_some, hn, Option.bind_some, ho]
  rfl

/-- The code for the address of an element adds the index times the size. -/
theorem lowerElement_ok {index : ValueId} {ty : Ty} {dst base : Reg} (hdst : dst ≠ State.zero)
    (hbase : s.Knows base) (h : sc.lowerElement v index ty dst base s = .ok (code, s')) :
    Grows s s' ∧ ∀ {S st i}, Grows s' S → sc.Stands p S st index i → ∃ st', Does p code st st' ∧
      Writes s s' dst (st.get base + i * .ofNat 32 (sc.module.types.size ty)) st st' := by
  obtain ⟨kind, hkind, h⟩ := lift_bind_ok.1 h
  have hk := Module.kindOf_of_kind hkind
  cases hn : kind.asConstInt with
  | some n =>
    rw [hn] at h
    obtain ⟨hg, hcode⟩ := addOffset_ok (p := p) hz hs hdst hbase h
    refine ⟨hg, fun {S st i} _ hi => ?_⟩
    have hi : i = .lit n := by
      cases kind with
      | const c =>
        rw [Stands, hk] at hi
        exact hi n hn
      | global | param | block | inst => cases hn
    obtain ⟨st', hdoes, hwrites⟩ := hcode st
    refine ⟨st', hdoes, ?_⟩
    rwa [Word.lit_mul, Word.lit_ofNat, ← hi] at hwrites
  | none =>
    rw [hn] at h
    obtain ⟨⟨ir, icode⟩, s₁, hindex, h⟩ := bind_ok.1 h
    obtain ⟨⟨scale, scaleCode⟩, s₂, hscale, h⟩ := bind_ok.1 h
    obtain ⟨offset, s₃, hoffset, h⟩ := bind_ok.1 h
    obtain ⟨rfl, rfl⟩ := pure_ok.1 h
    obtain ⟨hg, hhas, hcode⟩ := regOf_ok (p := p) hz hs hindex
    obtain ⟨hg', -, hcode'⟩ := loadImm_ok (p := p) hz (hg.wf hs) hscale
    obtain ⟨hg₃, hscratch, hhas'⟩ := fresh_ok ((hg.trans hg').wf hs) hoffset
    have hne := hhas'.ne_zero
    refine ⟨(hg.trans hg').trans hg₃, fun {S st i} hS hi => ?_⟩
    obtain ⟨st₁, hdoes, hquiet, hir⟩ := hcode (hg'.trans (hg₃.trans hS)) hi
    obtain ⟨st₂, hdoes', hquiet', hsc⟩ := hcode' st₁
    have hquiet₂ := hquiet.trans hquiet' hg hg'
    have hmul : Opcode.mul.compute [st₂.get ir, st₂.get scale] =
        some (i * .ofNat 32 (sc.module.types.size ty)) := by
      rw [hquiet'.get hhas.knows.not_scratch, hir, hsc, Word.lit_ofNat]
      rfl
    let st₃ := st₂.set offset (i * .ofNat 32 (sc.module.types.size ty))
    have hquiet₃ : Quiet s s₃ st st₃ :=
      hquiet₂.trans ((Writes.set s₂ s₃ st₂ _ hne).quiet hscratch) (hg.trans hg') hg₃
    have hadd : Opcode.add.compute [st₃.get base, st₃.get offset] =
        some (st.get base + i * .ofNat 32 (sc.module.types.size ty)) := by
      rw [hquiet₃.get hbase.not_scratch, st₂.get_set_self _ hne]
      rfl
    refine ⟨_, (hdoes.append hdoes').append
      (.cons (step_onRegs p st₂ offset ir scale hmul)
        (.single (step_onRegs p st₃ dst base offset hadd))), ?_⟩
    exact hquiet₃.trans_writes (.set s₃ s₃ st₃ _ hdst) ((hg.trans hg').trans hg₃) .refl

omit hz hs in
/-- The code for an address is the code for its base and code that adds something to it. -/
theorem lowerGep_parts {needsZero : Bool} (h : sc.lowerGep v needsZero s = .ok (code, s')) :
    ∃ base index ty br bcode s₁ dst s₂ rest, (sc.module.operandsOf v)[0]? = some base ∧
      (sc.module.operandsOf v)[1]? = some index ∧
      (sc.module.tyOf base).bind Ty.pointee = some ty ∧
      sc.regOf v base s = .ok ((br, bcode), s₁) ∧ sc.valueReg v s₁ = .ok (dst, s₂) ∧
      (if needsZero = true then sc.lowerField v index ty dst br
        else sc.lowerElement v index ty dst br) s₂ = .ok (rest, s') ∧ code = bcode ++ rest := by
  obtain ⟨base, hbase, h⟩ := lift_bind_ok.1 h
  obtain ⟨index, hindex, h⟩ := lift_bind_ok.1 h
  obtain ⟨ty, s₁, hfound, h⟩ := bind_ok.1 h
  obtain ⟨hty, rfl⟩ := pointee_found hfound
  obtain ⟨⟨br, bcode⟩, s₁, hbr, h⟩ := bind_ok.1 h
  obtain ⟨dst, s₂, hdst, h⟩ := bind_ok.1 h
  refine ⟨base, index, ty, br, bcode, s₁, dst, s₂, ?_⟩
  cases needsZero with
  | true | false =>
    obtain ⟨rest, s₃, hrest, h⟩ := bind_ok.1 h
    obtain ⟨rfl, rfl⟩ := pure_ok.1 h
    exact ⟨rest, Module.operandsOf_of_operand hbase, Module.operandsOf_of_operand hindex, hty, hbr,
      hdst, hrest, rfl⟩

/-- Code that adds something to the base of an address, after the code for the base. -/
theorem regOf_adds {base : ValueId} {br dst : Reg} {bcode : Code} {s₂ : Registers}
    (hbr : sc.regOf v base s = .ok ((br, bcode), s₁)) (hdst : sc.valueReg v s₁ = .ok (dst, s₂)) :
    Grows s s₂ ∧ s₂.held.lookup v = some dst ∧ s₂.Knows br ∧ ∀ {s' S st x off rest},
      Grows s₂ s' → Grows s' S → sc.Stands p S st base x →
      (∀ {st₁}, Quiet s s₁ st st₁ → ∃ st', Does p rest st₁ st' ∧
        Writes s₂ s' dst (st₁.get br + off) st₁ st') →
      ∃ st', Does p (bcode ++ rest) st st' ∧ Writes s s' dst (x + off) st st' := by
  obtain ⟨hg, hhas, hcode⟩ := regOf_ok (p := p) hz hs hbr
  obtain ⟨hg', hheld⟩ := valueReg_ok hdst
  refine ⟨hg.trans hg', hheld, (hg'.has hhas).knows, fun hg₂ hS hx hrest => ?_⟩
  obtain ⟨st₁, hdoes, hquiet, hget⟩ := hcode (hg'.trans (hg₂.trans hS)) hx
  obtain ⟨st', hdoes', hwrites⟩ := hrest hquiet
  rw [hget] at hwrites
  exact ⟨st', hdoes.append hdoes',
    (hquiet.trans .refl hg hg').trans_writes hwrites (hg.trans hg') hg₂⟩

theorem lowerGep_performs {needsZero : Bool}
    (hk : sc.module.kindOf v = some (.inst (.gep needsZero)))
    (hlen : (sc.module.operandsOf v).length = 2) (h : sc.lowerGep v needsZero s = .ok (code, s')) :
    sc.Performs p a s s' v code := by
  obtain ⟨base, index, ho⟩ := List.length_eq_two.1 hlen
  obtain ⟨base', index', ty, br, bcode, s₁, dst, s₂, rest, hbase, hindex, hty, hbr, hdst, hrest,
    rfl⟩ := lowerGep_parts h
  rw [ho] at hbase hindex
  cases hbase
  cases hindex
  obtain rfl : sc.module.pointeeOf base = ty := by rw [Module.pointeeOf, hty]; rfl
  obtain ⟨hg, hheld, hknows, hadds⟩ := regOf_adds (p := p) hz hs hbr hdst
  have hs₂ := hg.wf hs
  have hne := (hs₂.virt hheld).ne_zero
  -- whatever offset the rest of the code adds to the base
  have hperforms (off : Word → Word) (hg₂ : Grows s₂ s')
      (hadd : ∀ {S st i}, Grows s' S → sc.Stands p S st index i → ∃ st', Does p rest st st' ∧
        Writes s₂ s' dst (st.get br + off i) st st')
      (hexec : ∀ {x i world}, (Dialect.word sc.module p a).exec v [x, i] world =
        (some (x + off i), world)) : sc.Performs p a s s' v (bcode ++ rest) := by
    refine ⟨hg.trans hg₂, fun {S st args} hS hargs _ => ?_⟩
    rw [ho] at hargs
    obtain ⟨x, i, hx, hi, rfl⟩ := Dialect.forall₂_pair.1 hargs
    have hg₁ := (valueReg_ok hdst).1.trans (hg₂.trans hS)
    obtain ⟨st', hdoes, hwrites⟩ :=
      hadds hg₂ hS hx fun hquiet => hadd hS (hi.quiet hquiet hg₁)
    exact ⟨st', hdoes, .of_writes hwrites (hS.lookup (hg₂.lookup hheld)) hexec⟩
  cases needsZero with
  | true =>
    obtain ⟨offset, s₃, hoffset, hfield⟩ := bind_ok.1 hrest
    obtain ⟨hoff, rfl⟩ := fieldOffset_ok hoffset
    obtain ⟨hg₂, hadd⟩ := addOffset_ok (p := p) hz hs₂ hne hknows hfield
    refine hperforms (fun _ => .ofNat 32 offset) hg₂ (fun {S st i} _ _ => ?_) ?_
    · rw [← Word.lit_ofNat]
      exact hadd st
    · intro x i world
      simp [Dialect.word, hk, ho, hoff]
  | false =>
    obtain ⟨hg₂, hadd⟩ := lowerElement_ok (p := p) hz hs₂ hne hknows hrest
    refine hperforms _ hg₂ hadd ?_
    intro x i world
    simp [Dialect.word, hk, ho]

end Instructions

end Scope

end SsaCodegen
