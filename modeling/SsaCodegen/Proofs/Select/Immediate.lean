import SsaCodegen.Proofs.Select.Registers

/-!
# Numbers in registers

The two parts of a number add up to its low 32 bits, so a number is in a register after the code that
loads it, however large it is. What holds of numbers holds of offsets from a register and from the
stack pointer.

## Main results

* `Word.lit_splitImm` — the two parts of a number
* `Target.loadImm_ok`, `addOffset_ok`, `adjustStack_ok`, `stackSlot_ok` — what the code
  for numbers and offsets does
-/

namespace SsaCodegen

namespace Word

/-! ## The low bits of numbers -/

@[simp] theorem lit_zero : lit 0 = 0#32 := rfl

theorem lit_toInt32 (n : Int64) : n.toInt32.toBitVec = lit n := by
  rw [Int64.toBitVec_toInt32, lit, BitVec.signExtend_eq_setWidth_of_le _ (by decide)]

theorem lit_add (a b : Int64) : lit (a + b) = lit a + lit b := by
  rw [lit, lit, lit, Int64.toBitVec_add, BitVec.setWidth_add _ _ (by decide)]

theorem lit_mul (a b : Int64) : lit (a * b) = lit a * lit b := by
  rw [lit, lit, lit, Int64.toBitVec_mul, BitVec.setWidth_mul _ _ (by decide)]

theorem lit_neg (a : Int64) : lit (-a) = -lit a := by
  rw [lit, lit, Int64.toBitVec_neg]
  apply BitVec.eq_of_toNat_eq
  simp only [BitVec.toNat_setWidth, BitVec.toNat_neg]
  omega

theorem lit_ofNat (n : Nat) : lit (Int64.ofNat n) = .ofNat 32 n := by
  rw [lit, Int64.toBitVec_ofNat']
  apply BitVec.eq_of_toNat_eq
  simp only [BitVec.toNat_setWidth, BitVec.toNat_ofNat]
  omega

theorem lit_signExtend32 (n : Int64) : lit (signExtend32 n) = lit n := by
  rw [signExtend32, lit, Int32.toBitVec_toInt64, ← lit_toInt32]
  apply BitVec.eq_of_getLsbD_eq
  intro i hi
  have hi' : i < 64 := by omega
  rw [BitVec.getLsbD_setWidth, BitVec.getLsbD_signExtend]
  simp only [hi, hi', decide_true, Bool.true_and, if_true]

/-! ## The two parts of a number -/

/-- To flip the highest bit of a number of 12 bits is to add it. -/
theorem xor_bit_eleven {y : Nat} (hy : y < 4096) : y ^^^ 2048 = (y + 2048) % 4096 := by
  have h : ∀ a < 64, ∀ b < 64, (64 * a + b) ^^^ 2048 = (64 * a + b + 2048) % 4096 := by
    decide +kernel
  have hy' := h (y / 64) (by omega) (y % 64) (by omega)
  rwa [Nat.div_add_mod] at hy'

/-- Without its lower part a number ends in twelve zeros. -/
theorem sub_lower_mod (n : Int64) :
    (n - (((n &&& 0xfff) ^^^ 0x800) - 0x800)).toBitVec.toNat % 4096 = 0 := by
  have hand : (n.toBitVec &&& 4095#64).toNat = n.toBitVec.toNat % 4096 := by
    rw [BitVec.toNat_and]
    exact Nat.and_two_pow_sub_one_eq_mod _ 12
  have hxor : ((n.toBitVec &&& 4095#64) ^^^ 2048#64).toNat =
      (n.toBitVec.toNat % 4096 + 2048) % 4096 := by
    rw [BitVec.toNat_xor, hand]
    exact xor_bit_eleven (Nat.mod_lt _ (by decide))
  have hsub : (n - (((n &&& 0xfff) ^^^ 0x800) - 0x800)).toBitVec =
      n.toBitVec - (((n.toBitVec &&& 4095#64) ^^^ 2048#64) - 2048#64) := rfl
  rw [hsub]
  simp only [BitVec.toNat_sub, hxor, BitVec.toNat_ofNat]
  omega

/-- A number that ends in twelve zeros is its upper part, shifted. -/
theorem lit_upper {n : Int64} (h : n.toBitVec.toNat % 4096 = 0) :
    lit ((n >>> 12) &&& 0xfffff) <<< 12 = lit n := by
  have hshift : ((n >>> 12) &&& 0xfffff).toBitVec =
      n.toBitVec.sshiftRight 12 &&& 0xfffff#64 := rfl
  rw [lit, lit, hshift]
  apply BitVec.eq_of_getLsbD_eq
  intro i hi
  have hmask : (0xfffff#64).getLsbD (i - 12) = decide (i - 12 < 20) := by
    have hones : (0xfffff#64).toNat = 2 ^ 20 - 1 := rfl
    rw [BitVec.getLsbD, hones, Nat.testBit_two_pow_sub_one]
  rw [BitVec.getLsbD_shiftLeft, BitVec.getLsbD_setWidth, BitVec.getLsbD_setWidth,
    BitVec.getLsbD_and, hmask, BitVec.getLsbD_sshiftRight]
  by_cases hlow : i < 12
  · have hzero : n.toBitVec.getLsbD i = false := by
      rw [BitVec.getLsbD, ← Nat.div_add_mod n.toBitVec.toNat 4096, h]
      exact (Nat.testBit_two_pow_mul_add _ (show 0 < 2 ^ 12 by decide) i).trans (by simp [hlow])
    simp [hlow, hzero]
  · have hsum : 12 + (i - 12) = i := by omega
    have h20 : i - 12 < 20 := by omega
    have h32 : i - 12 < 32 := by omega
    have h64 : i < 64 := by omega
    have hnot : ¬64 ≤ i - 12 := by omega
    simp [hlow, hsum, h20, h32, h64, hnot, hi]

theorem lit_splitImm (n : Int64) : lit (splitImm n).1 <<< 12 + lit (splitImm n).2 = lit n := by
  let k := signExtend32 n
  let lo := ((k &&& 0xfff) ^^^ 0x800) - 0x800
  calc lit (splitImm n).1 <<< 12 + lit (splitImm n).2
      = lit (((k - lo) >>> 12) &&& 0xfffff) <<< 12 + lit lo := rfl
    _ = lit (k - lo) + lit lo := by rw [lit_upper (sub_lower_mod k)]
    _ = lit k := by rw [← lit_add, Int64.sub_add_cancel]
    _ = lit n := lit_signExtend32 n

end Word

namespace Target

open SelectM Registers

variable {s s' : Registers} {p : Platform}

/-! ## Loading numbers -/

theorem fresh_ok {r : Reg} (hs : s.Wf) (h : fresh s = .ok (r, s')) :
    Grows s s' ∧ Scratch s s' r ∧ s'.Has r := by
  obtain ⟨rfl, rfl⟩ := newReg_ok.1 h
  exact ⟨.fresh none .refl, hs.scratch_new none, _, rfl, by simp⟩

/-- A number is added to zero. -/
theorem does_addi_zero {zero dst : Reg} {n : Int64} {st : State} (hzero : st.get zero = 0#32) :
    Does p [.addi dst zero n] st (st.set dst (.lit n)) := by
  have hstep := step_addi p st dst zero n
  rw [hzero, BitVec.zero_add] at hstep
  exact .single hstep

/-- The two parts of a number are put together. -/
theorem does_parts {upper dst : Reg} {n : Int64} (st : State) (hupper : upper ≠ State.zero) :
    Does p [⟨.lui, some upper, [.imm (splitImm n).1]⟩, .addi dst upper (splitImm n).2] st
      ((st.set upper (Word.lit (splitImm n).1 <<< 12)).set dst (.lit n)) := by
  let st₁ := st.set upper (Word.lit (splitImm n).1 <<< 12)
  have hlui : (Inst.mk .lui (some upper) [.imm (splitImm n).1]).step p st = .next st₁ := by
    simp [Inst.step, State.value?, Opcode.compute, st₁]
  have hget : st₁.get upper = Word.lit (splitImm n).1 <<< 12 := st.get_set_self _ hupper
  have haddi := step_addi p st₁ dst upper (splitImm n).2
  rw [hget, Word.lit_splitImm] at haddi
  exact .cons hlui (.single haddi)

/-- Numbers are loaded by any machine with the zero register. -/
theorem loadImmInto_ok {t : Spec} {dst : Reg} {n : Int64} {code : Code}
    (hz : t.zero = riscv32.zero) (hs : s.Wf) (hdst : dst ≠ State.zero)
    (h : t.loadImmInto dst n s = .ok (code, s')) :
    Grows s s' ∧ ∀ st, ∃ st', Does p code st st' ∧ Writes s s' dst (.lit n) st st' := by
  unfold Spec.loadImmInto at h
  dsimp only at h
  split at h
  · obtain ⟨rfl, rfl⟩ := pure_ok.1 h
    have hzero (st : State) : st.get (.phys t.zero) = 0#32 := by rw [hz, st.get_zero]
    refine ⟨.refl, fun st => ⟨_, does_addi_zero (hzero st), ?_⟩⟩
    rw [Word.lit_signExtend32]
    exact .set _ _ _ _ hdst
  · obtain ⟨upper, s₁, hupper, h⟩ := bind_ok.1 h
    obtain ⟨rfl, rfl⟩ := pure_ok.1 h
    obtain ⟨hg, hscratch, hhas⟩ := fresh_ok hs hupper
    have hne := hhas.ne_zero
    refine ⟨hg, fun st => ⟨_, does_parts st hne, ?_⟩⟩
    rw [Word.lit_signExtend32]
    exact ((Writes.set s s₁ st _ hne).quiet hscratch).trans_writes (.set s₁ s₁ _ _ hdst) hg .refl

theorem loadImm_ok {t : Spec} {n : Int64} {r : Reg} {code : Code} (hz : t.zero = riscv32.zero)
    (hs : s.Wf) (h : t.loadImm n s = .ok ((r, code), s')) :
    Grows s s' ∧ Scratch s s' r ∧
      ∀ st, ∃ st', Does p code st st' ∧ Quiet s s' st st' ∧ st'.get r = .lit n := by
  obtain ⟨dst, s₁, hdst, h⟩ := bind_ok.1 h
  obtain ⟨code', s₂, hload, h⟩ := bind_ok.1 h
  obtain ⟨heq, rfl⟩ := pure_ok.1 h
  cases heq
  obtain ⟨hg, hscratch, hhas⟩ := fresh_ok hs hdst
  obtain ⟨hg', hcode⟩ := loadImmInto_ok (p := p) hz (hg.wf hs) hhas.ne_zero hload
  have hscratch := hscratch.grows_right hg'
  refine ⟨hg.trans hg', hscratch, fun st => ?_⟩
  obtain ⟨st', hdoes, hwrites⟩ := hcode st
  exact ⟨st', hdoes, (Quiet.refl.trans_writes hwrites hg hg').quiet hscratch, hwrites.value⟩

/-! ## Offsets -/

theorem addOffset_ok {t : Spec} {dst base : Reg} {n : Int64} {code : Code}
    (hz : t.zero = riscv32.zero) (hs : s.Wf) (hdst : dst ≠ State.zero) (hbase : s.Knows base)
    (h : t.addOffset dst base n s = .ok (code, s')) :
    Grows s s' ∧
      ∀ st, ∃ st', Does p code st st' ∧ Writes s s' dst (st.get base + .lit n) st st' := by
  unfold Spec.addOffset at h
  split at h
  · rename_i hzero
    obtain ⟨rfl, rfl⟩ := pure_ok.1 h
    refine ⟨.refl, fun st => ⟨_, .single (step_mv p st _ _), ?_⟩⟩
    rw [hzero, Word.lit_zero, BitVec.add_zero]
    exact .set _ _ _ _ hdst
  · split at h
    · obtain ⟨rfl, rfl⟩ := pure_ok.1 h
      exact ⟨.refl, fun st => ⟨_, .single (step_addi p st _ _ _), .set _ _ _ _ hdst⟩⟩
    · obtain ⟨⟨reg, code'⟩, s₁, hload, h⟩ := bind_ok.1 h
      obtain ⟨rfl, rfl⟩ := pure_ok.1 h
      obtain ⟨hg, -, hcode⟩ := loadImm_ok (p := p) hz hs hload
      refine ⟨hg, fun st => ?_⟩
      obtain ⟨st₁, hdoes, hquiet, hreg⟩ := hcode st
      have hadd : Opcode.add.compute [st₁.get base, st₁.get reg] =
          some (st.get base + .lit n) := by
        rw [hquiet.get hbase.not_scratch, hreg]
        rfl
      refine ⟨_, hdoes.append (.single (step_onRegs p st₁ dst base reg hadd)), ?_⟩
      exact hquiet.trans_writes (.set s₁ s₁ st₁ _ hdst) hg .refl

theorem adjustStack_ok {n : Int64} {code : Code} (hs : s.Wf)
    (h : riscv32.adjustStack n s = .ok (code, s')) :
    Grows s s' ∧
      ∀ st, ∃ st', Does p code st st' ∧ Writes s s' State.sp (st.get State.sp + .lit n) st st' := by
  have hsp : State.sp ≠ State.zero := by decide
  unfold Spec.adjustStack at h
  dsimp only at h
  split at h
  · obtain ⟨rfl, rfl⟩ := pure_ok.1 h
    exact ⟨.refl, fun st => ⟨_, .single (step_addi p st _ _ _), .set _ _ _ _ hsp⟩⟩
  · obtain ⟨⟨reg, code'⟩, s₁, hload, h⟩ := bind_ok.1 h
    obtain ⟨rfl, rfl⟩ := pure_ok.1 h
    obtain ⟨hg, -, hcode⟩ := loadImm_ok (p := p) rfl hs hload
    refine ⟨hg, fun st => ?_⟩
    obtain ⟨st₁, hdoes, hquiet, hreg⟩ := hcode st
    have hadd : Opcode.add.compute [st₁.get State.sp, st₁.get reg] =
        some (st.get State.sp + .lit n) := by
      rw [hquiet.get (s.knows_phys _).not_scratch, hreg]
      rfl
    refine ⟨_, hdoes.append (.single (step_onRegs p st₁ _ _ reg hadd)), ?_⟩
    exact hquiet.trans_writes (.set s₁ s₁ st₁ _ hsp) hg .refl

theorem stackSlot_ok {n : Int64} {a : Mem} {code : Code} (hs : s.Wf)
    (h : riscv32.stackSlot n s = .ok ((a, code), s')) :
    Grows s s' ∧ ∀ st, ∃ st', Does p code st st' ∧ Quiet s s' st st' ∧
      st'.addressOf p a = st.get State.sp + .lit n := by
  unfold Spec.stackSlot at h
  split at h
  · obtain ⟨heq, rfl⟩ := pure_ok.1 h
    cases heq
    refine ⟨.refl, fun st => ⟨st, .nil, .refl, ?_⟩⟩
    show st.get State.sp + n.toInt32.toBitVec = _
    rw [Word.lit_toInt32]
  · obtain ⟨base, s₁, hbase, h⟩ := bind_ok.1 h
    obtain ⟨code', s₂, hoffset, h⟩ := bind_ok.1 h
    obtain ⟨heq, rfl⟩ := pure_ok.1 h
    cases heq
    obtain ⟨hg, hscratch, hhas⟩ := fresh_ok hs hbase
    obtain ⟨hg', hcode⟩ := addOffset_ok (p := p) rfl (hg.wf hs) hhas.ne_zero (s₁.knows_phys _) hoffset
    refine ⟨hg.trans hg', fun st => ?_⟩
    obtain ⟨st', hdoes, hwrites⟩ := hcode st
    refine ⟨st', hdoes, (Quiet.refl.trans_writes hwrites hg hg').quiet (hscratch.grows_right hg'),
      ?_⟩
    show st'.get base + 0#32 = _
    rw [hwrites.value, BitVec.add_zero]

end Target

end SsaCodegen
