import SsaCodegen.Proofs.Select.Emitted

/-!
# Constants on any machine

What the code for a constant leaves behind, for machines with any zero register and any range of
immediates. The code is one instruction or two. Either way the low 32 bits of the number end up in
the register that they are meant for, read as a signed number, and besides that register only a new
one is written.

The lower part of a number is rounded to the nearest multiple of the upper part, so the upper part
carries over where the lower part is negative. At the top of the positive numbers the carry reaches
the sign, and the sum of the two parts wraps around.

## Main results

* `splitImm_congr` — the two parts of a number add up to it, up to multiples of 2^32
* `Target.Spec.loadImmInto_small`, `loadImmInto_large` — the code for a constant
* `Target.Spec.loadImmInto_exact` — what it does, how long it is and what it is made of
-/

namespace SsaCodegen

open Target SelectM

/-! ## The low 32 bits of a number -/

/-- The low 32 bits of a number are what is left of it by multiples of 2^32, around zero. -/
theorem toInt_signExtend32 (n : Int64) : (signExtend32 n).toInt = n.toInt.bmod 4294967296 := by
  rw [signExtend32, Int32.toInt_toInt64, Int64.toInt_toInt32]

theorem signExtend32_idem (n : Int64) : signExtend32 (signExtend32 n) = signExtend32 n := by
  rw [signExtend32, signExtend32, Int32.toInt32_toInt64]

theorem splitImm_signExtend32 (n : Int64) : splitImm (signExtend32 n) = splitImm n := by
  rw [splitImm, splitImm, signExtend32_idem]

namespace Word

theorem toInt_lit_eq_signExtend32 (n : Int64) : (lit n).toInt = (signExtend32 n).toInt := by
  rw [← lit_toInt32, Int32.toInt_toBitVec, signExtend32, Int32.toInt_toInt64]

theorem lit_eq_ofInt (n : Int64) : lit n = BitVec.ofInt 32 n.toInt := by
  apply BitVec.eq_of_toInt_eq
  rw [toInt_lit_eq_signExtend32, toInt_signExtend32, BitVec.toInt_ofInt]

end Word

/-- The two parts of a number add up to it, up to multiples of 2^32. -/
theorem splitImm_congr (n : Int64) :
    (4096 * (splitImm n).1.toInt + (splitImm n).2.toInt) % 4294967296 = n.toInt % 4294967296 := by
  have hword := Word.lit_splitImm n
  have hshift : Word.lit (splitImm n).1 <<< 12 = BitVec.ofInt 32 (4096 * (splitImm n).1.toInt) := by
    rw [BitVec.shiftLeft_eq_mul_twoPow, Word.lit_eq_ofInt, BitVec.mul_comm, BitVec.ofInt_mul]
    rfl
  rw [hshift, Word.lit_eq_ofInt, Word.lit_eq_ofInt, ← BitVec.ofInt_add] at hword
  have hint := congrArg BitVec.toInt hword
  rw [BitVec.toInt_ofInt, BitVec.toInt_ofInt] at hint
  calc (4096 * (splitImm n).1.toInt + (splitImm n).2.toInt) % 4294967296
      = (4096 * (splitImm n).1.toInt + (splitImm n).2.toInt).bmod 4294967296 % 4294967296 :=
        Int.bmod_emod.symm
    _ = n.toInt.bmod 4294967296 % 4294967296 := congrArg (· % 4294967296) hint
    _ = n.toInt % 4294967296 := Int.bmod_emod

namespace Target.Spec

variable {t : Spec} {dst : Reg} {n : Int64} {s : Registers}

/-! ## The code for a constant -/

/-- A number that fits an immediate is added to zero. -/
theorem loadImmInto_small (h : t.fitsImm (signExtend32 n) = true) :
    t.loadImmInto dst n s = .ok ([.addi dst (.phys t.zero) (signExtend32 n)], s) := by
  rw [loadImmInto, if_pos h]
  rfl

/-- Any other number is put together in a new register from its two parts. -/
theorem loadImmInto_large (h : t.fitsImm (signExtend32 n) = false) :
    t.loadImmInto dst n s = .ok
      ([⟨.lui, some (.virt s.names.length), [.imm (splitImm n).1]⟩,
        .addi dst (.virt s.names.length) (splitImm n).2],
      { s with names := s.names ++ [none] }) := by
  rw [loadImmInto, if_neg (by simp [h]), splitImm_signExtend32]
  rfl

/-- On a machine of any kind whose zero register reads as zero, the code for a number leaves its low
32 bits, as a signed number, in the register that it is meant for, unless nothing can be left there
because it is hard-wired to zero. No other register changes but one new register at most. The code
is one instruction if these low bits fit an immediate and two if not, and then the two parts have
20 bits and 12 bits and add up to the number, up to multiples of 2^32. -/
theorem loadImmInto_exact (t : Spec) (dst : Reg) (n : Int64) (s : Registers) :
    (signExtend32 n).toInt = n.toInt.bmod 4294967296 ∧
    ∃ code s', t.loadImmInto dst n s = .ok (code, s') ∧
      (∀ (p : Platform) (st : State), st.get (.phys t.zero) = 0 → ∃ st', Does p code st st' ∧
        (dst ≠ State.zero → (st'.get dst).toInt = (signExtend32 n).toInt) ∧
        (∀ r, r ≠ dst → (s'.Has r → s.Has r) → st'.get r = st.get r) ∧
        st'.world = st.world) ∧
      (t.immMin ≤ signExtend32 n ∧ signExtend32 n ≤ t.immMax → code.length = 1 ∧ s' = s) ∧
      (¬(t.immMin ≤ signExtend32 n ∧ signExtend32 n ≤ t.immMax) →
        code.length = 2 ∧ s' = { s with names := s.names ++ [none] } ∧
          ∃ hi lo, splitImm n = (hi, lo) ∧ -2048 ≤ lo ∧ lo ≤ 2047 ∧ 0 ≤ hi ∧ hi ≤ 0xfffff ∧
            (4096 * hi.toInt + lo.toInt) % 4294967296 = n.toInt % 4294967296) := by
  refine ⟨toInt_signExtend32 n, ?_⟩
  have hfits : t.fitsImm (signExtend32 n) = true ↔
      t.immMin ≤ signExtend32 n ∧ signExtend32 n ≤ t.immMax := by simp [fitsImm]
  by_cases hsmall : t.fitsImm (signExtend32 n) = true
  · refine ⟨_, _, loadImmInto_small hsmall, fun p st hzero => ?_, fun _ => ⟨rfl, rfl⟩,
      fun hlarge => absurd (hfits.1 hsmall) hlarge⟩
    refine ⟨_, does_addi_zero hzero, fun hdst => ?_, fun r hr _ => st.get_set_of_ne _ hr, rfl⟩
    rw [State.get_set_self _ _ hdst, Word.lit_signExtend32, Word.toInt_lit_eq_signExtend32]
  · have hlen : s.names.length < (s.names ++ [none]).length := by simp
    refine ⟨_, _, loadImmInto_large (by simpa using hsmall), fun p st _ => ?_,
      fun himm => absurd (hfits.2 himm) hsmall, fun _ => ⟨rfl, rfl, _, _, rfl,
        (splitImm_lower n).1, (splitImm_lower n).2, (splitImm_upper n).1, (splitImm_upper n).2,
        splitImm_congr n⟩⟩
    refine ⟨_, does_parts st (by simp), fun hdst => ?_, fun r hr hold => ?_, rfl⟩
    · rw [State.get_set_self _ _ hdst, Word.toInt_lit_eq_signExtend32]
    · have hne : r ≠ .virt s.names.length := by
        rintro rfl
        obtain ⟨k, hk, hlt⟩ := hold ⟨_, rfl, hlen⟩
        cases hk
        exact Nat.lt_irrefl _ hlt
      rw [State.get_set_of_ne _ _ hr, State.get_set_of_ne _ _ hne]

/-- A machine with another zero register and few immediates, and a number with a carry into the
sign. -/
theorem loadImmInto_exact_carry :
    let t : Spec := { riscv32 with zero := ⟨5⟩, immMin := -16, immMax := 15 }
    splitImm 0x7ffff800 = (0x80000, -2048) ∧
      ∃ code s', t.loadImmInto (.virt 0) 0x7ffff800 { names := [none] } = .ok (code, s') ∧
        code.length = 2 ∧ s'.names.length = 2 ∧
        ∀ p : Platform, ∃ st', Does p code ⟨fun _ => 0, ⟨fun _ => 0, []⟩⟩ st' ∧
          (st'.get (.virt 0)).toInt = 0x7ffff800 := by
  intro t
  obtain ⟨-, code, s', hok, hdoes, -, hlarge⟩ :=
    loadImmInto_exact t (.virt 0) 0x7ffff800 { names := [none] }
  obtain ⟨hlen, rfl, -⟩ := hlarge (by decide)
  refine ⟨by decide, code, _, hok, hlen, rfl, fun p => ?_⟩
  obtain ⟨st', hst, hdst, -⟩ := hdoes p ⟨fun _ => 0, ⟨fun _ => 0, []⟩⟩ (by decide)
  exact ⟨st', hst, hdst (by simp)⟩

end Target.Spec

end SsaCodegen
