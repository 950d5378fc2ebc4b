import Mathlib.Algebra.Group.Nat.Defs
import SsaCodegen.Proofs.ConstProp.Reference
import SsaCodegen.Proofs.Select.Immediate
import SsaCodegen.Proofs.Semantics.Word

/-!
# Constants that fit in a word

Constant propagation computes with numbers of 64 bits, the machine with their low 32 bits. Sums,
products and bitwise operators have the same low bits either way. A quotient, a remainder, a shift,
a comparison or the direction of a branch does not: there the two agree as long as the numbers fit
in a word, and the count of a shift is less than 32.

## Main definitions

* `Word.fits`, `Word.counts` — a number fits in a word, or counts the places of a shift of one
* `Module.NarrowIn` — the constants that matter in a function are narrow enough

## Main results

* `BinOp.apply_lit`, `CmpOp.test_lit` — operators on narrow constants
* `Dialect.word_respects` — the transfer function is right about the 32-bit dialect
-/

namespace SsaCodegen

namespace Word

variable {n k : Int64}

/-- Whether a number is the signed number of its low 32 bits. -/
def fits (n : Int64) : Bool := (lit n).toInt = n.toInt

/-- Whether a number is a count of places that a word can be shifted by. -/
def counts (k : Int64) : Bool := 0 ≤ k.toInt ∧ k.toInt < 32

theorem toInt_lit (n : Int64) : (lit n).toInt = n.toInt.bmod (2 ^ 32) := by
  rw [← lit_toInt32, Int32.toInt_toBitVec, Int64.toInt_toInt32]

theorem toInt_lit_of_fits (h : fits n = true) : (lit n).toInt = n.toInt := of_decide_eq_true h

theorem lit_inj (hn : fits n = true) (hk : fits k = true) : lit n = lit k ↔ n = k := by
  rw [← BitVec.toInt_inj, toInt_lit_of_fits hn, toInt_lit_of_fits hk, Int64.toInt_inj]

theorem lit_ne_zero (hk : fits k = true) (hne : k ≠ 0) : lit k ≠ 0 :=
  mt (lit_inj hk (k := 0) rfl).1 hne

theorem lit_sub (a b : Int64) : lit (a - b) = lit a - lit b := by
  rw [Int64.sub_eq_add_neg, lit_add, lit_neg, BitVec.sub_eq_add_neg]

theorem lit_div (hn : fits n = true) (hk : fits k = true) (hne : k ≠ 0) :
    lit (n / k) = div (lit n) (lit k) := by
  rw [div, if_neg (lit_ne_zero hk hne)]
  apply BitVec.eq_of_toInt_eq
  rw [toInt_lit, Int64.toInt_div, Int.bmod_bmod_of_dvd (by decide), BitVec.toInt_sdiv,
    toInt_lit_of_fits hn, toInt_lit_of_fits hk]

theorem lit_rem (hn : fits n = true) (hk : fits k = true) (hne : k ≠ 0) :
    lit (n % k) = rem (lit n) (lit k) := by
  rw [rem, if_neg (lit_ne_zero hk hne)]
  apply BitVec.eq_of_toInt_eq
  rw [toInt_lit, ← BitVec.toInt_bmod_cancel ((lit n).srem (lit k)), Int64.toInt_mod,
    BitVec.toInt_srem, toInt_lit_of_fits hn, toInt_lit_of_fits hk]

/-- A count of places is the same number in 64 and in 32 bits. -/
theorem exists_count (hk : counts k = true) :
    ∃ j, (k.toBitVec.smod 64).toNat = j ∧ (lit k).toNat % 32 = j := by
  obtain ⟨h₀, h₁⟩ := of_decide_eq_true hk
  obtain ⟨j, hj⟩ := Int.eq_ofNat_of_zero_le h₀
  have hlt : j < 32 := by omega
  have hk : k.toBitVec = .ofNat 64 j := by
    rw [← BitVec.ofInt_natCast, ← hj, ← Int64.toInt_toBitVec, BitVec.ofInt_toInt]
  have hsmod : ∀ j < 32, ((BitVec.ofNat 64 j).smod 64).toNat = j := by decide
  refine ⟨j, hk ▸ hsmod j hlt, ?_⟩
  rw [lit, hk, BitVec.toNat_setWidth, BitVec.toNat_ofNat]
  omega

theorem lit_sll (n : Int64) (hk : counts k = true) : lit (n <<< k) = sll (lit n) (lit k) := by
  obtain ⟨j, hcount, hcount'⟩ := exists_count hk
  rw [sll, hcount', lit, Int64.toBitVec_shiftLeft, BitVec.shiftLeft_eq', hcount, lit]
  ext i hi
  simp

theorem lit_sra (hn : fits n = true) (hk : counts k = true) :
    lit (n >>> k) = sra (lit n) (lit k) := by
  obtain ⟨j, hcount, hcount'⟩ := exists_count hk
  have hshift : (n >>> k).toInt = ((lit n).sshiftRight j).toInt := by
    rw [← Int64.toInt_toBitVec, Int64.toBitVec_shiftRight, BitVec.sshiftRight', hcount,
      BitVec.toInt_sshiftRight, BitVec.toInt_sshiftRight, Int64.toInt_toBitVec,
      toInt_lit_of_fits hn]
  apply BitVec.eq_of_toInt_eq
  rw [sra, hcount', toInt_lit, hshift, BitVec.toInt_bmod_cancel]

end Word

open Word

/-! ## Operators -/

/-- Whether the low bits of what an operator gives on two constants are those of what it gives on
their low bits. Sums, products and bitwise operators need nothing for that. -/
def BinOp.narrow : BinOp → Int64 → Int64 → Bool
  | div, n, k | rem, n, k => fits n && fits k
  | shl, _, k => counts k
  | ashr, n, k => fits n && counts k
  | add, _, _ | sub, _, _ | mul, _, _ | and, _, _ | or, _, _ | xor, _, _ => true

theorem BinOp.apply_lit {op : BinOp} {n k c : Int64} (h : op.narrow n k = true)
    (hc : op.eval n k = some c) : op.apply (lit n) (lit k) = lit c := by
  cases op with
  | add =>
    cases hc
    exact (lit_add n k).symm
  | sub =>
    cases hc
    exact (lit_sub n k).symm
  | mul =>
    cases hc
    exact (lit_mul n k).symm
  | div =>
    obtain ⟨hn, hk⟩ := Bool.and_eq_true_iff.1 h
    rw [eval] at hc
    split at hc
    · cases hc
    · rename_i hne
      cases hc
      exact (lit_div hn hk hne).symm
  | rem =>
    obtain ⟨hn, hk⟩ := Bool.and_eq_true_iff.1 h
    rw [eval] at hc
    split at hc
    · cases hc
    · rename_i hne
      cases hc
      exact (lit_rem hn hk hne).symm
  | shl =>
    cases hc
    exact (lit_sll n h).symm
  | ashr =>
    obtain ⟨hn, hk⟩ := Bool.and_eq_true_iff.1 h
    cases hc
    exact (lit_sra hn hk).symm
  | and =>
    cases hc
    exact BitVec.setWidth_and.symm
  | or =>
    cases hc
    show _ = ((n ||| k) &&& 0xffffffff).toBitVec.setWidth 32
    rw [Int64.toBitVec_and, BitVec.setWidth_and, Int64.toBitVec_or, BitVec.setWidth_or]
    exact BitVec.and_allOnes.symm
  | xor =>
    cases hc
    exact BitVec.setWidth_xor.symm

theorem CmpOp.test_lit (op : CmpOp) {n k : Int64} (hn : fits n = true) (hk : fits k = true) :
    op.test (lit n) (lit k) = op.eval n k := by
  have hslt {a b : Int64} (ha : fits a = true) (hb : fits b = true) :
      (lit a).slt (lit b) = decide (a < b) := by
    rw [BitVec.slt, toInt_lit_of_fits ha, toInt_lit_of_fits hb]
    exact decide_eq_decide.2 Int64.lt_iff_toInt_lt.symm
  have hsle {a b : Int64} (ha : fits a = true) (hb : fits b = true) :
      (lit a).sle (lit b) = decide (a ≤ b) := by
    rw [BitVec.sle, toInt_lit_of_fits ha, toInt_lit_of_fits hb]
    exact decide_eq_decide.2 Int64.le_iff_toInt_le.symm
  cases op with
  | eq => exact decide_eq_decide.2 (lit_inj hn hk)
  | ne => exact decide_eq_decide.2 (not_congr (lit_inj hn hk))
  | sgt => exact hslt hk hn
  | sge => exact hsle hk hn
  | slt => exact hslt hn hk
  | sle => exact hsle hn hk

/-! ## Functions -/

namespace Module

variable {m : Module} {lists : BlockId → List ValueId} {f : FuncId}

/-- Whether the constants that an instruction is known to work on are narrow enough. -/
def narrowAt (m : Module) (v : ValueId) : Bool :=
  match m.kindOf v, (m.operandsOf v).map m.knownOf with
  | some (.inst (.binary op)), [.const n, .const k] => op.narrow n k
  | some (.inst (.compare _)), [.const n, .const k] => fits n && fits k
  | some (.inst .br), [.const n, _, _] => fits n
  | _, _ => true

/-- The constants that matter in the blocks of a function that were found reachable are narrow
enough. -/
def NarrowIn (m : Module) (f : FuncId) : Prop :=
  ∀ b ∈ m.blocksOf f, m.reachedOf b = true → ∀ v ∈ m.instsOf b, m.narrowAt v = true

instance (m : Module) (f : FuncId) : Decidable (m.NarrowIn f) :=
  inferInstanceAs (Decidable (∀ b ∈ m.blocksOf f, m.reachedOf b = true → ∀ v ∈ m.instsOf b,
    m.narrowAt v = true))

theorem NarrowIn.of_live {v : ValueId} (h : m.NarrowIn f) (hm : WellFormed m lists)
    (hv : m.Live lists f v) : m.narrowAt v = true := by
  obtain ⟨b, hb, hreached, hmem⟩ := hv
  exact h b (hm.owned.mem_blocksOf.2 hb) hreached v (by rw [hm.instsOf_eq hb]; exact hmem)

end Module

open SsaCodegen.Module in
/-- The transfer function is right about the 32-bit dialect, as far as constants are narrow. -/
theorem Dialect.word_respects {m : Module} {lists : BlockId → List ValueId} {f : FuncId}
    (hm : WellFormed m lists) (hnarrow : m.NarrowIn f) (p : Target.Platform) (a : Activation) :
    (word m p a).Respects m lists f := by
  refine .of_operators hm (fun x world hk hcopy => ?_) (fun world hv hk ho hl hr hc => ?_)
    (fun {v op l r n k} world hv hk ho hl hr => ?_) fun hv hk ho hn => ?_
  · rcases hcopy with rfl | rfl <;> simp only [word, hk]
  · have hat := hnarrow.of_live hm hv
    rw [narrowAt, hk, ho, List.map_cons, List.map_singleton, hl, hr] at hat
    simp only [word, hk]
    exact congrArg some (BinOp.apply_lit hat hc)
  · have hat := hnarrow.of_live hm hv
    rw [narrowAt, hk, ho, List.map_cons, List.map_singleton, hl, hr] at hat
    obtain ⟨hfn, hfk⟩ := Bool.and_eq_true_iff.1 hat
    simp only [word, hk]
    rw [op.test_lit hfn hfk]
    cases op.eval n k <;> rfl
  · have hat := hnarrow.of_live hm hv
    rw [narrowAt, hk, ho, List.map_cons, List.map_cons, List.map_singleton, hn] at hat
    exact decide_eq_decide.2 (not_congr (lit_inj hat (k := 0) rfl))

end SsaCodegen
