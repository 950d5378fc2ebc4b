import SsaCodegen.Proofs.Select.Comparison

/-!
# Where folding agrees with the machine

Folding works out an operator on numbers of 64 bits, and the machine on registers of 32. Read as a
signed number, a register holds the low 32 bits of whatever number it stands for. For sums,
differences, products and bitwise operators these depend on the low 32 bits of the operands alone,
and so they do for a shift to the left by less than 32 places. Quotients, remainders and shifts to
the right bring high bits down, and comparisons look at all of them: they agree on numbers that a
register can hold.

The least number of a register divided by minus one is no exception: the quotient does not fit in a
register, and its low 32 bits are what the machine gives.

## Main definitions

* `Target.Opcode.onNumbers`, `CmpOp.onNumbers` — what operations make of numbers in registers
* `BinOp.Agrees`, `CmpOp.Agrees` — folding gives what the selected code does

## Main results

* `folding_agrees` — the numbers on which all operators agree
-/

namespace SsaCodegen

open Target SelectM Registers

variable {a b c n k : Int64}

/-! ## Numbers in registers -/

/-- A number that a register of 32 bits can hold. -/
def Word.IsNumber (n : Int64) : Prop := -2147483648 ≤ n ∧ n ≤ 2147483647

instance : Decidable (Word.IsNumber n) := inferInstanceAs (Decidable (_ ∧ _))

/-- A number of places that a register can be shifted by. -/
def Word.IsCount (k : Int64) : Prop := 0 ≤ k ∧ k ≤ 31

instance : Decidable (Word.IsCount k) := inferInstanceAs (Decidable (_ ∧ _))

theorem Word.IsNumber.fits (h : IsNumber n) : fits n = true := by
  obtain ⟨hlo, hhi⟩ := h
  have hlo : -2147483648 ≤ n.toInt := Int64.le_iff_toInt_le.1 hlo
  have hhi : n.toInt ≤ 2147483647 := Int64.le_iff_toInt_le.1 hhi
  refine decide_eq_true ?_
  rw [toInt_lit]
  exact Int.bmod_eq_of_le (by omega) (by omega)

theorem Word.IsCount.counts (h : IsCount k) : counts k = true := by
  obtain ⟨hlo, hhi⟩ := h
  have hlo : 0 ≤ k.toInt := Int64.le_iff_toInt_le.1 hlo
  have hhi : k.toInt ≤ 31 := Int64.le_iff_toInt_le.1 hhi
  exact decide_eq_true ⟨hlo, by omega⟩

/-- The signed number in a register is the sign extension of the low 32 bits that were put there. -/
theorem Word.number_lit (n : Int64) : (lit n).number = signExtend32 n := by
  rw [number, ← lit_toInt32, signExtend32, Int32.ofBitVec_toBitVec]

theorem Word.number_ofBool (x : Bool) : (Word.ofBool x).number = if x then 1 else 0 := by
  cases x <;> rfl

/-- What an operation makes of numbers in registers, as a signed number. -/
def Target.Opcode.onNumbers (op : Opcode) (ns : List Int64) : Option Int64 :=
  (op.compute (ns.map Word.lit)).map Word.number

/-! ## Operators -/

/-- Two constants have a value under an operator, and its low 32 bits are what the selected
operation makes of the low 32 bits of the constants. -/
def BinOp.Agrees (op : BinOp) (a b : Int64) : Prop :=
  ∃ c, op.eval a b = some c ∧
    op.opcode.onNumbers [signExtend32 a, signExtend32 b] = some (signExtend32 c)

theorem BinOp.agrees_of_narrow {op : BinOp} (hc : op.eval a b = some c)
    (h : op.narrow a b = true) : op.Agrees a b := by
  refine ⟨c, hc, ?_⟩
  rw [Opcode.onNumbers, List.map_cons, List.map_singleton, Word.lit_signExtend32,
    Word.lit_signExtend32, BinOp.compute_opcode, BinOp.apply_lit h hc, Option.map_some,
    Word.number_lit]

/-- What the selected operations for a comparison make of numbers in registers, as a signed number.
-/
def CmpOp.onNumbers (op : CmpOp) (a b : Int64) : Option Int64 :=
  match op.opcodes with
  | (first, none) => first.onNumbers [a, b]
  | (first, some finish) => do
    let n ← first.onNumbers [a, b]
    finish.onNumbers (n :: if finish = .xori then [1] else [])

theorem CmpOp.onNumbers_eq (op : CmpOp) (a b : Int64) :
    op.onNumbers a b = some (if op.test (.lit a) (.lit b) then 1 else 0) := by
  rw [onNumbers]
  rcases hops : op.opcodes with ⟨first, finish⟩
  cases finish with
  | none =>
    dsimp only
    rw [Opcode.onNumbers, List.map_cons, List.map_singleton, compute_single hops, Option.map_some,
      Word.number_ofBool]
  | some finish =>
    obtain ⟨t, hfirst, hfinish⟩ := compute_pair hops (.lit a) (.lit b)
    have hn : first.onNumbers [a, b] = some t.number := congrArg (Option.map Word.number) hfirst
    have hargs : List.map Word.lit (t.number :: if finish = .xori then [1] else []) =
        t :: if finish = .xori then [.lit 1] else [] := by
      rw [List.map_cons, Word.lit_number]
      split <;> rfl
    dsimp only
    rw [hn, Option.bind_eq_bind, Option.bind_some, Opcode.onNumbers, hargs, hfinish,
      Option.map_some, Word.number_ofBool]

/-- The selected code for a comparison `v` of two operands whose words are those of `a` and `b`
leaves a number in the register of `v`. -/
def Scope.LeavesVerdict (sc : Scope) (v : ValueId) (op : CmpOp) (a b n : Int64) : Prop :=
  ∀ {p s s' code l r}, sc.target.zero = riscv32.zero → s.Wf → sc.module.operandsOf v = [l, r] →
    sc.lowerCompare v op s = .ok (code, s') → ∃ dst, s'.held.lookup v = some dst ∧
      ∀ {S st}, Grows s' S → sc.Stands p S st l (.lit a) → sc.Stands p S st r (.lit b) →
        ∃ st', Does p code st st' ∧ (st'.get dst).number = n

/-- The verdict of a comparison on two constants is the number that its operations compute and that
its code leaves in its register, and the one on which a branch that takes it over goes. -/
structure CmpOp.Agrees (op : CmpOp) (a b : Int64) : Prop where
  number : op.onNumbers a b = some (if op.eval a b then 1 else 0)
  code : ∀ (sc : Scope) (v : ValueId), sc.LeavesVerdict v op a b (if op.eval a b then 1 else 0)
  branch : ∃ test, op.branchOp.branch? = some test ∧ test (.lit a) (.lit b) = op.eval a b

theorem CmpOp.agrees_of_fits (op : CmpOp) (ha : Word.fits a = true) (hb : Word.fits b = true) :
    op.Agrees a b where
  number := by rw [op.onNumbers_eq, op.test_lit ha hb]
  code sc v p s s' code l r hz hs ho h := by
    obtain ⟨-, dst, hheld, hcode⟩ := Scope.lowerCompare_ok (p := p) hz hs ho h
    refine ⟨dst, hheld, fun {S st} hS hl hr => ?_⟩
    obtain ⟨st', hdoes, hwrites⟩ := hcode hS hl hr
    refine ⟨st', hdoes, ?_⟩
    rw [hwrites.value, op.test_lit ha hb, Word.number_ofBool]
  branch := ⟨op.test, op.branch?_branchOp, op.test_lit ha hb⟩

/-- Folding agrees with the machine: for sums, differences, products and bitwise operators on all
numbers, for shifts to the left by less than 32 places, and for quotients and remainders other than
by zero, shifts to the right by less than 32 places and comparisons on numbers that a register
holds. -/
theorem folding_agrees (a b : Int64) :
    (∀ op ∈ [BinOp.add, .sub, .mul, .and, .or, .xor], op.Agrees a b) ∧
    (Word.IsCount b → BinOp.shl.Agrees a b) ∧
    (Word.IsNumber a → Word.IsNumber b →
      (b ≠ 0 → BinOp.div.Agrees a b ∧ BinOp.rem.Agrees a b) ∧
      (Word.IsCount b → BinOp.ashr.Agrees a b) ∧ ∀ op : CmpOp, op.Agrees a b) := by
  refine ⟨fun op hop => ?_, fun hb => ?_, fun ha hb => ⟨fun hne => ⟨?_, ?_⟩, fun hcount => ?_,
    fun op => op.agrees_of_fits ha.fits hb.fits⟩⟩
  · have hnarrow : op.narrow a b = true ∧ ∃ c, op.eval a b = some c := by
      simp only [List.mem_cons, List.not_mem_nil, or_false] at hop
      rcases hop with rfl | rfl | rfl | rfl | rfl | rfl <;> exact ⟨rfl, _, rfl⟩
    obtain ⟨hnarrow, c, hc⟩ := hnarrow
    exact BinOp.agrees_of_narrow hc hnarrow
  · exact BinOp.agrees_of_narrow rfl hb.counts
  · exact BinOp.agrees_of_narrow (if_neg hne) (Bool.and_eq_true_iff.2 ⟨ha.fits, hb.fits⟩)
  · exact BinOp.agrees_of_narrow (if_neg hne) (Bool.and_eq_true_iff.2 ⟨ha.fits, hb.fits⟩)
  · exact BinOp.agrees_of_narrow rfl (Bool.and_eq_true_iff.2 ⟨ha.fits, hcount.counts⟩)

/-- At the edges: the least number by minus one, its sign bit shifted down to the last place, and a
number beyond a register shifted up to the sign. -/
theorem folding_agrees_edges :
    BinOp.div.Agrees (-2147483648) (-1) ∧ BinOp.rem.Agrees (-2147483648) (-1) ∧
      BinOp.ashr.Agrees (-2147483648) 31 ∧ BinOp.shl.Agrees 4294967297 31 ∧
      BinOp.or.Agrees 2147483648 (-4294967296) ∧ CmpOp.slt.Agrees (-2147483648) 2147483647 := by
  have hmin : Word.IsNumber (-2147483648) := by decide
  have hcount : Word.IsCount 31 := by decide
  obtain ⟨hdiv, -, -⟩ := (folding_agrees (-2147483648) (-1)).2.2 hmin (by decide)
  obtain ⟨-, hashr, -⟩ := (folding_agrees (-2147483648) 31).2.2 hmin (by decide)
  obtain ⟨-, -, hcmp⟩ := (folding_agrees (-2147483648) 2147483647).2.2 hmin (by decide)
  exact ⟨(hdiv (by decide)).1, (hdiv (by decide)).2, hashr hcount,
    (folding_agrees 4294967297 31).2.1 hcount,
    (folding_agrees 2147483648 (-4294967296)).1 _ (by decide), hcmp _⟩

end SsaCodegen
