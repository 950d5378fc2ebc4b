import SsaCodegen.Fault

/-!
# Byte counts

Sizes and offsets are 32-bit counts of bytes. They are kept as natural numbers, and every
operation that could leave the 32-bit range is a fault when it does, so that arithmetic on a
result needs no wrap-around.
-/

namespace SsaCodegen

namespace Size

/-- A byte count, or a fault when it does not fit 32 bits. -/
def fit (n : Nat) : Except Fault Nat :=
  if n < UInt32.size then .ok n else .error .overflow

theorem fit_eq_ok {n k : Nat} : fit n = .ok k ↔ n < UInt32.size ∧ k = n := by
  rw [fit]
  split
  · simp [*, eq_comm]
  · simp [*]

/-- The least multiple of `align` that is not below `n`. -/
def alignTo (n align : Nat) : Except Fault Nat :=
  if align = 0 then .error .outOfRange else fit ((n + align - 1) / align * align)

end Size

end SsaCodegen
