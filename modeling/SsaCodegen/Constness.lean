/-!
# What is known of a value

The three-level lattice of constant propagation. A value starts as `top`, not looked at yet, may
come down to one constant, and ends as `varying` when it is known not to be a single constant.
`meet` only ever moves down, and `height` counts the moves that are left.

## Main definitions

* `Constness.meet` — the greatest lower bound
* `Constness.combine` — a two-argument operator carried over to what is known of its arguments
* `Constness.height` — how often a value can still come down
-/

namespace SsaCodegen

/-- What is known of a value: nothing yet, that it is one constant, or that it is not. -/
inductive Constness where
  | top
  | const (value : Int64)
  | varying
deriving DecidableEq

namespace Constness

/-- The constant, when the value is known to be one. -/
def asConst : Constness → Option Int64
  | const n => some n
  | _ => none

/-- The greatest lower bound: `top` changes nothing, equal constants stay, and anything else is
`varying`. -/
def meet : Constness → Constness → Constness
  | top, x => x
  | x, top => x
  | const a, const b => if a = b then const a else varying
  | _, _ => varying

/-- What is known of the value of an operator. A varying argument makes it vary, an argument that
has not been looked at leaves it so, and an operator without a value on its constants varies. -/
def combine (eval : Int64 → Int64 → Option Int64) : Constness → Constness → Constness
  | varying, _ => varying
  | _, varying => varying
  | top, _ => top
  | _, top => top
  | const a, const b =>
    match eval a b with
    | some c => const c
    | none => varying

/-- How often a value can still come down: twice from `top`, once from a constant. -/
def height : Constness → Nat
  | top => 2
  | const _ => 1
  | varying => 0

/-- A meet that changes its left argument lowers it. -/
theorem height_meet_lt {a b : Constness} (h : a.meet b ≠ a) : (a.meet b).height < a.height := by
  cases a <;> cases b <;> grind [meet, height]

end Constness

end SsaCodegen
