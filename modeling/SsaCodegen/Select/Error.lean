import SsaCodegen.Fault

/-!
# What selection refuses

Some programs that are well linked have no code: a string used as an operand, an access of a width
that the machine lacks, a field of something that is no class.
-/

namespace SsaCodegen

/-- Why a program has no code. -/
inductive SelectError where
  | unsupportedOperand (user value : ValueId)
  | unsupportedWidth (inst : ValueId) (size : Nat)
  | unknownClass (inst : ValueId)
  | nonConstantFieldIndex (inst : ValueId)
  | missingFunction (inst : ValueId) (callee : FuncId)
  | phiResolutionExhausted (block : String) (bound : Nat)
deriving DecidableEq

/-- The text of a refusal. -/
def SelectError.message : SelectError → String
  | unsupportedOperand user value => s!"cannot lower {value} as an operand of {user}"
  | unsupportedWidth inst size => s!"no {size}-byte memory access for {inst}"
  | unknownClass inst => s!"{inst} addresses a field of a non-class type"
  | nonConstantFieldIndex inst => s!"field index of {inst} is not a constant"
  | missingFunction inst callee => s!"call {inst} targets unknown function {callee}"
  | phiResolutionExhausted block bound =>
    s!"block {block} still has pending copies after {bound} resolution steps"

/-- Why selection stopped: the program was refused, or a contract was broken. -/
inductive Stop where
  | refused (error : SelectError)
  | fault (fault : Fault)
deriving DecidableEq

instance : MonadLift (Except Fault) (Except Stop) where
  monadLift
    | .ok a => .ok a
    | .error f => .error (.fault f)

end SsaCodegen
