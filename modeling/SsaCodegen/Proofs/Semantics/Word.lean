import SsaCodegen.Proofs.Semantics.Graph
import SsaCodegen.Proofs.Semantics.Machine
import SsaCodegen.Select.Frame

/-!
# The 32-bit meaning of a function

The dialect in which a program means what its machine code does: words have 32 bits, operators are
those of the machine, a change of type changes nothing, and loads, stores and calls act on the
machine's world. Variables live in the frame of the function, and an argument of a call that has no
register is stored in the part of the frame for outgoing arguments.

## Main definitions

* `BinOp.apply`, `CmpOp.test` — the operators on words
* `Activation` — a call of a function: its frame and its arguments
* `Dialect.word` — the 32-bit dialect
-/

namespace SsaCodegen

/-- A binary operator on words. -/
def BinOp.apply : BinOp → Word → Word → Word
  | add, a, b => a + b
  | sub, a, b => a - b
  | mul, a, b => a * b
  | div, a, b => Word.div a b
  | rem, a, b => Word.rem a b
  | shl, a, b => Word.sll a b
  | ashr, a, b => Word.sra a b
  | and, a, b => a &&& b
  | or, a, b => a ||| b
  | xor, a, b => a ^^^ b

/-- The verdict of a comparison on words. The orders are signed. -/
def CmpOp.test : CmpOp → Word → Word → Bool
  | eq, a, b => a = b
  | ne, a, b => a ≠ b
  | sgt, a, b => b.slt a
  | sge, a, b => b.sle a
  | slt, a, b => a.slt b
  | sle, a, b => a.sle b

namespace Module

/-- What a pointer points to. -/
def pointeeOf (m : Module) (v : ValueId) : Ty := ((m.tyOf v).bind Ty.pointee).getD .void

/-- The bytes that a value takes in memory. -/
def bytesOf (m : Module) (v : ValueId) : Nat := ((m.tyOf v).map m.types.size).getD 0

theorem bytesOf_of_ty {m : Module} {v : ValueId} {ty : Ty} (h : m.ty v = .ok ty) :
    m.bytesOf v = m.types.size ty := by
  rw [bytesOf, tyOf_of_ty h]
  rfl

/-- The number that a constant stands for. -/
def constOf (m : Module) (v : ValueId) : Option Int64 := (m.kindOf v).bind ValueKind.asConstInt

/-- The offset of a field, given by its number, in the class that a pointer points to. -/
def fieldOffsetOf (m : Module) (base index : ValueId) : Nat :=
  ((((m.pointeeOf base).className.bind m.types.layout?).bind fun layout =>
    (m.constOf index).bind fun n => layout.offset n.toInt.toNat)).getD 0

end Module

/-- A call of a function: the layout of its frame, the lowest address of the frame and the
arguments by position. -/
structure Activation where
  frame : Frame
  base : Word
  args : Nat → Word

namespace Activation

/-- The address of a variable. -/
def slot (a : Activation) (v : ValueId) : Word :=
  a.base + .ofNat 32 ((a.frame.slotOffset? v).getD 0)

/-- Store those arguments of a call that have no register. The first of those given has number
`index`. -/
def pass (a : Activation) (m : Module) : Nat → List (ValueId × Word) → World → World
  | _, [], world => world
  | index, (arg, w) :: rest, world =>
    a.pass m (index + 1) rest <|
      if index < Target.riscv32.paramRegs.length then world
      else world.store
        (a.base + .ofNat 32 ((index - Target.riscv32.paramRegs.length) * Target.riscv32.word))
        (m.bytesOf arg) w

end Activation

/-- The 32-bit dialect on a platform, for one call of a function. -/
def Dialect.word (m : Module) (p : Target.Platform) (a : Activation) : Dialect Word World where
  lit := Word.lit
  leaf v :=
    match m.kindOf v with
    | some (.param _ index) => some (a.args index)
    | some (.global g) => some (p.address g.idx)
    | _ => some 0
  test w := w ≠ 0
  exec v args world :=
    match m.kindOf v, m.operandsOf v, args with
    | some (.inst (.binary op)), _, [x, y] => (some (op.apply x y), world)
    | some (.inst (.compare op)), _, [x, y] => (some (.ofBool (op.test x y)), world)
    | some (.inst .sext), _, [x] | some (.inst .cast), _, [x] => (some x, world)
    | some (.inst (.gep true)), [base, index], [x, _] =>
      (some (x + .ofNat 32 (m.fieldOffsetOf base index)), world)
    | some (.inst (.gep false)), [base, _], [x, i] =>
      (some (x + i * .ofNat 32 (m.types.size (m.pointeeOf base))), world)
    | some (.inst .load), [ptr], [x] =>
      (some (world.mem.load x (m.types.size (m.pointeeOf ptr))), world)
    | some (.inst .store), [_, ptr], [w, x] =>
      (none, world.store x (m.types.size (m.pointeeOf ptr)) w)
    | some (.inst (.alloca _)), _, _ => (some (a.slot v), world)
    | some (.inst (.call f)), operands, args =>
      let world := a.pass m 0 (operands.zip args) world
      let args := args.take Target.riscv32.paramRegs.length
      let out := p.callee f.idx args a.base world.mem
      (if m.yields v then some (out.regs Target.riscv32.result) else none,
        ⟨out.mem, .call f.idx args :: world.log⟩)
    | _, _, _ => (none, world)
  enter world := world

namespace Dialect

variable {m : Module} {p : Target.Platform} {a : Activation} {lists : BlockId → List ValueId}

/-- An instruction that has a result gives one. -/
theorem isSome_word_exec {f : FuncId} {v : ValueId} {k : InstKind} {args : List Word}
    (hk : m.kindOf v = some (.inst k)) (hphi : k ≠ .phi) (hfits : m.Fits f k (m.operandsOf v))
    (hlen : args.length = (m.operandsOf v).length) (hv : m.yields v = true) (world : World) :
    (((word m p a).exec v args world).1).isSome = true := by
  rw [Module.yields, hk] at hv
  cases k with
  | phi => exact absurd rfl hphi
  | br | ret | store => cases hv
  | binary | compare =>
    obtain ⟨x, y, rfl⟩ := List.length_eq_two.1 (hlen.trans hfits)
    simp [word, hk]
  | sext | cast =>
    obtain ⟨x, rfl⟩ := List.length_eq_one_iff.1 (hlen.trans hfits)
    simp [word, hk]
  | gep needsZero =>
    obtain ⟨x, y, rfl⟩ := List.length_eq_two.1 (hlen.trans hfits)
    obtain ⟨base, index, ho⟩ := List.length_eq_two.1 hfits
    cases needsZero <;> simp [word, hk, ho]
  | load =>
    obtain ⟨x, rfl⟩ := List.length_eq_one_iff.1 (hlen.trans hfits)
    obtain ⟨ptr, ho⟩ := List.length_eq_one_iff.1 hfits
    simp [word, hk, ho]
  | alloca => simp [word, hk]
  | call =>
    have hyields : m.yields v = true := by
      rw [Module.yields, hk]
      exact hv
    simp [word, hk, hyields]

end Dialect

end SsaCodegen
