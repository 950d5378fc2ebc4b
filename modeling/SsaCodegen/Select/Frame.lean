import SsaCodegen.Module.Chain

/-!
# Stack frames

The frame of a function holds, from the stack pointer up, the stack arguments of the calls it makes
and then its variables, rounded to 16 bytes. The stack arguments of the function itself lie just
above its frame, in that part of its caller's.

## Main definitions

* `Frame.compute` — the frame of a function
* `Frame.incomingOffset`, `outgoingOffset` — where stack arguments lie
-/

namespace SsaCodegen

/-- The size of a frame, the part of it for outgoing arguments, and the offset of each variable,
the latest first. -/
structure Frame where
  size : Nat
  outgoing : Nat
  slots : List (ValueId × Nat)

namespace Frame

/-- The bytes that the stack arguments of an instruction take. -/
def stackArgBytes (regArgs word : Nat) (x : Value) : Except Fault Nat :=
  match x.kind with
  | .inst (.call _) => Size.fit ((x.operands.length - regArgs) * word)
  | _ => .ok 0

/-- The most bytes that the stack arguments of any of some instructions take. -/
def outgoingBytes (regArgs word : Nat) : List Value → Except Fault Nat
  | [] => .ok 0
  | x :: rest => do return max (← stackArgBytes regArgs word x) (← outgoingBytes regArgs word rest)

/-- The type of the variable that an instruction makes. -/
def slotType : ValueKind → Option Ty
  | .inst (.alloca slot) => some slot
  | _ => none

/-- The variables that some instructions make. -/
def locals (insts : List (ValueId × Value)) : List (ValueId × Ty) :=
  insts.filterMap fun (v, x) => (slotType x.kind).map fun ty => (v, ty)

/-- Place variables one after the other from `offset` on, after the slots placed before. Each
takes at least a byte and is aligned to its size or to a word. The second result is the offset
after the last. -/
def place (types : TypeTable) (word offset : Nat) (slots : List (ValueId × Nat)) :
    List (ValueId × Ty) → Except Fault (List (ValueId × Nat) × Nat)
  | [] => .ok (slots, offset)
  | (v, ty) :: rest => do
    let size := max 1 (types.size ty)
    let start ← Size.alignTo offset (min size word)
    let stop ← Size.fit (start + size)
    place types word stop ((v, start) :: slots) rest

/-- The bytes for the stack arguments of the calls in some blocks, and the instructions of these
blocks. The bytes are worked out along the way, before it shows how the walk along a block ends. -/
def survey (m : Module) (regArgs word : Nat) :
    List BlockId → Except Fault (Nat × List (ValueId × Value))
  | [] => .ok (0, [])
  | b :: rest => do
    let c ← m.chain b
    let insts ← c.insts.mapM fun v => do return (v, ← m.value v)
    let here ← outgoingBytes regArgs word (insts.map Prod.snd)
    c.ending.check
    let (there, others) ← survey m regArgs word rest
    return (max here there, insts ++ others)

/-- The frame of a function, for a machine that passes `regArgs` arguments in registers. -/
def compute (m : Module) (f : FuncId) (regArgs word : Nat) : Except Fault Frame := do
  let (outgoing, insts) ← survey m regArgs word (← m.func f).blocks
  let (slots, stop) ← place m.types word outgoing [] (locals insts)
  return ⟨(← Size.fit (stop + 15)) / 16 * 16, outgoing, slots⟩

/-- The offset of a variable. -/
def slotOffset? (fr : Frame) (v : ValueId) : Option Nat := fr.slots.lookup v

/-- The offset, from the function's own stack pointer, of the stack argument number `index` that
it is called with. -/
def incomingOffset (fr : Frame) (index word : Nat) : Except Fault Nat := do
  Size.fit (fr.size + (← Size.fit (index * word)))

/-- The offset of the stack argument number `index` of a call, which must lie in the part of the
frame for outgoing arguments. With words of no bytes that part is empty. -/
def outgoingOffset (fr : Frame) (index word : Nat) : Except Fault Nat := do
  let offset ← Size.fit (index * word)
  if offset < fr.outgoing then return offset else throw (.argumentOutsideFrame index)

end Frame

end SsaCodegen
