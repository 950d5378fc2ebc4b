import SsaCodegen.Module.Basic

/-!
# The instructions of a block

The instructions of a block form a doubly linked chain. `setNext` and `setPrev` each write one of
the two links between neighbours, where the block's ends stand for the neighbours outside; all
changes to a chain are made of them.

A chain is read from its first instruction along the forward links. On a module that was built by
the operations of this library the walk always ends; on any other it may meet an id that names
nothing, or go round for ever, so a `Chain` says how it ended.

## Main definitions

* `Module.append`, `insertBefore`, `unlink`, `moveToEnd` — the operations on chains
* `Module.chain` — the walk along a block
* `Module.insts` — the instructions of a block, when the walk ends
* `Module.terminator`, `successors` — the way out of a block
-/

namespace SsaCodegen

/-- How a walk along a chain ended. -/
inductive ChainEnd where
  | closed
  /-- The next instruction is one that the module does not have. -/
  | dangling (value : ValueId)
  /-- More instructions than the module has values. -/
  | endless
deriving DecidableEq

/-- The fault of a walk that did not end at the end of a chain. -/
def ChainEnd.check : ChainEnd → Except Fault Unit
  | closed => .ok ()
  | dangling v => .error (.unknownValue v)
  | endless => .error .endless

/-- The instructions met on a walk along a block, and how it ended. -/
structure Chain where
  insts : List ValueId
  ending : ChainEnd
deriving DecidableEq

namespace Module

/-! ## Changing a chain -/

/-- In block `b`, let `next` come after `prev`; without `prev`, let it be the first. -/
def setNext (m : Module) (b : BlockId) (prev next : Option ValueId) : Except Fault Module :=
  match prev with
  | some p => m.modifyValue p fun x => { x with link := { x.link with next } }
  | none => m.modifyBlock b fun x => { x with first := next }

/-- In block `b`, let `prev` come before `next`; without `next`, let it be the last. -/
def setPrev (m : Module) (b : BlockId) (next prev : Option ValueId) : Except Fault Module :=
  match next with
  | some n => m.modifyValue n fun x => { x with link := { x.link with prev } }
  | none => m.modifyBlock b fun x => { x with last := prev }

/-- Put an instruction between two neighbours in a block. -/
def linkBetween (m : Module) (b : BlockId) (inst : ValueId) (prev next : Option ValueId) :
    Except Fault Module := do
  let m ← m.modifyValue inst fun x => { x with link := ⟨some b, prev, next⟩ }
  let m ← m.setNext b prev (some inst)
  m.setPrev b next (some inst)

/-- An instruction must be outside every block to be put into one. -/
def checkUnlinked (m : Module) (inst : ValueId) : Except Fault Unit := do
  let x ← m.value inst
  if x.kind.asInst.isSome && x.link.block.isNone then return ()
  else throw (.notUnlinked inst)

/-- Put an instruction at the end of a block. -/
def append (m : Module) (b : BlockId) (inst : ValueId) : Except Fault Module := do
  m.checkUnlinked inst
  m.linkBetween b inst (← m.blockSlot b).last none

/-- Put an instruction immediately before another. -/
def insertBefore (m : Module) (anchor inst : ValueId) : Except Fault Module := do
  m.checkUnlinked inst
  let link := (← m.valueSlot anchor).link
  match link.block with
  | none => throw (.insertBeforeUnlinked anchor)
  | some b => m.linkBetween b inst link.prev (some anchor)

/-- Take an instruction out of its block, if it is in one. -/
def unlink (m : Module) (inst : ValueId) : Except Fault Module := do
  let link := (← m.valueSlot inst).link
  match link.block with
  | none => return m
  | some b =>
    let m ← m.setNext b link.prev link.next
    let m ← m.setPrev b link.next link.prev
    m.modifyValue inst fun x => { x with link := {} }

/-- Move an instruction to the end of a block. -/
def moveToEnd (m : Module) (inst : ValueId) (b : BlockId) : Except Fault Module := do
  (← m.unlink inst).append b inst

/-! ## Reading a chain -/

/-- The walk from an instruction along the forward links, over at most `fuel` instructions. -/
def walk (m : Module) : (fuel : Nat) → Option ValueId → Chain
  | _, none => ⟨[], .closed⟩
  | 0, some _ => ⟨[], .endless⟩
  | fuel + 1, some v =>
    match m.values[v.idx]? with
    | none => ⟨[], .dangling v⟩
    | some x =>
      let rest := m.walk fuel x.link.next
      ⟨v :: rest.insts, rest.ending⟩

/-- The walk along a block. An instruction that is met twice makes it endless, so as many steps
as there are values are enough. -/
def chain (m : Module) (b : BlockId) : Except Fault Chain :=
  return m.walk m.values.size (← m.block b).first

/-- The instructions of a block, in order. -/
def insts (m : Module) (b : BlockId) : Except Fault (List ValueId) := do
  let c ← m.chain b
  c.ending.check
  return c.insts

theorem length_walk_le (m : Module) (fuel : Nat) (v : Option ValueId) :
    (m.walk fuel v).insts.length ≤ fuel := by
  induction fuel generalizing v with
  | zero => cases v <;> simp [walk]
  | succ n ih =>
    cases v with
    | none => simp [walk]
    | some v =>
      simp only [walk]
      split
      · simp
      · simpa using ih _

/-- A block has no more instructions than the module has values. -/
theorem length_insts_le {m : Module} {b : BlockId} {l : List ValueId} (h : m.insts b = .ok l) :
    l.length ≤ m.values.size := by
  obtain ⟨c, hc, h⟩ := bind_eq_ok.1 h
  obtain ⟨x, -, hc⟩ := bind_eq_ok.1 hc
  obtain ⟨-, -, h⟩ := bind_eq_ok.1 h
  cases hc
  cases h
  exact m.length_walk_le _ _

/-- The longest initial part of the instructions of a block that satisfies a test. The walk goes
no further than the first instruction that fails it. -/
def instsWhile (m : Module) (b : BlockId) (test : InstKind → Bool) :
    Except Fault (List ValueId) := do
  let c ← m.chain b
  let passes (v : ValueId) : Bool := (m.values[v.idx]?.bind fun x => x.kind.asInst).any test
  let front := c.insts.takeWhile passes
  if front.length = c.insts.length then c.ending.check
  return front

/-- The last instruction of a block, if it ends the block. -/
def terminator (m : Module) (b : BlockId) : Except Fault (Option ValueId) := do
  match (← m.block b).last with
  | none => return none
  | some v => return if (← m.instKind v).any InstKind.isTerminator then some v else none

/-- The blocks that labels among a list of values name, in order. -/
def labelledBlocks (m : Module) : List ValueId → Except Fault (List BlockId)
  | [] => return []
  | v :: rest => do
    match (← m.kind v).asBlock with
    | some b => return b :: (← m.labelledBlocks rest)
    | none => m.labelledBlocks rest

/-- The distinct blocks to which control can pass from the end of a block. -/
def successors (m : Module) (b : BlockId) : Except Fault (List BlockId) := do
  match ← m.terminator b with
  | none => return []
  | some term => return (← m.labelledBlocks (← m.operands term)).eraseDups

end Module

end SsaCodegen
