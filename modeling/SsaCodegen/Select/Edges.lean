import SsaCodegen.Select.Control

/-!
# Copies on edges

The value of a phi is copied into its register on the way in. The copies for an edge happen at the
end of its source block when that block goes nowhere else. A conditional branch still reads its
operands after that point, so an edge out of one gets a block of its own, named after the two blocks
it joins.

All copies of an edge happen together. They are gathered as pending copies first and put in sequence
when the code of every block is there.

## Main definitions

* `Draft` — the blocks of a function under construction
* `Scope.recordPhis` — gather the copies for all phis
* `Draft.resolve` — put the copies of every block in sequence
-/

namespace SsaCodegen

/-- The blocks of a function so far, those of the function itself first, and the edges that have
one of their own. -/
structure Draft where
  blocks : List Target.Block
  edges : EdgeBlocks := []

/-- The name with a number, which is left out for zero. -/
def numberedName (base : String) (n : Nat) : String := if n = 0 then base else s!"{base}.{n}"

/-- The first of `base`, `base.1`, `base.2` and so on that is not taken. -/
def freeName (taken : List String) (base : String) : String :=
  numberedName base
    (((List.range (taken.length + 1)).find? fun n => !taken.contains (numberedName base n)).getD 0)

namespace Draft

/-- Change a block. -/
def modifyBlock (d : Draft) (i : Nat) (f : Target.Block → Target.Block) : Draft :=
  { d with blocks := d.blocks.modify i f }

/-- Add a block for an edge. It goes on to block `dest`. -/
def addEdge (d : Draft) (edge : BlockId × BlockId) (base : String) (depth dest : Nat) : Draft :=
  { blocks := d.blocks ++
      [{ name := freeName (d.blocks.map (·.name)) base, depth, insts := [.jump dest] }]
    edges := (edge, d.blocks.length) :: d.edges }

/-- Add a copy to those that a block does before it passes control on, with the instructions that
fill its source. -/
def addCopy (d : Draft) (holder : Nat) (copy : Copy Target.Reg) (code : Code) : Draft :=
  d.modifyBlock holder fun b =>
    { b.insertBeforeExit code with pending := b.pending ++ [copy] }

end Draft

namespace Scope

open SelectM

/-- Whether a block ends in a conditional branch. -/
def endsConditionally (m : Module) (b : BlockId) : Except Fault Bool := do
  match ← m.terminator b with
  | none => return false
  | some term => return (← m.operands term).length = 3

/-- The block that does the copies for an edge, which is added if the edge needs one of its
own. -/
def copyHolder (sc : Scope) (d : Draft) (pred succ : BlockId) : Except Fault (Nat × Draft) := do
  if ← endsConditionally sc.module pred then
    match d.edges.lookup (pred, succ) with
    | some holder => return (holder, d)
    | none =>
      let source ← sc.blockNumber pred
      let base := (← sc.module.block pred).name ++ "." ++ (← sc.module.block succ).name
      let depth := (← lookupOr .outOfRange d.blocks[source]?).depth
      return (d.blocks.length, d.addEdge (pred, succ) base depth (← sc.blockNumber succ))
  else return (← sc.blockNumber pred, d)

/-- Gather the copies for the incoming values of a phi in block `b`. -/
def recordIncoming (sc : Scope) (b : BlockId) (phi : ValueId) (dst : Target.Reg) (d : Draft) :
    List ValueId → SelectM Draft
  | [] => return d
  | [_] => halt (.selectingOddPhi phi)
  | value :: label :: rest => do
    match (← sc.module.kind label).asBlock with
    | none => halt (.selectingPhiIncomingNotBlock phi)
    | some pred =>
      let (holder, d) ← sc.copyHolder d pred b
      let (src, code) ← sc.regOf phi value
      sc.recordIncoming b phi dst (d.addCopy holder ⟨dst, src⟩ code) rest

/-- The phis of a block, wherever they stand in it. -/
def phisOf (m : Module) (b : BlockId) : Except Fault (List ValueId) := do
  return (← m.insts b).filter fun v => m.values[v.idx]?.any fun x => x.kind = .inst .phi

/-- Give every phi of some blocks its register. -/
def reservePhis (sc : Scope) : List BlockId → SelectM (List (BlockId × ValueId))
  | [] => return []
  | b :: rest => do
    let phis ← phisOf sc.module b
    phis.forM fun phi => do let _ ← sc.valueReg phi
    return phis.map (b, ·) ++ (← sc.reservePhis rest)

/-- Gather the copies for phis in turn. -/
def recordEach (sc : Scope) (d : Draft) : List (BlockId × ValueId) → SelectM Draft
  | [] => return d
  | (b, phi) :: rest => do
    let dst ← sc.valueReg phi
    sc.recordEach (← sc.recordIncoming b phi dst d (← sc.module.operands phi)) rest

/-- Gather the copies for all phis of the function, after each has its register. -/
def recordPhis (sc : Scope) (d : Draft) : SelectM Draft := do
  sc.recordEach d (← sc.reservePhis sc.blocks)

end Scope

namespace Draft

open SelectM

/-- Put the pending copies of a block in sequence, before it passes control on. -/
def resolveBlock (b : Target.Block) : SelectM Target.Block := do
  let first := (← get).names.length
  match Copies.sequentialize (fun k => Target.Reg.virt (first + k)) b.pending with
  | .error e => refuse (.phiResolutionExhausted b.name e.bound)
  | .ok s =>
    modify fun r => { r with names := r.names ++ List.replicate s.temps none }
    let moves := s.moves.map fun c => Target.Inst.mv c.dst c.src
    return { b.insertBeforeExit moves with pending := [] }

/-- Put the pending copies of every block in sequence. -/
def resolve (d : Draft) : SelectM (List Target.Block) := d.blocks.mapM resolveBlock

end Draft

end SsaCodegen
