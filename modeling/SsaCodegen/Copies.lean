/-!
# Parallel copies

A parallel copy reads all its sources before it writes any destination. `sequentialize` orders its
copies into a sequence of single moves with the same effect: a destination is written once no
remaining copy reads it, and where every destination is still read, which means that only cycles
are left, one source is first saved to a temporary.

Temporaries come from a supply `fresh`, asked in turn: `fresh 0`, `fresh 1`, and so on.

## Main definitions

* `Copy` — one move from a source to a destination
* `Copies.step` — one move of the sequence, or the break of one cycle
* `Copies.sequentialize` — the whole sequence, with the number of temporaries it took
-/

namespace SsaCodegen

/-- A move of the contents of `src` to `dst`. -/
structure Copy (R : Type) where
  dst : R
  src : R
deriving DecidableEq

namespace Copies

variable {R : Type} [DecidableEq R]

/-- Sequencing under way: the copies still to do, the moves chosen so far and the number of
temporaries taken. -/
structure Progress (R : Type) where
  pending : List (Copy R)
  moves : List (Copy R) := []
  temps : Nat := 0

/-- A finished sequence of moves and the number of temporaries in it. -/
structure Sequence (R : Type) where
  moves : List (Copy R)
  temps : Nat

/-- Copies were left over after `bound` steps and `temps` temporaries. -/
structure Exhausted where
  bound : Nat
  temps : Nat
deriving DecidableEq

/-- The destination of a copy is free in a set of copies when no copy to another destination reads
it. -/
def isFree (copies : List (Copy R)) (dst : R) : Bool :=
  copies.all fun other => other.dst = dst || other.src ≠ dst

/-- One step on copies none of which is to itself: carry out the first copy whose destination is
free; if there is none, save the source of the first copy to a temporary and copy from there
later. -/
def step (fresh : Nat → R) (p : Progress R) : Progress R :=
  match p.pending.find? fun c => isFree p.pending c.dst with
  | some c => { p with pending := p.pending.erase c, moves := p.moves ++ [c] }
  | none =>
    match p.pending with
    | [] => p
    | c :: rest =>
      let tmp := fresh p.temps
      { pending := rest ++ [⟨c.dst, tmp⟩]
        moves := p.moves ++ [⟨tmp, c.src⟩]
        temps := p.temps + 1 }

/-- At most `bound` steps, each after the copies of a register to itself are dropped. -/
def run (fresh : Nat → R) : (bound : Nat) → Progress R → Progress R
  | 0, p => p
  | bound + 1, p =>
    let p := { p with pending := p.pending.filter fun c => c.dst ≠ c.src }
    if p.pending.isEmpty then p else run fresh bound (step fresh p)

/-- The steps that a set of copies is given. A cycle costs one step more than it has copies. -/
def bound (copies : List (Copy R)) : Nat := 3 * copies.length + 1

/-- A sequence of moves with the effect of the parallel copy. -/
def sequentialize (fresh : Nat → R) (copies : List (Copy R)) : Except Exhausted (Sequence R) :=
  let p := run fresh (bound copies) { pending := copies }
  if p.pending.all fun c => c.dst = c.src then .ok ⟨p.moves, p.temps⟩
  else .error ⟨bound copies, p.temps⟩

end Copies

end SsaCodegen
