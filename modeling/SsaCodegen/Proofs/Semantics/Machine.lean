import Mathlib.Logic.Function.Basic
import SsaCodegen.Target.Program

/-!
# A 32-bit machine

The meaning of machine code. Registers hold words of 32 bits, and there are as many virtual ones as
the code names. Arithmetic wraps around, a shift uses the low five bits of its count, and the zero
register reads as zero whatever is written to it. Memory is an array of bytes; the lowest byte of a
word comes first, and a load of less than a word extends the sign.

A call is not entered: what the functions of a program do is part of the `Platform` it runs on. A
function is given its arguments, the stack pointer and the memory. It keeps the stack pointer and
the registers that the calling convention says it keeps, and puts what it likes in the others.

## Main definitions

* `Memory`, `World` — the memory, and with it a record of the stores and calls so far
* `Target.Platform` — where global variables are and what functions do
* `Target.Inst.step` — what one instruction does
* `Target.Inst.Effect` — the kinds of things that an instruction can do
* `Target.exec`, `Target.run` — what a list of instructions and a list of blocks do
* `Target.Does` — a piece of code without control transfers leads from one state to another
* `Target.Runs` — it does so from every state
-/

namespace SsaCodegen

/-- A word of the machine. -/
abbrev Word := BitVec 32

namespace Word

/-- The low 32 bits of a number. -/
def lit (n : Int64) : Word := n.toBitVec.setWidth 32

/-- One if a condition holds, else zero. -/
def ofBool (b : Bool) : Word := if b then 1 else 0

/-- Signed division. By zero it gives all ones. -/
def div (a b : Word) : Word := if b = 0 then -1 else a.sdiv b

/-- The remainder of signed division. By zero it gives the dividend. -/
def rem (a b : Word) : Word := if b = 0 then a else a.srem b

/-- A shift to the left. -/
def sll (a b : Word) : Word := a <<< (b.toNat % 32)

/-- A shift to the right that keeps the sign. -/
def sra (a b : Word) : Word := a.sshiftRight (b.toNat % 32)

end Word

/-- A memory of bytes. -/
abbrev Memory := Word → BitVec 8

namespace Memory

/-- The signed number of one, two or four bytes at an address. -/
def load (mem : Memory) (addr : Word) : Nat → Word
  | 1 => (mem addr).signExtend 32
  | 2 => (mem (addr + 1) ++ mem addr).signExtend 32
  | _ => mem (addr + 3) ++ mem (addr + 2) ++ mem (addr + 1) ++ mem addr

/-- The memory with the low `size` bytes of a word at an address. -/
def store (mem : Memory) (addr : Word) (size : Nat) (w : Word) : Memory := fun a =>
  if (a - addr).toNat < size then (w >>> (8 * (a - addr).toNat)).setWidth 8 else mem a

end Memory

/-- Something that a program does to its surroundings. -/
inductive Access where
  | store (addr : Word) (size : Nat) (value : Word)
  | call (callee : Nat) (args : List Word)
deriving DecidableEq

/-- The memory, and what was done so far, the latest first. -/
structure World where
  mem : Memory
  log : List Access := []

/-- A store of the low `size` bytes of a word. -/
def World.store (world : World) (addr : Word) (size : Nat) (w : Word) : World :=
  ⟨world.mem.store addr size w, .store addr size w :: world.log⟩

namespace Target

/-- What a function leaves behind: the registers that it need not keep, and the memory. -/
structure Return where
  regs : PhysReg → Word
  mem : Memory

/-- What a program is run with: where its global variables are, in two parts that add up, how many
arguments each function takes, and what each function does with its register arguments, the stack
pointer and the memory. -/
structure Platform where
  address : Nat → Word
  hi : Nat → Word
  lo : Nat → Word
  hi_add_lo : ∀ g, hi g <<< 12 + lo g = address g
  arity : Nat → Nat
  callee : Nat → List Word → Word → Memory → Return

/-- The contents of the registers and the world. -/
structure State where
  regs : Reg → Word
  world : World

namespace State

/-- The zero register. -/
abbrev zero : Reg := .phys riscv32.zero

/-- The stack pointer. -/
abbrev sp : Reg := .phys riscv32.stackPointer

/-- The word that a register reads as. -/
def get (st : State) (r : Reg) : Word := if r = zero then 0 else st.regs r

/-- Write a register. -/
def set (st : State) (r : Reg) (w : Word) : State :=
  { st with regs := Function.update st.regs r w }

/-- The words in the argument registers of a function. -/
def callArgs (p : Platform) (st : State) (f : Nat) : List Word :=
  (riscv32.paramRegs.take (p.arity f)).map fun r => st.get (.phys r)

/-- The registers that a call keeps. -/
def isKept (r : Reg) : Bool :=
  match r with
  | .virt _ => true
  | .phys r => r = riscv32.stackPointer || riscv32.calleeSaved.contains r

/-- Call a function. -/
def call (p : Platform) (st : State) (f : Nat) : State :=
  let args := st.callArgs p f
  let out := p.callee f args (st.get sp) st.world.mem
  { regs := fun r =>
      match r with
      | .virt n => st.regs (.virt n)
      | .phys r => if isKept (.phys r) then st.regs (.phys r) else out.regs r
    world := ⟨out.mem, .call f args :: st.world.log⟩ }

/-- The address that a memory operand stands for. -/
def addressOf (p : Platform) (st : State) (a : Mem) : Word :=
  st.get a.base + match a.disp with
    | .imm n => n.toBitVec
    | .globalLo g => p.lo g

/-- The word that a source of a computation stands for. -/
def value? (p : Platform) (st : State) : Operand → Option Word
  | .reg r => some (st.get r)
  | .imm n => some (.lit n)
  | .globalHi g => some (p.hi g)
  | .globalLo g => some (p.lo g)
  | _ => none

@[simp] theorem world_set (st : State) (r : Reg) (w : Word) : (st.set r w).world = st.world := rfl

@[simp] theorem get_set_self (st : State) {r : Reg} (w : Word) (hr : r ≠ zero) :
    (st.set r w).get r = w := by
  simp [get, set, hr]

@[simp] theorem get_set_of_ne (st : State) {r q : Reg} (w : Word) (hq : q ≠ r) :
    (st.set r w).get q = st.get q := by
  simp [get, set, hq]

@[simp] theorem get_zero (st : State) : st.get zero = 0#32 := if_pos rfl

theorem get_call_of_isKept {r : Reg} (p : Platform) (st : State) (f : Nat) (hr : isKept r) :
    (st.call p f).get r = st.get r := by
  rw [get, get, call]
  cases r with
  | virt n => rfl
  | phys r => simp only [hr, if_true]

theorem get_call_result (p : Platform) (st : State) (f : Nat) :
    (st.call p f).get (.phys riscv32.result) =
      (p.callee f (st.callArgs p f) (st.get sp) st.world.mem).regs riscv32.result := rfl

end State

namespace Opcode

/-- What an operation computes from its sources. -/
def compute : Opcode → List Word → Option Word
  | .add, [a, b] | .addi, [a, b] => some (a + b)
  | .sub, [a, b] => some (a - b)
  | .mul, [a, b] => some (a * b)
  | .div, [a, b] => some (Word.div a b)
  | .rem, [a, b] => some (Word.rem a b)
  | .sll, [a, b] => some (Word.sll a b)
  | .sra, [a, b] => some (Word.sra a b)
  | .and, [a, b] => some (a &&& b)
  | .or, [a, b] => some (a ||| b)
  | .xor, [a, b] | .xori, [a, b] => some (a ^^^ b)
  | .slt, [a, b] => some (.ofBool (a.slt b))
  | .sgt, [a, b] => some (.ofBool (b.slt a))
  | .seqz, [a] => some (.ofBool (a = 0))
  | .snez, [a] => some (.ofBool (a ≠ 0))
  | .lui, [a] => some (a <<< 12)
  | .mv, [a] => some a
  | _, _ => none

/-- The condition under which an operation on two registers branches. -/
def branch? : Opcode → Option (Word → Word → Bool)
  | .beq => some fun a b => a = b
  | .bne => some fun a b => a ≠ b
  | .blt => some fun a b => a.slt b
  | .bgt => some fun a b => b.slt a
  | .bge => some fun a b => b.sle a
  | .ble => some fun a b => a.sle b
  | _ => none

/-- The bytes that an operation loads. -/
def loadSize? : Opcode → Option Nat
  | .lb => some 1
  | .lh => some 2
  | .lw => some 4
  | _ => none

/-- The bytes that an operation stores. -/
def storeSize? : Opcode → Option Nat
  | .sb => some 1
  | .sh => some 2
  | .sw => some 4
  | _ => none

end Opcode

/-- What one instruction does: it hands over to the next, it passes control on or, a branch that is
not taken, falls through, or it has no meaning. -/
inductive Step where
  | next (st : State)
  | goto (block : Nat)
  | fall
  | ret
  | stuck

/-- What one instruction does. -/
def Inst.step (p : Platform) (i : Inst) (st : State) : Step :=
  match i.dst, i.srcs with
  | some dst, [.mem a] =>
    match i.op.loadSize? with
    | some size => .next (st.set dst (st.world.mem.load (st.addressOf p a) size))
    | none => .stuck
  | some dst, srcs =>
    match (srcs.mapM (st.value? p)).bind i.op.compute with
    | some w => .next (st.set dst w)
    | none => .stuck
  | none, [.reg r, .mem a] =>
    match i.op.storeSize? with
    | some size => .next { st with world := st.world.store (st.addressOf p a) size (st.get r) }
    | none => .stuck
  | none, [.block b] => if i.op = .j then .goto b else .stuck
  | none, [.reg r, .block b] =>
    if i.op = .bnez then if st.get r ≠ 0 then .goto b else .fall else .stuck
  | none, [.reg l, .reg r, .block b] =>
    match i.op.branch? with
    | some cond => if cond (st.get l) (st.get r) then .goto b else .fall
    | none => .stuck
  | none, [.func f] => if i.op = .call then .next (st.call p f) else .stuck
  | none, [] => if i.op = .ret then .ret else .stuck
  | none, _ => .stuck

/-- How control leaves a block. -/
inductive Exit where
  | goto (block : Nat)
  | ret
  | stuck
deriving DecidableEq

/-- What a list of instructions does: how it is left, and in which state. -/
def exec (p : Platform) : List Inst → State → Exit × State
  | [], st => (.stuck, st)
  | i :: rest, st =>
    match i.step p st with
    | .next st => exec p rest st
    | .fall => exec p rest st
    | .goto b => (.goto b, st)
    | .ret => (.ret, st)
    | .stuck => (.stuck, st)

/-- What happened in a block, given by its number. -/
structure Visit where
  block : Nat
  exit : Exit
  state : State

/-- The first `n` visits of a run that comes to a block in some state. -/
def run (p : Platform) (blocks : List Block) : Nat → Nat → State → List Visit
  | 0, _, _ => []
  | n + 1, i, st =>
    match blocks[i]? with
    | none => [⟨i, .stuck, st⟩]
    | some b =>
      let (exit, st) := exec p b.insts st
      ⟨i, exit, st⟩ :: match exit with
        | .goto j => run p blocks n j st
        | .ret | .stuck => []

theorem run_goto {p : Platform} {blocks : List Block} {b : Block} {i j : Nat} {st st' : State}
    (hb : blocks[i]? = some b) (h : exec p b.insts st = (.goto j, st')) (n : Nat) :
    run p blocks (n + 1) i st = ⟨i, .goto j, st'⟩ :: run p blocks n j st' := by
  rw [run, hb]
  simp only [h]

theorem run_ret {p : Platform} {blocks : List Block} {b : Block} {i : Nat} {st st' : State}
    (hb : blocks[i]? = some b) (h : exec p b.insts st = (.ret, st')) (n : Nat) :
    run p blocks (n + 1) i st = [⟨i, .ret, st'⟩] := by
  rw [run, hb]
  simp only [h]

/-! ## Pieces of code -/

theorem Opcode.isControl_of_compute {op : Opcode} {ws : List Word} {w : Word}
    (h : op.compute ws = some w) : op.isControl = false := by
  cases op with
  | j | bnez | beq | bne | blt | bgt | bge | ble | ret => simp [compute] at h
  | _ => rfl

theorem Opcode.isControl_of_loadSize {op : Opcode} {size : Nat} (h : op.loadSize? = some size) :
    op.isControl = false := by
  cases op with
  | lb | lh | lw => rfl
  | _ => cases h

theorem Opcode.isControl_of_storeSize {op : Opcode} {size : Nat} (h : op.storeSize? = some size) :
    op.isControl = false ∧ op ≠ .call := by
  cases op with
  | sb | sh | sw => exact ⟨rfl, by decide⟩
  | _ => cases h

theorem Opcode.isControl_of_branch {op : Opcode} {cond : Word → Word → Bool}
    (h : op.branch? = some cond) : op.isControl = true ∧ op ≠ .ret := by
  cases op with
  | beq | bne | blt | bgt | bge | ble => exact ⟨rfl, by decide⟩
  | _ => cases h

/-- What an instruction can do: write the register that it names, change the world, call, pass on
control or fall through, return, or nothing at all. -/
inductive Inst.Effect (p : Platform) (i : Inst) (st : State) : Step → Prop where
  | write (r : Reg) (w : Word) (hop : i.op.isControl = false) (hdst : i.dst = some r) :
    Inst.Effect p i st (.next (st.set r w))
  | store (world : World) (hop : i.op.isControl = false) (hcall : i.op ≠ .call) :
    Inst.Effect p i st (.next { st with world })
  | call (f : Nat) (hop : i.op = .call) : Inst.Effect p i st (.next (st.call p f))
  | goto (b : Nat) (hop : i.op.isControl = true) (hret : i.op ≠ .ret) : Inst.Effect p i st (.goto b)
  | fall (hop : i.op.isControl = true) (hret : i.op ≠ .ret) : Inst.Effect p i st .fall
  | ret (hop : i.op = .ret) : Inst.Effect p i st .ret
  | stuck : Inst.Effect p i st .stuck

theorem Inst.step_effect (p : Platform) (i : Inst) (st : State) : i.Effect p st (i.step p st) := by
  rw [Inst.step]
  split
  · rename_i dst a hd hs
    split
    · rename_i size hsize
      exact .write dst _ (Opcode.isControl_of_loadSize hsize) hd
    · exact .stuck
  · rename_i dst hd _
    split
    · rename_i w hw
      obtain ⟨ws, -, hcompute⟩ := Option.bind_eq_some_iff.1 hw
      exact .write dst w (Opcode.isControl_of_compute hcompute) hd
    · exact .stuck
  · split
    · rename_i size hsize
      obtain ⟨hop, hcall⟩ := Opcode.isControl_of_storeSize hsize
      exact .store _ hop hcall
    · exact .stuck
  · split
    · rename_i hop
      exact .goto _ (by rw [hop]; rfl) (by rw [hop]; decide)
    · exact .stuck
  · split
    · rename_i hop
      have hcontrol : i.op.isControl = true ∧ i.op ≠ .ret := by rw [hop]; decide
      split
      · exact .goto _ hcontrol.1 hcontrol.2
      · exact .fall hcontrol.1 hcontrol.2
    · exact .stuck
  · split
    · rename_i hbranch
      have hcontrol := Opcode.isControl_of_branch hbranch
      split
      · exact .goto _ hcontrol.1 hcontrol.2
      · exact .fall hcontrol.1 hcontrol.2
    · exact .stuck
  · split
    · rename_i hop
      exact .call _ hop
    · exact .stuck
  · split
    · rename_i hop
      exact .ret hop
    · exact .stuck
  · exact .stuck

/-- An instruction that hands over to the next is no control transfer. -/
theorem Inst.isControl_of_step {p : Platform} {i : Inst} {st st' : State}
    (h : i.step p st = .next st') : i.op.isControl = false := by
  have heffect := i.step_effect p st
  rw [h] at heffect
  cases heffect with
  | write _ _ hop | store _ hop => exact hop
  | call _ hop =>
    rw [hop]
    rfl

/-- What an instruction does not write, it leaves as it is, a call only what calls keep. -/
theorem Inst.step_get {p : Platform} {i : Inst} {st st' : State} {r : Reg}
    (h : i.step p st = .next st') (hdst : i.dst ≠ some r)
    (hr : i.op = .call → State.isKept r = true) : st'.get r = st.get r := by
  have heffect := i.step_effect p st
  rw [h] at heffect
  cases heffect with
  | write q w _ hq => exact State.get_set_of_ne st w fun heq => hdst (heq ▸ hq)
  | store => rfl
  | call f hop => exact State.get_call_of_isKept p st f (hr hop)

/-- A piece of code passes on no control. -/
def Straight (code : List Inst) : Prop := ∀ i ∈ code, i.op.isControl = false

/-- A piece of code leads from one state to another, whatever follows it. -/
structure Does (p : Platform) (code : List Inst) (st st' : State) : Prop where
  straight : Straight code
  exec : ∀ rest, exec p (code ++ rest) st = exec p rest st'

theorem Straight.append {code₁ code₂ : List Inst} (h₁ : Straight code₁) (h₂ : Straight code₂) :
    Straight (code₁ ++ code₂) := by
  intro i hi
  exact (List.mem_append.1 hi).elim (h₁ i) (h₂ i)

namespace Does

variable {p : Platform} {st st₁ st' : State}

theorem nil : Does p [] st st := ⟨nofun, fun _ => rfl⟩

theorem single {i : Inst} (h : i.step p st = .next st') : Does p [i] st st' := by
  refine ⟨fun j hj => ?_, fun rest => ?_⟩
  · rw [List.mem_singleton.1 hj, Inst.isControl_of_step h]
  · rw [List.singleton_append, Target.exec, h]

theorem append {code₁ code₂ : List Inst} (h₁ : Does p code₁ st st₁) (h₂ : Does p code₂ st₁ st') :
    Does p (code₁ ++ code₂) st st' := by
  refine ⟨h₁.straight.append h₂.straight, fun rest => ?_⟩
  rw [List.append_assoc, h₁.exec, h₂.exec]

theorem cons {i : Inst} {code : List Inst} (h : i.step p st = .next st₁)
    (hcode : Does p code st₁ st') : Does p (i :: code) st st' :=
  (single h).append hcode

end Does

/-! ## What the instructions that selection uses do -/

section Step

variable (p : Platform) (st : State)

theorem step_compute {op : Opcode} {srcs : List Operand} {ws : List Word} {w : Word} (dst : Reg)
    (hsrcs : srcs.mapM (st.value? p) = some ws) (h : op.compute ws = some w) :
    (Inst.mk op (some dst) srcs).step p st = .next (st.set dst w) := by
  rw [Inst.step]
  split
  · rename_i hmem
    cases hmem
    simp [State.value?] at hsrcs
  · rename_i hdst hs
    cases hdst
    rw [hsrcs, Option.bind_some, h]
  all_goals contradiction

theorem step_onRegs {op : Opcode} {w : Word} (dst l r : Reg)
    (h : op.compute [st.get l, st.get r] = some w) :
    (Inst.onRegs op dst [l, r]).step p st = .next (st.set dst w) :=
  step_compute p st dst (by simp [State.value?]) h

theorem step_mv (dst src : Reg) : (Inst.mv dst src).step p st = .next (st.set dst (st.get src)) :=
  have hsrc : [Operand.reg src].mapM (st.value? p) = some [st.get src] := by simp [State.value?]
  step_compute p st dst hsrc rfl

theorem step_addi (dst src : Reg) (n : Int64) :
    (Inst.addi dst src n).step p st = .next (st.set dst (st.get src + .lit n)) :=
  have hsrcs : [.reg src, .imm n].mapM (st.value? p) = some [st.get src, .lit n] := by
    simp [State.value?]
  step_compute p st dst hsrcs rfl

theorem step_load {op : Opcode} {size : Nat} (dst : Reg) (a : Mem)
    (h : op.loadSize? = some size) :
    (Inst.mk op (some dst) [.mem a]).step p st =
      .next (st.set dst (st.world.mem.load (st.addressOf p a) size)) := by
  simp [Inst.step, h]

theorem step_store {op : Opcode} {size : Nat} (src : Reg) (a : Mem)
    (h : op.storeSize? = some size) :
    (Inst.mk op none [.reg src, .mem a]).step p st =
      .next { st with world := st.world.store (st.addressOf p a) size (st.get src) } := by
  simp [Inst.step, h]

theorem step_call (f : Nat) :
    (Inst.mk .call none [.func f]).step p st = .next (st.call p f) := rfl

end Step

/-! ## Code that runs from every state -/

/-- A piece of code leads on from every state. -/
def Runs (p : Platform) (code : List Inst) : Prop := ∀ st, ∃ st', Does p code st st'

variable {p : Platform} {code code' : List Inst} {st st' : State}

theorem Runs.nil (p : Platform) : Runs p [] := fun st => ⟨st, .nil⟩

theorem Runs.append (h : Runs p code) (h' : Runs p code') : Runs p (code ++ code') := by
  intro st
  obtain ⟨st₁, hdoes⟩ := h st
  obtain ⟨st₂, hdoes'⟩ := h' st₁
  exact ⟨st₂, hdoes.append hdoes'⟩

theorem Runs.straight (h : Runs p code) : Straight code := by
  obtain ⟨st', hdoes⟩ := h ⟨fun _ => 0, ⟨fun _ => 0, []⟩⟩
  exact hdoes.straight

theorem Does.uncons {i : Inst} (h : Does p (i :: code) st st') :
    ∃ st₁, i.step p st = .next st₁ ∧ Does p code st₁ st' := by
  obtain ⟨hop, hstraight⟩ := List.forall_mem_cons.1 h.straight
  have heffect := i.step_effect p st
  cases hstep : i.step p st with
  | next st₁ =>
    refine ⟨st₁, rfl, hstraight, fun rest => ?_⟩
    rw [← h.exec rest, List.cons_append, Target.exec, hstep]
  | stuck =>
    -- what follows would not be reached
    have hexec := h.exec [.jump 0]
    rw [List.cons_append, Target.exec, hstep] at hexec
    cases congrArg Prod.fst hexec
  | goto b | fall | ret =>
    rw [hstep] at heffect
    cases heffect
    simp_all [Opcode.isControl]

/-- A register that is kept by calls and not written has what it had. -/
theorem Does.get_eq {r : Reg} (h : Does p code st st') (hr : State.isKept r = true)
    (hdst : ∀ i ∈ code, i.dst ≠ some r) : st'.get r = st.get r := by
  induction code generalizing st with
  | nil =>
    have hexec := h.exec [.jump 0]
    rw [show st' = st from (congrArg Prod.snd hexec).symm]
  | cons i code ih =>
    obtain ⟨hi, hcode⟩ := List.forall_mem_cons.1 hdst
    obtain ⟨st₁, hstep, hdoes⟩ := h.uncons
    rw [ih hdoes hcode, Inst.step_get hstep hi fun _ => hr]

/-- An operation needs a certain number of sources and asks nothing else of them. -/
theorem Opcode.exists_compute {op : Opcode} {ws ws' : List Word} {w : Word}
    (hlen : ws.length = ws'.length) (h : op.compute ws = some w) :
    ∃ w', op.compute ws' = some w' := by
  rcases ws with _ | ⟨a, _ | ⟨b, _ | ⟨c, rest⟩⟩⟩
  · cases op <;> cases h
  · obtain ⟨x, rfl⟩ := List.length_eq_one_iff.1 hlen.symm
    revert h
    cases op <;> simp [compute]
  · rcases ws' with _ | ⟨x, _ | ⟨y, _ | ⟨z, rest⟩⟩⟩ <;> cases hlen
    revert h
    cases op <;> simp [compute]
  · cases op <;> cases h

theorem State.exists_values {srcs : List Operand} {ws : List Word}
    (h : srcs.mapM (st.value? p) = some ws) (p' : Platform) (st' : State) :
    ∃ ws', srcs.mapM (st'.value? p') = some ws' ∧ ws.length = ws'.length := by
  induction srcs generalizing ws with
  | nil =>
    cases h
    exact ⟨[], rfl, rfl⟩
  | cons o srcs ih =>
    rw [List.mapM_cons] at h
    obtain ⟨w, hw, h⟩ := Option.bind_eq_some_iff.1 h
    obtain ⟨ws, hws, h⟩ := Option.bind_eq_some_iff.1 h
    cases h
    obtain ⟨ws', hws', hlen⟩ := ih hws
    obtain ⟨w', hw'⟩ : ∃ w', st'.value? p' o = some w' := by
      cases o with
      | reg | imm | globalHi | globalLo => exact ⟨_, rfl⟩
      | mem | global | block | func => cases hw
    refine ⟨w' :: ws', ?_, congrArg (· + 1) hlen⟩
    rw [List.mapM_cons, hw', hws']
    rfl

/-- Whether an instruction hands over to the next is no matter of the state or the platform. -/
theorem Inst.exists_next {i : Inst} {st₁ : State} (h : i.step p st = .next st₁) (p' : Platform)
    (st' : State) : ∃ st₂, i.step p' st' = .next st₂ := by
  obtain ⟨op, dst, srcs⟩ := i
  rw [Inst.step] at h
  split at h
  · rename_i r a hdst hsrcs
    cases hdst
    cases hsrcs
    split at h
    · rename_i size hsize
      exact ⟨_, step_load p' st' r a hsize⟩
    · cases h
  · rename_i r hdst hsrcs
    cases hdst
    split at h
    · rename_i w hw
      obtain ⟨ws, hws, hw⟩ := Option.bind_eq_some_iff.1 hw
      obtain ⟨ws', hws', hlen⟩ := State.exists_values hws p' st'
      obtain ⟨w', hw'⟩ := Opcode.exists_compute hlen hw
      exact ⟨_, step_compute p' st' r hws' hw'⟩
    · cases h
  · rename_i r a hdst hsrcs
    cases hdst
    cases hsrcs
    split at h
    · rename_i size hsize
      exact ⟨_, step_store p' st' r a hsize⟩
    · cases h
  · split at h <;> cases h
  · split at h
    · split at h <;> cases h
    · cases h
  · split at h
    · split at h <;> cases h
    · cases h
  · rename_i f hdst hsrcs
    cases hdst
    cases hsrcs
    split at h
    · rename_i hop
      cases hop
      exact ⟨_, step_call p' st' f⟩
    · cases h
  · split at h <;> cases h
  · cases h

/-- Code that leads on from one state on one platform runs on every platform. -/
theorem Does.runs (h : Does p code st st') (p' : Platform) : Runs p' code := by
  induction code generalizing st with
  | nil => exact .nil p'
  | cons i code ih =>
    intro st₀
    obtain ⟨st₁, hstep, hdoes⟩ := h.uncons
    obtain ⟨st₂, hstep'⟩ := Inst.exists_next hstep p' st₀
    obtain ⟨st₃, hdoes'⟩ := ih hdoes st₂
    exact ⟨st₃, .cons hstep' hdoes'⟩

end Target

end SsaCodegen
