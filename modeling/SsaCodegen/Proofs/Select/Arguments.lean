import SsaCodegen.Proofs.Select.Assembly
import SsaCodegen.Proofs.Select.Preservation

/-!
# Where arguments are passed

A caller and the function that it calls work out on their own where an argument is. The caller
counts from its stack pointer; the function counts from its own, past its frame. Both come to the
same register or the same address, and no store for one argument reaches into the place of another,
so a function finds in its parameters what its caller has passed.

## Main definitions

* `argPlace` — where an argument is passed
* `Module.operandWord` — the word of an operand in the code of a function
* `Module.PutsArgs`, `Module.TakesParams` — the two sides of a call
* `Module.selection` — the code of a function, with the registers of its values

## Main results

* `Activation.pass_holds` — stores for arguments do not overlap
* `Scope.lowerCall_setup` — the code before a call puts each argument into its place
* `Scope.prologue_takes` — the code on entry takes each parameter from its place
* `Module.select_arguments_agree` — a function finds what its caller has passed
-/

namespace SsaCodegen

open Target SelectM Registers

/-! ## Bytes -/

namespace Word

/-- A byte of a word, the lowest first. -/
def byte (w : Word) (k : Nat) : BitVec 8 := (w >>> (8 * k)).setWidth 8

/-- The signed number in the low bytes of a word. -/
def narrow (w : Word) : Nat → Word
  | 1 => (w.setWidth 8).signExtend 32
  | 2 => (w.setWidth 16).signExtend 32
  | _ => w

end Word

namespace Memory

variable {mem : Memory} {addr : Word} {size : Nat} {w : Word}

/-- Some bytes of memory are the low bytes of a word. -/
def Shows (mem : Memory) (addr : Word) (size : Nat) (w : Word) : Prop :=
  ∀ k < size, mem (addr + .ofNat 32 k) = w.byte k

/-- What is loaded is the signed number in the bytes. -/
theorem Shows.load (h : mem.Shows addr size w) {n : Nat} (hn : n ≤ size) (hwidth : n ∈ [1, 2, 4]) :
    mem.load addr n = w.narrow n := by
  have hbyte {k : Nat} (hk : k < n) : mem (addr + .ofNat 32 k) = w.byte k :=
    h k (Nat.lt_of_lt_of_le hk hn)
  have hzero (hn : 0 < n) : mem addr = w.byte 0 := by
    rw [← hbyte hn]
    exact congrArg mem (BitVec.add_zero addr).symm
  simp only [List.mem_cons, List.not_mem_nil, or_false] at hwidth
  rcases hwidth with rfl | rfl | rfl
  · rw [Memory.load, hzero (by decide)]
    rfl
  · have h₁ : mem (addr + 1) = w.byte 1 := hbyte (by decide)
    have hjoin : w.byte 1 ++ w.byte 0 = w.setWidth 16 := by
      ext i hi
      simp [Word.byte]
      grind
    rw [Memory.load, h₁, hzero (by decide), hjoin]
    rfl
  · have h₁ : mem (addr + 1) = w.byte 1 := hbyte (by decide)
    have h₂ : mem (addr + 2) = w.byte 2 := hbyte (by decide)
    have h₃ : mem (addr + 3) = w.byte 3 := hbyte (by decide)
    have hjoin : w.byte 3 ++ w.byte 2 ++ w.byte 1 ++ w.byte 0 = w := by
      ext i hi
      simp [Word.byte]
      grind
    rw [Memory.load, h₁, h₂, h₃, hzero (by decide), hjoin]
    · rfl
    · decide
    · decide

theorem store_shows (mem : Memory) (addr : Word) (w : Word) (hsize : size ≤ 4) :
    (mem.store addr size w).Shows addr size w := by
  intro k hk
  have hoffset : (addr + .ofNat 32 k - addr).toNat = k := by
    rw [BitVec.add_comm, BitVec.add_sub_cancel, BitVec.toNat_ofNat]
    exact Nat.mod_eq_of_lt (by omega)
  rw [store, hoffset, if_pos hk]
  rfl

/-- A store leaves what lies below it. -/
theorem store_below (mem : Memory) (base w : Word) {offset slot : Nat} (hsize : size ≤ 4)
    (hslot : slot + 4 ≤ UInt32.size) (h : offset < slot) :
    mem.store (base + .ofNat 32 slot) size w (base + .ofNat 32 offset) =
      mem (base + .ofNat 32 offset) := by
  change slot + 4 ≤ 2 ^ 32 at hslot
  have hdiff : (base + .ofNat 32 offset - (base + .ofNat 32 slot)).toNat =
      2 ^ 32 - (slot - offset) := by
    rw [BitVec.toNat_sub, BitVec.toNat_add, BitVec.toNat_add, BitVec.toNat_ofNat,
      BitVec.toNat_ofNat]
    omega
  rw [store, hdiff, if_neg (by omega)]

end Memory

/-! ## Places -/

/-- Where an argument is passed: in a register or at an address. -/
inductive Place where
  | reg (r : PhysReg)
  | mem (addr : Word)

namespace Place

/-- A place holds a word. In memory only its low `size` bytes count. -/
def Holds (st : State) (size : Nat) (w : Word) : Place → Prop
  | reg r => st.get (.phys r) = w
  | mem addr => st.world.mem.Shows addr size w

/-- The word that is read from a place. In memory it is the signed number in `size` bytes. -/
def read (st : State) (size : Nat) : Place → Word
  | reg r => st.get (.phys r)
  | mem addr => st.world.mem.load addr size

/-- What is read of a word from a place that holds it. -/
def receive (size : Nat) (w : Word) : Place → Word
  | reg _ => w
  | mem _ => w.narrow size

end Place

/-- The offset on the stack of an argument that has no register. -/
def stackOffset (i : Nat) : Nat := (i - riscv32.paramRegs.length) * riscv32.word

theorem stackOffset_eq (i : Nat) : stackOffset i = (i - 8) * 4 := rfl

/-- Where the argument number `i` of a call is passed, for the stack pointer at the call: in its
register, or in its word on the stack. -/
def argPlace (sp : Word) (i : Nat) : Place :=
  match riscv32.paramRegs[i]? with
  | some r => .reg r
  | none => .mem (sp + .ofNat 32 (stackOffset i))

/-- A function is entered with what its caller leaves: the memory, the stack pointer and the
argument registers. -/
structure HandsOver (st st₁ : State) : Prop where
  mem : st₁.world.mem = st.world.mem
  sp : st₁.get State.sp = st.get State.sp
  args : ∀ r ∈ riscv32.paramRegs, st₁.get (.phys r) = st.get (.phys r)

theorem HandsOver.holds {st st₁ : State} {sp w : Word} {i size : Nat} (h : HandsOver st st₁)
    (hst : (argPlace sp i).Holds st size w) : (argPlace sp i).Holds st₁ size w := by
  rw [argPlace] at hst ⊢
  split
  · rename_i r hr
    rw [hr] at hst
    exact (h.args r (List.mem_of_getElem? hr)).trans hst
  · rename_i hr
    rw [hr] at hst
    show st₁.world.mem.Shows _ _ _
    rw [h.mem]
    exact hst

/-- An argument that has no register has a word on the stack, and its width can be moved at once. -/
structure Module.Stacks (m : Module) (i : Nat) (v : ValueId) : Prop where
  room : stackOffset i + riscv32.word ≤ UInt32.size
  width : m.bytesOf v ∈ [1, 2, 4]

theorem Module.Stacks.bytesOf_le {m : Module} {i : Nat} {v : ValueId} (h : m.Stacks i v) :
    m.bytesOf v ≤ 4 := by
  have hwidth := h.width
  simp only [List.mem_cons, List.not_mem_nil, or_false] at hwidth
  omega

/-- What is read from a place that holds a word, if it holds as many bytes as are read. -/
theorem read_argPlace {m : Module} {v : ValueId} {st : State} {sp w : Word} {i size : Nat}
    (h : riscv32.paramRegs.length ≤ i → m.Stacks i v) (hst : (argPlace sp i).Holds st size w)
    (hsize : m.bytesOf v ≤ size) :
    (argPlace sp i).read st (m.bytesOf v) = (argPlace sp i).receive (m.bytesOf v) w := by
  rw [argPlace] at hst ⊢
  split
  · rename_i r hr
    rw [hr] at hst
    exact hst
  · rename_i hr
    rw [hr] at hst
    exact Memory.Shows.load hst hsize (h (List.getElem?_eq_none_iff.1 hr)).width

/-! ## Stores for arguments -/

namespace Activation

variable {a : Activation} {m : Module} {index : Nat} {args : List (ValueId × Word)}

/-- The stores for arguments leave what lies below the first of them. -/
theorem pass_below (hstacks : ∀ {j q}, args[j]? = some q → riscv32.paramRegs.length ≤ index + j →
      m.Stacks (index + j) q.1) (world : World) {offset : Nat} (h : offset < stackOffset index) :
    (a.pass m index args world).mem (a.base + .ofNat 32 offset) =
      world.mem (a.base + .ofNat 32 offset) := by
  induction args generalizing index world with
  | nil => rfl
  | cons q rest ih =>
    rw [pass, ih]
    · split
      · rfl
      · have hq := hstacks (j := 0) rfl (Nat.le_of_not_lt (by assumption))
        exact world.mem.store_below a.base q.2 hq.bytesOf_le hq.room h
    · intro j q hq
      have hidx : index + 1 + j = index + (j + 1) := by omega
      rw [hidx]
      exact hstacks hq
    · rw [stackOffset_eq] at h ⊢
      omega

/-- After the stores for arguments, each argument without a register is in its place. -/
theorem pass_holds (hstacks : ∀ {j q}, args[j]? = some q → riscv32.paramRegs.length ≤ index + j →
      m.Stacks (index + j) q.1) (world : World) {j : Nat} {q : ValueId × Word}
    (hq : args[j]? = some q) (hj : riscv32.paramRegs.length ≤ index + j) :
    (a.pass m index args world).mem.Shows (a.base + .ofNat 32 (stackOffset (index + j)))
      (m.bytesOf q.1) q.2 := by
  induction args generalizing index world j with
  | nil => cases hq
  | cons q' rest ih =>
    have hrest {j : Nat} {q : ValueId × Word} (hq : rest[j]? = some q) :
        riscv32.paramRegs.length ≤ index + 1 + j → m.Stacks (index + 1 + j) q.1 := by
      have hidx : index + 1 + j = index + (j + 1) := by omega
      rw [hidx]
      exact hstacks hq
    cases j with
    | zero =>
      cases hq
      have hsize := (hstacks (j := 0) rfl hj).bytesOf_le
      rw [Nat.add_zero] at hj ⊢
      have hnext : stackOffset index + 4 = stackOffset (index + 1) := by
        have hlen : riscv32.paramRegs.length = 8 := rfl
        rw [stackOffset_eq, stackOffset_eq]
        omega
      intro k hk
      -- the later arguments are stored above this one
      rw [pass, if_neg (Nat.not_lt_of_le hj), BitVec.add_assoc, ← BitVec.ofNat_add,
        pass_below hrest _ (by omega), BitVec.ofNat_add, ← BitVec.add_assoc]
      exact world.mem.store_shows _ q.2 hsize k hk
    | succ j =>
      have hidx : index + (j + 1) = index + 1 + j := by omega
      rw [hidx] at hj ⊢
      exact ih hrest _ hq hj

end Activation

/-! ## The two sides of a call -/

/-- The word of an operand: in its register if it is computed, else by what it is. -/
def Module.operandWord (m : Module) (p : Platform) (S : Registers) (st : State) (v : ValueId) :
    Option Word :=
  match m.kindOf v with
  | some (.global g) => some (p.address g.idx)
  | some (.const c) => c.asInt.map .lit
  | some (.param _ _) | some (.inst _) => (S.held.lookup v).map st.get
  | some (.block _) | none => none

/-- Code puts every argument of a call into its place. -/
def Module.PutsArgs (m : Module) (v : ValueId) (S : Registers) (setup : Code) : Prop :=
  ∀ p st, ∃ st', Does p setup st st' ∧ st'.get State.sp = st.get State.sp ∧
    ∀ {i arg}, (m.operandsOf v)[i]? = some arg → ∃ w, m.operandWord p S st arg = some w ∧
      (argPlace (st.get State.sp) i).Holds st' (m.bytesOf arg) w

/-- Code takes every parameter of a function from its place, and makes room for a frame. -/
def Module.TakesParams (m : Module) (g : FuncId) (S : Registers) (size : Nat) (entry : Code) :
    Prop :=
  ∀ p st, ∃ st', Does p entry st st' ∧ st'.get State.sp + .ofNat 32 size = st.get State.sp ∧
    ∀ {i param}, (m.paramsOf g)[i]? = some param → ∃ r, S.held.lookup param = some r ∧
      st'.get r = (argPlace (st.get State.sp) i).read st (m.bytesOf param)

/-! ## The caller -/

theorem Target.Opcode.storeSize_mem {op : Opcode} {size : Nat} (h : op.storeSize? = some size) :
    size ∈ [1, 2, 4] := by
  cases op with
  | sb | sh | sw =>
    cases h
    decide
  | _ => cases h

theorem Target.Opcode.loadSize_mem {op : Opcode} {size : Nat} (h : op.loadSize? = some size) :
    size ∈ [1, 2, 4] := by
  cases op with
  | lb | lh | lw =>
    cases h
    decide
  | _ => cases h

namespace Scope

variable {sc : Scope} {p : Platform} {s s' S : Registers} {st : State} {v : ValueId} {w : Word}
  {code : Code}

theorem stands_of_operandWord (h : sc.module.operandWord p S st v = some w) :
    sc.Stands p S st v w := by
  cases hk : sc.module.kindOf v with
  | none =>
    rw [Stands, hk]
    trivial
  | some kind =>
    rw [Module.operandWord, hk] at h
    rw [Stands, hk]
    cases kind with
    | global g => exact (Option.some.inj h).symm
    | const c =>
      intro n hn
      simp only [hn] at h
      exact (Option.some.inj h).symm
    | param | inst =>
      intro r hr
      simp only [hr] at h
      exact Option.some.inj h
    | block b => trivial

/-- An operand that is brought into a register has a word. -/
theorem exists_operandWord_of_regOf {user : ValueId} {r : Reg}
    (h : sc.regOf user v s = .ok ((r, code), s')) (hS : Grows s' S) (p : Platform) (st : State) :
    ∃ w, sc.module.operandWord p S st v = some w := by
  obtain ⟨kind, hkind, h⟩ := lift_bind_ok.1 h
  rw [Module.operandWord, Module.kindOf_of_kind hkind]
  have hheld (h : (do return (← sc.valueReg v, [])) s = .ok ((r, code), s')) :
      ∃ w, (S.held.lookup v).map st.get = some w := by
    obtain ⟨r', s₁, hr, h⟩ := bind_ok.1 h
    obtain ⟨-, rfl⟩ := pure_ok.1 h
    exact ⟨_, congrArg (Option.map st.get) (hS.lookup (valueReg_ok hr).2)⟩
  cases kind with
  | global g => exact ⟨_, rfl⟩
  | const c =>
    dsimp only at h ⊢
    cases hn : c.asInt with
    | some n => exact ⟨_, rfl⟩
    | none =>
      rw [hn] at h
      exact absurd h refuse_ne_ok
  | param | inst => exact hheld h
  | block b =>
    obtain ⟨n, s₁, -, h⟩ := bind_ok.1 h
    exact absurd h refuse_ne_ok

theorem exists_operandWords_of_argRegs {args : List ValueId} {regs : List (ValueId × Reg)}
    (hs : s.Wf) (h : sc.argRegs v args s = .ok ((regs, code), s')) (hS : Grows s' S) (p : Platform)
    (st : State) :
    ∃ ws, List.Forall₂ (fun arg w => sc.module.operandWord p S st arg = some w) args ws := by
  induction args generalizing s regs code with
  | nil => exact ⟨[], .nil⟩
  | cons arg rest ih =>
    obtain ⟨⟨r, argCode⟩, s₁, harg, h⟩ := bind_ok.1 h
    obtain ⟨⟨regs', restCode⟩, s₂, hrest, h⟩ := bind_ok.1 h
    obtain ⟨-, rfl⟩ := pure_ok.1 h
    have hs₁ := (regOf_keeps hs.apart harg).1.wf hs
    have hg := (argRegs_keeps hs₁.apart hrest).1
    obtain ⟨w, hw⟩ := exists_operandWord_of_regOf harg (hg.trans hS) p st
    obtain ⟨ws, hws⟩ := ih hs₁ hrest
    exact ⟨w :: ws, .cons hw hws⟩

theorem stacks_of_fit {m : Module} {i n : Nat} {ty : Ty}
    (hfit : Size.fit ((i - riscv32.paramRegs.length) * riscv32.word) = .ok n)
    (hty : m.ty v = .ok ty) (hwidth : m.types.size ty ∈ [1, 2, 4]) : m.Stacks i v where
  room := by
    have hlt : stackOffset i < 2 ^ 32 := (Size.fit_eq_ok.1 hfit).1
    change stackOffset i + 4 ≤ 2 ^ 32
    rw [stackOffset_eq] at hlt ⊢
    omega
  width := by
    rw [Module.bytesOf_of_ty hty]
    exact hwidth

theorem passStackArg_stacks {arg : ValueId} {src : Reg} {i : Nat} (ht : sc.target = riscv32) :
    Keeps ∅ (sc.passStackArg v arg src (i - riscv32.paramRegs.length))
      fun _ => sc.module.Stacks i arg := by
  refine .bind (.lift fun ty hty => hty) fun ty hty => ?_
  refine .bind (P := fun _ => sc.module.types.size ty ∈ [1, 2, 4]) ?_ fun op hwidth => ?_
  · intro s s' op _ hop
    obtain ⟨hsize, rfl⟩ := storeOp_ok hop
    exact ⟨.refl, Opcode.storeSize_mem hsize⟩
  rw [ht]
  refine .bind (.lift fun offset hoffset => hoffset) fun offset hoffset => ?_
  obtain ⟨n, hn, -⟩ := SsaCodegen.bind_eq_ok.1 hoffset
  exact .bind Target.Spec.stackSlot_keeps fun _ _ => .pure (stacks_of_fit hn hty hwidth)

/-- Arguments are passed one after the other, so what holds of each holds of all. -/
theorem forall_getElem?_cons {α : Type} {P : Nat → α → Prop} {index : Nat} {a : α} {l : List α}
    (ha : P index a) (hl : ∀ {j b}, l[j]? = some b → P (index + 1 + j) b) {j : Nat} {b : α}
    (hb : (a :: l)[j]? = some b) : P (index + j) b := by
  cases j with
  | zero =>
    cases hb
    exact ha
  | succ j =>
    have hidx : index + (j + 1) = index + 1 + j := by omega
    rw [hidx]
    exact hl hb

theorem passArgs_stacks {index : Nat} {regs : List (ValueId × Reg)} (ht : sc.target = riscv32) :
    Keeps ∅ (sc.passArgs v index regs) fun _ => ∀ {j q}, regs[j]? = some q →
      riscv32.paramRegs.length ≤ index + j → sc.module.Stacks (index + j) q.1 := by
  let P (i : Nat) (q : ValueId × Reg) : Prop :=
    riscv32.paramRegs.length ≤ i → sc.module.Stacks i q.1
  induction regs generalizing index with
  | nil => exact .pure nofun
  | cons q rest ih =>
    unfold passArgs
    dsimp only
    rw [ht]
    split
    · rename_i r hr
      refine .bind (.pure (P := fun _ => True) trivial) fun _ _ => ?_
      refine .bind ih fun _ hrest => .pure (forall_getElem?_cons (P := P) (fun hle => ?_) hrest)
      exact absurd (List.getElem?_eq_some_iff.1 hr).1 (Nat.not_lt_of_le hle)
    · refine .bind (passStackArg_stacks ht) fun _ hq => .bind ih fun _ hrest => .pure ?_
      exact forall_getElem?_cons (P := P) (fun _ => hq) hrest

/-- The code of instructions is that of the first of them and then that of the others. -/
theorem lowerInsts_append {saves : Saves} {edges : EdgeBlocks} {b : BlockId}
    {before after : List ValueId}
    (h : sc.lowerInsts saves edges b (before ++ after) s = .ok (code, s')) :
    ∃ front back s₁, sc.lowerInsts saves edges b before s = .ok (front, s₁) ∧
      sc.lowerInsts saves edges b after s₁ = .ok (back, s') ∧ code = front ++ back := by
  induction before generalizing s code with
  | nil => exact ⟨[], code, s, rfl, h, rfl⟩
  | cons v rest ih =>
    obtain ⟨here, later, s₁, hhere, hlater, rfl⟩ := lowerInsts_cons h
    obtain ⟨front, back, s₂, hfront, hback, rfl⟩ := ih hlater
    refine ⟨here ++ front, back, s₂, ?_, hback, (List.append_assoc ..).symm⟩
    exact bind_ok.2 ⟨here, s₁, hhere, bind_ok.2 ⟨front, s₂, hfront, rfl⟩⟩

/-- The code of the last instruction comes last. -/
theorem lowerInsts_concat {saves : Saves} {edges : EdgeBlocks} {b : BlockId}
    {init : List ValueId} {last : ValueId}
    (h : sc.lowerInsts saves edges b (init ++ [last]) s = .ok (code, s')) :
    ∃ front back s₁, sc.lowerInsts saves edges b init s = .ok (front, s₁) ∧
      sc.lowerInst saves edges b last s₁ = .ok (back, s') ∧ code = front ++ back := by
  obtain ⟨front, back, s₁, hfront, hback, rfl⟩ := lowerInsts_append h
  obtain ⟨here, later, s₂, hhere, hlater, rfl⟩ := lowerInsts_cons hback
  obtain ⟨rfl, rfl⟩ := pure_ok.1 hlater
  exact ⟨front, here, s₁, hfront, hhere, by rw [List.append_nil]⟩

/-- The code that brings arguments into registers and passes them puts each into its place. -/
theorem passArgs_putsArgs {regs : List (ValueId × Reg)} {argCode passCode : Code} {s₁ : Registers}
    (ht : sc.target = riscv32) (hs : s.Wf)
    (hargs : sc.argRegs v (sc.module.operandsOf v) s = .ok ((regs, argCode), s₁))
    (hpass : sc.passArgs v 0 regs s₁ = .ok (passCode, s')) (hS : Grows s' S) :
    sc.module.PutsArgs v S (argCode ++ passCode) := by
  intro p st
  obtain ⟨hg, hmap, hhas, hcode⟩ := argRegs_ok (p := p) ht hs hargs
  have hs₁ := hg.wf hs
  obtain ⟨hg', hstacks⟩ := passArgs_stacks ht hs₁.apart hpass
  obtain ⟨ws, hws⟩ := exists_operandWords_of_argRegs hs hargs (hg'.trans hS) p st
  obtain ⟨st₁, hdoes, hquiet, hgets⟩ :=
    hcode (hg'.trans hS) (hws.imp fun _ _ hw => stands_of_operandWord hw)
  let a : Activation := ⟨sc.frame, st.get State.sp, fun _ => 0⟩
  have hsp : st₁.get State.sp = a.base := hquiet.get (s.knows_phys _).not_scratch
  obtain ⟨st', hdoes', hworld, hpassed, hkept⟩ :=
    (passArgs_ok (p := p) (a := a) ht hs₁ hhas hpass).2 hgets hsp
  have hsp_ne : ∀ r ∈ riscv32.paramRegs, State.sp ≠ .phys r := by decide
  refine ⟨st', hdoes.append hdoes', ?_, fun {i arg} harg => ?_⟩
  · rw [hkept hsp_ne (s₁.knows_phys _).not_scratch, hsp]
  obtain ⟨w, hw, hword⟩ := forall₂_getElem? hws harg
  refine ⟨w, hword, ?_⟩
  rw [argPlace]
  split
  · rename_i r hr
    exact hpassed (r, w) (List.mem_of_getElem? (List.getElem?_zip_eq_some.2 ⟨hr, hw⟩))
  · rename_i hnone
    have hfits {j : Nat} {q : ValueId × Word}
        (hq : ((sc.module.operandsOf v).zip ws)[j]? = some q)
        (hj : riscv32.paramRegs.length ≤ 0 + j) : sc.module.Stacks (0 + j) q.1 := by
      obtain ⟨harg, -⟩ := List.getElem?_zip_eq_some.1 hq
      rw [← hmap, List.getElem?_map] at harg
      obtain ⟨x, hx, heq⟩ := Option.map_eq_some_iff.1 harg
      rw [← heq]
      exact hstacks hx hj
    have hpair : ((sc.module.operandsOf v).zip ws)[i]? = some (arg, w) :=
      List.getElem?_zip_eq_some.2 ⟨harg, hw⟩
    have hle : riscv32.paramRegs.length ≤ 0 + i :=
      (List.getElem?_eq_none_iff.1 hnone).trans_eq (Nat.zero_add i).symm
    have hshows := a.pass_holds hfits st₁.world hpair hle
    show st'.world.mem.Shows _ _ _
    rw [hworld, hmap]
    rwa [Nat.zero_add] at hshows

/-- The code of a call is code that puts each argument into its place, the call and, at most, code
that takes the result. -/
theorem lowerCall_setup {callee : FuncId} (ht : sc.target = riscv32) (hs : s.Wf)
    (h : sc.lowerCall v callee s = .ok (code, s')) :
    ∃ setup rest, code = setup ++ ⟨.call, none, [.func callee.idx]⟩ :: rest ∧ callees setup = [] ∧
      callees rest = [] ∧ ∀ {S}, Grows s' S → sc.module.PutsArgs v S setup := by
  obtain ⟨ty, regs, argCode, passCode, s₁, s₂, -, hargs, hpass, hcases⟩ := lowerCall_parts h
  obtain ⟨hg, hargCalm⟩ := argRegs_keeps hs.apart hargs
  obtain ⟨-, hpassCalm⟩ := passArgs_keeps (fun _ _ => Set.notMem_empty _) (hg.wf hs).apart hpass
  have hnone : callees (argCode ++ passCode) = [] :=
    callees_eq_nil fun i hi => (hargCalm.append hpassCalm i hi).2.1
  rcases hcases with ⟨-, rfl, rfl⟩ | ⟨-, dst, hdst, rfl⟩
  · exact ⟨_, [], rfl, hnone, rfl, passArgs_putsArgs ht hs hargs hpass⟩
  · refine ⟨_, [_], List.append_assoc .., hnone, rfl, fun hS => ?_⟩
    exact passArgs_putsArgs ht hs hargs hpass ((valueReg_ok hdst).1.trans hS)

/-! ## The function that is called -/

theorem takeStackParam_stacks {param : ValueId} {dst : Reg} {i : Nat} (ht : sc.target = riscv32) :
    Keeps ∅ (sc.takeStackParam param dst (i - riscv32.paramRegs.length))
      fun _ => sc.module.Stacks i param := by
  refine .bind (.lift fun ty hty => hty) fun ty hty => ?_
  refine .bind (P := fun _ => sc.module.types.size ty ∈ [1, 2, 4]) ?_ fun op hwidth => ?_
  · intro s s' op _ hop
    obtain ⟨hsize, rfl⟩ := loadOp_ok hop
    exact ⟨.refl, Opcode.loadSize_mem hsize⟩
  rw [ht]
  refine .bind (.lift fun offset hoffset => hoffset) fun offset hoffset => ?_
  obtain ⟨n, hn, -⟩ := SsaCodegen.bind_eq_ok.1 hoffset
  exact .bind Target.Spec.stackSlot_keeps fun _ _ => .pure (stacks_of_fit hn hty hwidth)

theorem takeParams_stacks {index : Nat} {params : List ValueId} (ht : sc.target = riscv32) :
    Keeps ∅ (sc.takeParams index params) fun _ => ∀ {j v}, params[j]? = some v →
      riscv32.paramRegs.length ≤ index + j → sc.module.Stacks (index + j) v := by
  let P (i : Nat) (v : ValueId) : Prop := riscv32.paramRegs.length ≤ i → sc.module.Stacks i v
  induction params generalizing index with
  | nil => exact .pure nofun
  | cons v rest ih =>
    unfold takeParams
    refine .bind valueReg_keeps fun dst _ => ?_
    dsimp only
    rw [ht]
    split
    · rename_i r hr
      refine .bind (.pure (P := fun _ => True) trivial) fun _ _ => ?_
      refine .bind ih fun _ hrest => .pure (forall_getElem?_cons (P := P) (fun hle => ?_) hrest)
      exact absurd (List.getElem?_eq_some_iff.1 hr).1 (Nat.not_lt_of_le hle)
    · refine .bind (takeStackParam_stacks ht) fun _ hv => .bind ih fun _ hrest => .pure ?_
      exact forall_getElem?_cons (P := P) (fun _ => hv) hrest

/-- Every parameter has a register once it is taken. -/
theorem takeParams_held {index : Nat} {params : List ValueId} (ht : sc.target = riscv32) (hs : s.Wf)
    (h : sc.takeParams index params s = .ok (code, s')) :
    ∀ v ∈ params, ∃ r, s'.held.lookup v = some r := by
  let a : Activation := ⟨sc.frame, 0, fun _ => 0⟩
  induction params generalizing s code index with
  | nil => nofun
  | cons v rest ih =>
    obtain ⟨here, there, dst, s₁, hrest, -, hg, hheld, -⟩ :=
      takeParam_ok (p := Module.plainPlatform) (a := a) ht hs rfl h
    have hs₁ := hg.wf hs
    have hg' := (takeParams_keeps hs₁.apart hrest).1
    exact List.forall_mem_cons.2 ⟨⟨dst, hg'.lookup hheld⟩, ih hs₁ hrest⟩

/-- The code on entry takes each parameter from its place. -/
theorem prologue_takes {g : FuncId} {saves : Saves} (ht : sc.target = riscv32) (hs : s.Wf)
    (hnodup : (sc.module.paramsOf g).Nodup)
    (h : sc.prologue (sc.module.paramsOf g) s = .ok ((saves, code), s')) (hS : Grows s' S) :
    sc.module.TakesParams g S sc.frame.size code ∧
      ∀ {i v}, (sc.module.paramsOf g)[i]? = some v → riscv32.paramRegs.length ≤ i →
        sc.module.Stacks i v := by
  -- the parameters are taken last
  obtain ⟨s₁, paramCode, hs₁, hparams⟩ : ∃ s₁ paramCode, s₁.Wf ∧
      sc.takeParams 0 (sc.module.paramsOf g) s₁ = .ok (paramCode, s') := by
    unfold prologue at h
    dsimp only at h
    rw [ht] at h
    obtain ⟨room, s₁, h, hg, -⟩ := adjustIf_ok (p := Module.plainPlatform) hs h
    obtain ⟨⟨saves', saveCode⟩, s₂, hsave, h⟩ := bind_ok.1 h
    obtain ⟨paramCode, s₃, hparams, h⟩ := bind_ok.1 h
    obtain ⟨-, rfl⟩ := pure_ok.1 h
    have hg' := (saveEach_keeps (hg.wf hs).apart hsave).1
    exact ⟨s₂, paramCode, (hg.trans hg').wf hs, hparams⟩
  refine ⟨fun p st => ?_, fun {i v} hv hi => ?_⟩
  · let a := sc.module.callOf g sc.frame st
    have hcalled := sc.module.called_callOf g sc.frame st
    obtain ⟨st', hdoes, -, hsp, hargs⟩ :=
      (prologue_ok (p := p) (a := a) ht hs rfl hnodup h).2 hS hcalled.sp hcalled.args
    refine ⟨st', hdoes, ?_, fun {i param} hparam => ?_⟩
    · rw [hsp]
      exact hcalled.sp.symm
    · obtain ⟨r, hr⟩ := takeParams_held ht hs₁ hparams param (List.mem_of_getElem? hparam)
      refine ⟨r, hS.lookup hr, ?_⟩
      rw [hargs hparam (hS.lookup hr), argPlace]
      show (match riscv32.paramRegs[i]? with
        | some r => _
        | none => _) = _
      split
      · rfl
      · rw [hparam]
        rfl
  · have hstacks := (takeParams_stacks ht hs₁.apart hparams).2 hv
    rw [Nat.zero_add] at hstacks
    exact hstacks hi

end Scope

/-! ## Functions of a module -/

namespace Module

variable {m : Module} {lists : BlockId → List ValueId} {f g : FuncId} {b : BlockId} {v : ValueId}
  {before after : List ValueId} {F : Target.Func} {S : Registers}

/-- The code of a function with a body, and the registers of its values. -/
def selection (m : Module) (t : Target.Spec) (f : FuncId) :
    Except Stop (Target.Func × Registers) := do
  let x ← m.func f
  let frame ← Frame.compute m f t.paramRegs.length t.word
  let loops ← LoopNest.ofFunc m f
  let (blocks, regs) ← (Scope.selectBlocks ⟨m, t, frame, x.blocks⟩ x loops).run {}
  return ({ name := x.name, isExternal := false, frameSize := frame.size, vregNames := regs.names
            blocks }, regs)

theorem selectFunc_eq (m : Module) (t : Target.Spec) (f : FuncId) :
    m.selectFunc t f = Prod.fst <$> m.selection t f := by
  simp only [selectFunc, selection, map_bind, map_pure]

theorem selection_ok {t : Target.Spec} (h : m.selection t f = .ok (F, S)) :
    ∃ y frame loops, m.funcs[f.idx]? = some y ∧
      (Frame.compute m f t.paramRegs.length t.word = .ok frame ∧ F.frameSize = frame.size) ∧
      Scope.selectBlocks ⟨m, t, frame, y.blocks⟩ y loops {} = .ok (F.blocks, S) := by
  obtain ⟨y, hlift, h⟩ := Stop.bind_ok.1 h
  obtain ⟨frame, hframe, h⟩ := Stop.bind_ok.1 h
  obtain ⟨loops, -, h⟩ := Stop.bind_ok.1 h
  obtain ⟨⟨blocks, regs⟩, hblocks, h⟩ := Stop.bind_ok.1 h
  cases h
  exact ⟨y, frame, loops, lookupOr_eq_ok.1 (Stop.lift_ok.1 hlift), ⟨Stop.lift_ok.1 hframe, rfl⟩,
    hblocks⟩

theorem selection_of_selectFunc {t : Target.Spec} (h : m.selectFunc t f = .ok F) :
    ∃ S, m.selection t f = .ok (F, S) := by
  rw [selectFunc_eq] at h
  cases hS : m.selection t f with
  | error stop =>
    rw [hS] at h
    cases h
  | ok q =>
    rw [hS] at h
    cases h
    exact ⟨q.2, rfl⟩

/-- A function with a body is among those of the selected program. -/
theorem exists_selection {t : Target.Spec} {prog : Target.Program} (h : m.select t = .ok prog)
    (hdef : m.blocksOf f ≠ []) :
    ∃ F S, prog.functions[f.idx]? = some F ∧ m.selection t f = .ok (F, S) := by
  obtain ⟨y, hy, hblocks⟩ := exists_func_of_blocksOf hdef
  obtain ⟨F, hF, hsel⟩ := select_functions h hy (List.isEmpty_eq_false_iff.2 hblocks)
  obtain ⟨S, hS⟩ := selection_of_selectFunc hsel
  exact ⟨F, S, hF, hS⟩

/-- In the block of a function that stands for `b` there is the call that comes after the
instructions `before` and before the instructions `after`, with other code right before it. -/
def CallsWith (m : Module) (f : FuncId) (blocks : List Target.Block) (b : BlockId)
    (before after : List ValueId) (g : FuncId) (setup : Code) : Prop :=
  ∃ (n : Nat) (B : Target.Block) (earlier later : Code), (m.blocksOf f)[n]? = some b ∧
    blocks[n]? = some B ∧ B.insts = earlier ++ setup ++ ⟨.call, none, [.func g.idx]⟩ :: later ∧
    SsaCodegen.callees earlier = m.callees before ∧ SsaCodegen.callees setup = [] ∧
    SsaCodegen.callees later = m.callees after

/-- A function begins with some code. -/
def BeginsWith (blocks : List Target.Block) (entry : Code) : Prop :=
  ∃ (B : Target.Block) (rest : Code), blocks[0]? = some B ∧ B.insts = entry ++ rest

/-- The code for a call in a function that was selected. -/
theorem WellFormed.selection_calls (hm : m.WellFormed lists)
    (hsel : m.selection riscv32 f = .ok (F, S)) (hb : b ∈ m.blocksOf f)
    (hinsts : m.instsOf b = before ++ v :: after) (hk : m.kindOf v = some (.inst (.call g))) :
    ∃ setup, m.CallsWith f F.blocks b before after g setup ∧ m.PutsArgs v S setup := by
  obtain ⟨y, frame, loops, hy, -, hblocks⟩ := selection_ok hsel
  obtain ⟨saves, entry, s₀, edges, hentry, -, hlen, hwraps⟩ := Scope.selectBlocks_wraps hblocks
  have hy' : y.blocks = m.blocksOf f := (blocksOf_of_func hy).symm
  obtain ⟨n, hn⟩ := List.getElem?_of_mem hb
  have hlt : n < y.blocks.length := hy' ▸ (List.getElem?_eq_some_iff.1 hn).1
  have hB := List.getElem?_eq_getElem (Nat.lt_of_lt_of_le hlt hlen)
  obtain ⟨hg, hcalm⟩ := Scope.prologue_keeps (Set.notMem_empty _) Wf.empty.apart hentry
  obtain ⟨code, hcode, hwrap⟩ := hwraps ∅ (hg.wf .empty).apart hB
  rw [Scope.CodeAt, hy', hn] at hcode
  obtain ⟨insts, r, r', hlist, hr, hr', hlower⟩ := hcode
  have hfunc := hm.owned.mem_blocksOf.1 hb
  obtain rfl : insts = before ++ v :: after := by
    rw [← hinsts, hm.instsOf_eq hfunc]
    exact Except.ok.inj (hlist.symm.trans (hm.insts hfunc))
  -- the code of the instructions before, of the call and of the instructions after
  obtain ⟨front, back, r₁, hfront, hback, rfl⟩ := Scope.lowerInsts_append hlower
  obtain ⟨here, later, r₂, hhere, hlater, rfl⟩ := Scope.lowerInsts_cons hback
  have hr₁ := hr.grows (Scope.lowerInsts_grows hr.wf hfront)
  have hr₂ := hr₁.grows (Scope.lowerInst_grows hr₁.wf hhere)
  rw [Scope.lowerInst_call hk] at hhere
  obtain ⟨setup, rest, rfl, hsetup, hrest, hputs⟩ := Scope.lowerCall_setup rfl hr₁.wf hhere
  have hsplit : front ++ (setup ++ ⟨.call, none, [.func g.idx]⟩ :: rest ++ later) =
      front ++ setup ++ ⟨.call, none, [.func g.idx]⟩ :: (rest ++ later) := by
    simp only [List.append_assoc, List.cons_append]
  rw [hsplit] at hwrap
  obtain ⟨fill, tail, hfill, htail, hB'⟩ := hwrap.split rfl
  have hentry : SsaCodegen.callees (if n = 0 then entry else []) = [] := by
    split
    · exact callees_eq_nil fun i hi => (hcalm i hi).2.1
    · rfl
  refine ⟨setup, ⟨n, _, (if n = 0 then entry else []) ++ fill ++ front, tail, hn, hB, ?_, ?_,
    hsetup, ?_⟩, hputs ((Scope.lowerInsts_grows hr₂.wf hlater).trans hr')⟩
  · rw [hB']
    simp only [List.append_assoc]
  · rw [callees_append, callees_append, hentry, callees_eq_nil fun i hi => (hfill i hi).2.1]
    exact (Scope.lowerInsts_callees hr hfront).2
  · rw [htail.callees, callees_append, hrest]
    exact (Scope.lowerInsts_callees hr₂ hlater).2

/-- The code on entry to a function that was selected. -/
theorem WellFormed.selection_takes (hm : m.WellFormed lists)
    (hsel : m.selection riscv32 g = .ok (F, S)) (hdef : m.blocksOf g ≠ []) :
    ∃ entry, BeginsWith F.blocks entry ∧ m.TakesParams g S F.frameSize entry ∧
      ∀ {i param}, (m.paramsOf g)[i]? = some param → riscv32.paramRegs.length ≤ i →
        m.Stacks i param := by
  obtain ⟨y, frame, loops, hy, ⟨-, hframe⟩, hblocks⟩ := selection_ok hsel
  obtain ⟨saves, entry, s₀, edges, hentry, hS, hlen, hwraps⟩ := Scope.selectBlocks_wraps hblocks
  have hnodup := hm.owned.params_nodup hy
  rw [← paramsOf_of_func hy] at hentry hnodup
  obtain ⟨htakes, hstacks⟩ := Scope.prologue_takes rfl .empty hnodup hentry hS
  have hpos : 0 < y.blocks.length := blocksOf_of_func hy ▸ List.length_pos_of_ne_nil hdef
  have hB := List.getElem?_eq_getElem (Nat.lt_of_lt_of_le hpos hlen)
  have hg := (Scope.prologue_keeps (Set.notMem_empty _) Wf.empty.apart hentry).1
  obtain ⟨code, -, fill, moves, body, exit, -, -, -, -, hinsts⟩ := hwraps ∅ (hg.wf .empty).apart hB
  rw [hframe]
  exact ⟨entry, ⟨_, _, hB, hinsts⟩, htakes, hstacks⟩

/-- What becomes of an argument of a function that is entered in state `st₁` and is in state `st₂`
after the code on entry: its word is in its place, and the register of the parameter has what is
read there, which is as much of the word as the parameter has room for. -/
structure Received (place : Place) (argSize paramSize : Nat) (w : Word) (r : Reg)
    (st₁ st₂ : State) : Prop where
  holds : place.Holds st₁ argSize w
  read : st₂.get r = place.read st₁ paramSize
  received : paramSize ≤ argSize → st₂.get r = place.receive paramSize w

/-- In a module that was built, accepted and selected, let instruction `v` call a function that has
a body. The code before the emitted call puts every argument into its place, whatever the state, and
if the function is then entered, the code on entry takes every parameter from the place of the
argument with its number: the same register or the same address, which is counted from the stack
pointer at the call. -/
theorem select_arguments_agree {prog : Target.Program} (hbuilt : m.Built)
    (hverify : m.verify = .ok none) (hselect : m.select riscv32 = .ok prog) (hb : b ∈ m.blocksOf f)
    (hinsts : m.instsOf b = before ++ v :: after) (hk : m.kindOf v = some (.inst (.call g)))
    (hdef : m.blocksOf g ≠ []) :
    ∃ F S G T, prog.functions[f.idx]? = some F ∧ m.selection riscv32 f = .ok (F, S) ∧
      prog.functions[g.idx]? = some G ∧ m.selection riscv32 g = .ok (G, T) ∧
      (m.operandsOf v).length = (m.paramsOf g).length ∧
      ∃ setup entry, m.CallsWith f F.blocks b before after g setup ∧ BeginsWith G.blocks entry ∧
        ∀ p st, ∃ st', Does p setup st st' ∧ st'.get State.sp = st.get State.sp ∧
          ∀ p' st₁, HandsOver st' st₁ → ∃ st₂, Does p' entry st₁ st₂ ∧
            st₂.get State.sp + .ofNat 32 G.frameSize = st.get State.sp ∧
            ∀ {i arg param}, (m.operandsOf v)[i]? = some arg → (m.paramsOf g)[i]? = some param →
              ∃ w r, m.operandWord p S st arg = some w ∧ T.held.lookup param = some r ∧
                Received (argPlace (st.get State.sp) i) (m.bytesOf arg) (m.bytesOf param) w r
                  st₁ st₂ := by
  obtain ⟨lists, hm⟩ := hbuilt.wellFormed hverify
  obtain ⟨F, S, hF, hselF⟩ := exists_selection hselect (List.ne_nil_of_mem hb)
  obtain ⟨G, T, hG, hselG⟩ := exists_selection hselect hdef
  have hfunc := hm.owned.mem_blocksOf.1 hb
  have hv : v ∈ lists b := by
    rw [← hm.instsOf_eq hfunc, hinsts]
    exact List.mem_append_right _ List.mem_cons_self
  obtain ⟨y, hy, hlen⟩ := hm.fits hfunc hv hk
  obtain ⟨setup, hcalls, hputs⟩ := hm.selection_calls hselF hb hinsts hk
  obtain ⟨entry, hbegins, htakes, hstacks⟩ := hm.selection_takes hselG hdef
  refine ⟨F, S, G, T, hF, hselF, hG, hselG, paramsOf_of_func hy ▸ hlen, setup, entry, hcalls, hbegins,
    fun p st => ?_⟩
  obtain ⟨st', hdoes, hsp, hargs⟩ := hputs p st
  refine ⟨st', hdoes, hsp, fun p' st₁ hover => ?_⟩
  obtain ⟨st₂, hdoes', hsp', htaken⟩ := htakes p' st₁
  have hsp₁ : st₁.get State.sp = st.get State.sp := hover.sp.trans hsp
  rw [hsp₁] at hsp' htaken
  refine ⟨st₂, hdoes', hsp', fun {i arg param} harg hparam => ?_⟩
  obtain ⟨w, hw, hholds⟩ := hargs harg
  obtain ⟨r, hr, hread⟩ := htaken hparam
  have hholds := hover.holds hholds
  refine ⟨w, r, hw, hr, hholds, hread, fun hsize => ?_⟩
  rw [hread, read_argPlace (hstacks hparam) hholds hsize]

/-- Calls that build two functions whose frames are too large for an immediate. One passes ten
arguments to the other, of which two have no register, and the first of these is a truth value. -/
def spillActions : List Action := [
  .declareClass "row" (List.replicate 16 ("x", .i32)),
  .declareClass "buffer" (List.replicate 32 ("x", .cls "row")),
  .addFunction "g" .void (List.replicate 8 ("x", .i32) ++ [("c", .bool), ("n", .i32)]),
  .addFunction "f" .void [("x", .i32), ("c", .bool)],
  .addBlock ⟨0⟩ "entry", .addBlock ⟨1⟩ "entry",
  .build ⟨0⟩ (.alloca (.cls "buffer")), .build ⟨0⟩ (.ret none),
  .build ⟨1⟩ (.alloca (.cls "buffer")), .build ⟨1⟩ (.i32 5000),
  .build ⟨1⟩ (.call ⟨0⟩ (List.replicate 8 ⟨10⟩ ++ [⟨11⟩, ⟨17⟩])), .build ⟨1⟩ (.ret none)]

/-- The module that `spillActions` build. -/
def spillModule : Module := (spillActions.foldlM Action.run {}).toOption.getD {}

theorem spillModule_built : spillModule.Built := by
  have hok : (spillActions.foldlM Action.run {}).toOption.isSome = true := by decide +kernel
  refine ⟨spillActions, ?_⟩
  rw [spillModule]
  cases hrun : spillActions.foldlM Action.run {} with
  | error e =>
    rw [hrun] at hok
    cases hok
  | ok m => rfl

/-- The last argument is a constant, and the last parameter has its value. -/
theorem select_arguments_agree_spill :
    ∃ prog F G T setup entry, spillModule.select riscv32 = .ok prog ∧
      prog.functions = [G, F] ∧ G.frameSize = 2048 ∧ F.frameSize = 2064 ∧
      spillModule.selection riscv32 ⟨0⟩ = .ok (G, T) ∧
      spillModule.CallsWith ⟨1⟩ F.blocks ⟨1⟩ [⟨16⟩] [⟨19⟩] ⟨0⟩ setup ∧ BeginsWith G.blocks entry ∧
      ∀ p st, ∃ st', Does p setup st st' ∧ ∀ p' st₁, HandsOver st' st₁ →
        ∃ st₂ r, Does p' entry st₁ st₂ ∧ T.held.lookup ⟨9⟩ = some r ∧ st₂.get r = 5000#32 := by
  have hok : (spillModule.select riscv32).toOption.map
      (fun prog => prog.functions.map (·.frameSize)) = some [2048, 2064] := by decide +kernel
  cases hselect : spillModule.select riscv32 with
  | error e =>
    rw [hselect] at hok
    cases hok
  | ok prog =>
    rw [hselect] at hok
    obtain ⟨F, S, G, T, hF, -, hG, hselG, -, setup, entry, hcalls, hbegins, hagree⟩ :=
      select_arguments_agree (m := spillModule) (f := ⟨1⟩) (g := ⟨0⟩) (b := ⟨1⟩) (v := ⟨18⟩)
        spillModule_built (by decide +kernel) hselect (by decide +kernel)
        (by decide +kernel : spillModule.instsOf ⟨1⟩ = [⟨16⟩] ++ ⟨18⟩ :: [⟨19⟩]) (by decide +kernel)
        (by decide +kernel)
    have hsizes := Option.some.inj hok
    obtain ⟨G', rest, hfunctions, hG', hrest⟩ := List.map_eq_cons_iff.1 hsizes
    obtain ⟨F', hF', hsizeF⟩ := List.map_eq_singleton_iff.1 hrest
    rw [hfunctions, hF'] at hF hG
    cases hF
    cases hG
    refine ⟨prog, F, G, T, setup, entry, rfl, by rw [hfunctions, hF'], hG', hsizeF, hselG, hcalls,
      hbegins, fun p st => ?_⟩
    obtain ⟨st', hdoes, -, hagree⟩ := hagree p st
    refine ⟨st', hdoes, fun p' st₁ hover => ?_⟩
    obtain ⟨st₂, hdoes', -, hagree⟩ := hagree p' st₁ hover
    have harg : (spillModule.operandsOf ⟨18⟩)[9]? = some ⟨17⟩ := by decide +kernel
    have hparam : (spillModule.paramsOf ⟨0⟩)[9]? = some ⟨9⟩ := by decide +kernel
    obtain ⟨w, r, hw, hr, hreceived⟩ := hagree harg hparam
    have hbytes : spillModule.bytesOf ⟨9⟩ = 4 ∧ spillModule.bytesOf ⟨17⟩ = 4 := by decide +kernel
    have hkind : spillModule.kindOf ⟨17⟩ = some (.const (.int 5000)) := by decide +kernel
    rw [operandWord, hkind] at hw
    cases hw
    refine ⟨st₂, r, hdoes', hr, ?_⟩
    rw [hreceived.received (by omega), hbytes.1]
    rfl

end Module

end SsaCodegen
