import SsaCodegen.Proofs.Select.Blocks

/-!
# What selected code refers to

Whatever the module and the machine, the code of an instruction names registers that are handed out
by the end of the selection, blocks, functions and global variables that there are, and numbers that
an instruction has room for. A register that holds no value is written where it is handed out and
nowhere else; the register of a value is written by the code of that value alone.

Both are said of code together, with a bound on how often it writes one register. A piece of code may
write it once for each time it was handed out along the way, so bounds add up as code is put together.

## Main definitions

* `Realm` — what the code of a function may refer to
* `Emits` — code refers to nothing else, and writes a register no more than so often
* `SelectM.Yields` — what holds of the results of a computation whose registers are there in the end

## Main results

* `splitImm_upper`, `splitImm_lower` — the two parts of a number fit their instructions
* `Scope.lowerInst_yields` — what the code of an instruction refers to
* `Scope.prologue_yields` — what the code on entry refers to
-/

namespace SsaCodegen

open Target SelectM Registers

/-! ## Numbers that instructions have room for -/

theorem splitImm_upper (n : Int64) : 0 ≤ (splitImm n).1 ∧ (splitImm n).1 ≤ 0xfffff := by
  have hmask (x : BitVec 64) : (x &&& 0xfffff#64).toNat ≤ 0xfffff := by
    rw [BitVec.toNat_and]
    exact Nat.and_le_right
  have hle : (splitImm n).1.toBitVec.toNat ≤ 0xfffff := hmask _
  rw [Int64.le_iff_toInt_le, Int64.le_iff_toInt_le, ← Int64.toInt_toBitVec (splitImm n).1,
    BitVec.toInt_eq_toNat_of_lt (by omega)]
  constructor
  · exact Int.natCast_nonneg _
  · show (_ : Int) ≤ 1048575
    omega

theorem splitImm_lower (n : Int64) : -2048 ≤ (splitImm n).2 ∧ (splitImm n).2 ≤ 2047 := by
  have hxor (x : BitVec 64) :
      ((x &&& 4095#64) ^^^ 2048#64).toNat = (x.toNat % 4096 + 2048) % 4096 := by
    rw [BitVec.toNat_xor, BitVec.toNat_and]
    rw [show (4095#64).toNat = 2 ^ 12 - 1 from rfl, Nat.and_two_pow_sub_one_eq_mod]
    exact Word.xor_bit_eleven (Nat.mod_lt _ (by decide))
  have hlo : (splitImm n).2.toBitVec =
      (((signExtend32 n).toBitVec &&& 4095#64) ^^^ 2048#64) - 2048#64 := rfl
  have hbound := hxor (signExtend32 n).toBitVec
  rw [Int64.le_iff_toInt_le, Int64.le_iff_toInt_le, ← Int64.toInt_toBitVec (splitImm n).2, hlo]
  generalize ((signExtend32 n).toBitVec &&& 4095#64) ^^^ 2048#64 = y at hbound
  have hint : (y - 2048#64).toInt = (y.toNat : Int) - 2048 := by
    rw [BitVec.toInt_sub, BitVec.toInt_eq_toNat_of_lt (by omega)]
    refine Int.bmod_eq_of_le ?_ ?_
    · show _ ≤ (y.toNat : Int) - 2048
      omega
    · show (y.toNat : Int) - 2048 < _
      omega
  rw [hint]
  constructor
  · show (-2048 : Int) ≤ _
    omega
  · show _ ≤ (2047 : Int)
    omega

/-! ## Code -/

/-- What the code of a function may refer to: it is selected in a scope, and in the end there are
certain registers, a number of blocks, and the global variables and functions that it needs. -/
structure Realm where
  scope : Scope
  regs : Registers
  blocks : Nat
  globals : Set Nat
  funcs : Set Nat

namespace Realm

/-- A number that an instruction other than `lui` has room for: one that the machine takes, or one
of 12 bits. -/
def Short (e : Realm) (n : Int64) : Prop :=
  e.scope.target.fitsImm n = true ∨ -2048 ≤ n ∧ n ≤ 2047

/-- An operand of an instruction refers to what there is. -/
def Admits (e : Realm) (op : Opcode) : Operand → Prop
  | .reg r => e.regs.Knows r
  | .imm n => if op = .lui then 0 ≤ n ∧ n ≤ 0xfffff else e.Short n
  | .mem ⟨base, .imm d⟩ => e.regs.Knows base ∧ ∃ n, e.Short n ∧ d = n.toInt32
  | .mem ⟨base, .globalLo g⟩ => e.regs.Knows base ∧ g ∈ e.globals
  | .global g | .globalHi g | .globalLo g => g ∈ e.globals
  | .block n => n < e.blocks
  | .func f => f ∈ e.funcs

/-- If a value is a global variable of the module, code may refer to it. -/
def Covers (e : Realm) (v : ValueId) : Prop :=
  ∀ g, e.scope.module.kindOf v = some (.global g) → g.idx < e.scope.module.globals.size →
    g.idx ∈ e.globals

/-- Code may refer to the global variables among the operands of an instruction. -/
def Offers (e : Realm) (v : ValueId) : Prop := ∀ x ∈ e.scope.module.operandsOf v, e.Covers x

theorem Offers.operand {e : Realm} {v o : ValueId} {i : Nat} (h : e.Offers v)
    (ho : e.scope.module.operand v i = .ok o) : e.Covers o :=
  h o (List.mem_of_getElem? (Module.operandsOf_of_operand ho))

end Realm

/-- How often code writes a virtual register. -/
def writes (k : Nat) (code : Code) : Nat := code.countP fun i => i.dst = some (.virt k)

theorem writes_append (k : Nat) (code code' : Code) :
    writes k (code ++ code') = writes k code + writes k code' := List.countP_append

/-- How often a write to a register writes the virtual register `k`. -/
def hits (k : Nat) (r : Reg) : Nat := if r = .virt k then 1 else 0

/-- Code refers to what there is, and writes the virtual register `k` no more than `n` times. -/
structure Emits (e : Realm) (k : Nat) (code : Code) (n : Nat) : Prop where
  dst : ∀ i ∈ code, ∀ r, i.dst = some r → e.regs.Knows r
  srcs : ∀ i ∈ code, ∀ o ∈ i.srcs, e.Admits i.op o
  bound : writes k code ≤ n

namespace Emits

variable {e : Realm} {k n n' : Nat} {code code' : Code} {op : Opcode} {dst src : Reg}

theorem nil : Emits e k [] n := ⟨List.forall_mem_nil _, List.forall_mem_nil _, Nat.zero_le _⟩

theorem mono (h : Emits e k code n) (hle : n ≤ n') : Emits e k code n' :=
  ⟨h.dst, h.srcs, Nat.le_trans h.bound hle⟩

theorem append (h : Emits e k code n) (h' : Emits e k code' n') :
    Emits e k (code ++ code') (n + n') where
  dst i hi := (List.mem_append.1 hi).elim (h.dst i) (h'.dst i)
  srcs i hi := (List.mem_append.1 hi).elim (h.srcs i) (h'.srcs i)
  bound := by
    rw [writes_append]
    exact Nat.add_le_add h.bound h'.bound

/-- An instruction with a result. -/
theorem single {srcs : List Operand} (hdst : e.regs.Knows dst) (hsrcs : ∀ o ∈ srcs, e.Admits op o) :
    Emits e k [⟨op, some dst, srcs⟩] (hits k dst) where
  dst i hi r hr := by
    obtain rfl := List.mem_singleton.1 hi
    cases hr
    exact hdst
  srcs i hi := by
    obtain rfl := List.mem_singleton.1 hi
    exact hsrcs
  bound := by simp [writes, hits, List.countP_cons]

/-- An instruction without a result. -/
theorem effect {srcs : List Operand} (hsrcs : ∀ o ∈ srcs, e.Admits op o) :
    Emits e k [⟨op, none, srcs⟩] 0 where
  dst i hi r hr := by
    obtain rfl := List.mem_singleton.1 hi
    cases hr
  srcs i hi := by
    obtain rfl := List.mem_singleton.1 hi
    exact hsrcs
  bound := by simp [writes]

theorem store {a : Mem} (hsrc : e.regs.Knows src) (ha : e.Admits op (.mem a)) :
    Emits e k [⟨op, none, [.reg src, .mem a]⟩] 0 :=
  effect (List.forall_mem_cons.2 ⟨hsrc, List.forall_mem_singleton.2 ha⟩)

theorem onRegs {srcs : List Reg} (hdst : e.regs.Knows dst) (hsrcs : ∀ r ∈ srcs, e.regs.Knows r) :
    Emits e k [.onRegs op dst srcs] (hits k dst) := by
  refine single hdst fun o ho => ?_
  obtain ⟨r, hr, rfl⟩ := List.mem_map.1 ho
  exact hsrcs r hr

theorem binary {l r : Reg} (hdst : e.regs.Knows dst) (hl : e.regs.Knows l) (hr : e.regs.Knows r) :
    Emits e k [.onRegs op dst [l, r]] (hits k dst) :=
  onRegs hdst (List.forall_mem_cons.2 ⟨hl, List.forall_mem_singleton.2 hr⟩)

theorem mv (hdst : e.regs.Knows dst) (hsrc : e.regs.Knows src) :
    Emits e k [.mv dst src] (hits k dst) :=
  onRegs hdst (List.forall_mem_singleton.2 hsrc)

theorem addi {n : Int64} (hdst : e.regs.Knows dst) (hsrc : e.regs.Knows src) (hn : e.Short n) :
    Emits e k [.addi dst src n] (hits k dst) := by
  refine single hdst (List.forall_mem_cons.2 ⟨hsrc, List.forall_mem_singleton.2 ?_⟩)
  rw [Realm.Admits, if_neg (by decide)]
  exact hn

/-- The upper part of an address or a number. -/
theorem lui {o : Operand} (hdst : e.regs.Knows dst) (ho : e.Admits .lui o) :
    Emits e k [⟨.lui, some dst, [o]⟩] (hits k dst) :=
  single hdst (List.forall_mem_singleton.2 ho)

end Emits

/-! ## Handing out registers -/

/-- Whether a virtual register holds a value. -/
def Registers.holds (S : Registers) (k : Nat) : Bool :=
  S.held.any fun q => S.held.lookup q.1 = some (.virt k)

theorem Registers.holds_iff {S : Registers} {k : Nat} :
    S.holds k = true ↔ ∃ v, S.held.lookup v = some (.virt k) := by
  rw [holds, List.any_eq_true]
  constructor
  · rintro ⟨q, -, hq⟩
    exact ⟨q.1, of_decide_eq_true hq⟩
  · rintro ⟨v, hv⟩
    obtain ⟨l, l', hsplit, -⟩ := List.lookup_eq_some_iff.1 hv
    exact ⟨(v, .virt k), hsplit ▸ List.mem_append_right _ List.mem_cons_self, decide_eq_true hv⟩

/-- How often the virtual register `k` is handed out between two states, if it holds no value in the
end. -/
def handed (S : Registers) (k : Nat) (s s' : Registers) : Nat :=
  if S.holds k = false ∧ s.names.length ≤ k ∧ k < s'.names.length then 1 else 0

/-- How often the code of a value may write the virtual register `k`: once if the value has it. -/
def owned (S : Registers) (k : Nat) (v : ValueId) : Nat :=
  if S.held.lookup v = some (.virt k) then 1 else 0

/-- How often the code of some values may write the virtual register `k`. -/
def ownedBy (S : Registers) (k : Nat) (vs : List ValueId) : Nat :=
  vs.countP (S.held.lookup · = some (.virt k))

theorem ownedBy_cons {S : Registers} {k : Nat} {v : ValueId} {vs : List ValueId} :
    ownedBy S k (v :: vs) = owned S k v + ownedBy S k vs := by
  rw [ownedBy, List.countP_cons, Nat.add_comm, owned, ownedBy]
  simp only [decide_eq_true_eq]

theorem ownedBy_append {S : Registers} {k : Nat} {vs vs' : List ValueId} :
    ownedBy S k (vs ++ vs') = ownedBy S k vs + ownedBy S k vs' :=
  List.countP_append

section Handed

variable {S s s₁ s' : Registers} {k : Nat} {r : Reg} {v : ValueId}

theorem handed_self : handed S k s s = 0 := by
  rw [handed, if_neg]
  omega

theorem handed_add (h : Grows s s₁) (h' : Grows s₁ s') :
    handed S k s s₁ + handed S k s₁ s' = handed S k s s' := by
  have hle := h.length_le
  have hle' := h'.length_le
  cases hholds : S.holds k with
  | true => simp [handed, hholds]
  | false =>
    simp only [handed, hholds, true_and]
    split <;> split <;> split <;> omega

theorem handed_le_one : handed S k s s' ≤ 1 := by
  unfold handed
  split <;> omega

theorem hits_eq_owned (h : S.held.lookup v = some r) : hits k r = owned S k v := by
  simp [hits, owned, h]

/-- A register that was handed out without a value stays without one. -/
theorem Registers.Scratch.holds_eq_false (h : Scratch s s' (.virt k)) (hg : Grows s' S) :
    S.holds k = false := by
  rw [Bool.eq_false_iff]
  intro hholds
  obtain ⟨v, hv⟩ := holds_iff.1 hholds
  exact (h.grows_right hg).2 v hv

end Handed

namespace SelectM

/-- From well-formed registers a computation only adds some. If these are there in the end, its
result has a property together with the number of times that `k` was handed out. -/
def Yields (S : Registers) (k : Nat) (x : SelectM α) (P : α → Nat → Prop) : Prop :=
  ∀ ⦃s s' a⦄, s.Wf → x s = .ok (a, s') → Grows s s' ∧ (Grows s' S → P a (handed S k s s'))

namespace Yields

variable {S : Registers} {k : Nat} {x : SelectM α} {f : α → SelectM β} {P P' : α → Nat → Prop}
  {Q : β → Nat → Prop}

/-- The property of the first result is at hand when that of the second is shown. That registers are
added is known before either. -/
theorem bind (hx : Yields S k x P)
    (hf : ∀ a, Yields S k (f a) fun b n => ∀ n₀, P a n₀ → Q b (n₀ + n)) :
    Yields S k (x >>= f) Q := by
  intro s s' b hs h
  obtain ⟨a, s₁, ha, hb⟩ := bind_ok.1 h
  obtain ⟨hg, hP⟩ := hx hs ha
  obtain ⟨hg', hQ⟩ := hf a (hg.wf hs) hb
  refine ⟨hg.trans hg', fun hS => ?_⟩
  rw [← handed_add hg hg']
  exact hQ hS _ (hP (hg'.trans hS))

theorem pure {a : α} (h : P a 0) : Yields S k (Pure.pure a) P := by
  intro s s' b hs hb
  obtain ⟨rfl, rfl⟩ := pure_ok.1 hb
  refine ⟨.refl, fun _ => ?_⟩
  rwa [handed_self]

theorem mono (hx : Yields S k x P) (h : ∀ a n, P a n → P' a n) : Yields S k x P' := by
  intro s s' a hs ha
  obtain ⟨hg, hP⟩ := hx hs ha
  exact ⟨hg, fun hS => h _ _ (hP hS)⟩

/-- Something is looked up first. -/
theorem lookup {e : Except Fault α} (hf : ∀ a, e = .ok a → Yields S k (f a) Q) :
    Yields S k (liftM e >>= f) Q := by
  intro s s' b hs h
  obtain ⟨a, he, hb⟩ := lift_bind_ok.1 h
  exact hf a he hs hb

theorem refuse {e : SelectError} : Yields S k (SelectM.refuse e) P := fun _ _ _ _ h =>
  absurd h refuse_ne_ok

/-- After a refusal nothing follows. -/
theorem refuse_bind {e : SelectError} : Yields S k (SelectM.refuse e >>= f) Q := by
  intro s s' b hs h
  obtain ⟨a, s₁, ha, -⟩ := bind_ok.1 h
  exact absurd ha refuse_ne_ok

theorem halt {e : Fault} : Yields S k (SelectM.halt e) P := fun _ _ _ _ h => absurd h halt_ne_ok

/-- A new register is there in the end, and was handed out if it is the one that is counted. -/
theorem newReg {name : Option String} :
    Yields S k (SelectM.newReg name) fun r n => S.Knows r ∧ hits k r ≤ n := by
  intro s s' r hs h
  obtain ⟨rfl, rfl⟩ := newReg_ok.1 h
  have hscratch := hs.scratch_new name
  refine ⟨.fresh name .refl, fun hS => ⟨(hS.has hscratch.has).knows, ?_⟩⟩
  by_cases hk : s.names.length = k
  · subst hk
    rw [handed, if_pos ⟨hscratch.holds_eq_false hS, Nat.le_refl _, by simp⟩, hits, if_pos rfl]
  · rw [hits, if_neg fun heq => hk (Reg.virt.inj heq)]
    exact Nat.zero_le _

end Yields

end SelectM

/-! ## Numbers -/

variable {e : Realm} {k : Nat}

namespace Target.Spec

variable {dst base : Reg} {n : Int64}

theorem loadImmInto_yields : Yields e.regs k (e.scope.target.loadImmInto dst n) fun code c =>
    e.regs.Knows dst → Emits e k code (c + hits k dst) := by
  unfold loadImmInto
  dsimp only
  split
  · rename_i hfits
    refine .pure fun hdst => ?_
    exact (Emits.addi hdst (knows_phys _ _) (.inl hfits)).mono (Nat.le_add_left _ _)
  · refine .bind .newReg fun upper => .pure ?_
    rintro c ⟨hupper, hle⟩ hdst
    have hlui : Emits e k [⟨.lui, some upper, [.imm (splitImm (signExtend32 n)).1]⟩] c := by
      refine (Emits.lui hupper ?_).mono hle
      rw [Realm.Admits, if_pos rfl]
      exact splitImm_upper _
    exact hlui.append (.addi hdst hupper (.inr (splitImm_lower _)))

/-- A register that was filled, and the code that fills it. -/
abbrev Fills (e : Realm) (k : Nat) (q : Reg × Code) (c : Nat) : Prop :=
  e.regs.Knows q.1 ∧ Emits e k q.2 c

theorem loadImm_yields : Yields e.regs k (e.scope.target.loadImm n) (Fills e k) := by
  refine .bind .newReg fun dst => .bind loadImmInto_yields fun code => .pure ?_
  rintro c hcode c' ⟨hdst, hle⟩
  exact ⟨hdst, (hcode hdst).mono (by omega)⟩

theorem addOffset_yields : Yields e.regs k (e.scope.target.addOffset dst base n) fun code c =>
    e.regs.Knows dst → e.regs.Knows base → Emits e k code (c + hits k dst) := by
  unfold addOffset
  split
  · refine .pure fun hdst hbase => ?_
    exact (Emits.mv hdst hbase).mono (Nat.le_add_left _ _)
  · split
    · rename_i hfits
      refine .pure fun hdst hbase => ?_
      exact (Emits.addi hdst hbase (.inl hfits)).mono (Nat.le_add_left _ _)
    · refine .bind loadImm_yields fun q => .pure ?_
      rintro c ⟨hreg, hcode⟩ hdst hbase
      exact hcode.append (.binary hdst hbase hreg)

theorem adjustStack_yields : Yields e.regs k (e.scope.target.adjustStack n) (Emits e k) := by
  have hsp := knows_phys e.regs e.scope.target.stackPointer
  unfold adjustStack
  dsimp only
  split
  · rename_i hfits
    exact .pure (.addi hsp hsp (.inl hfits))
  · refine .bind loadImm_yields fun q => .pure ?_
    rintro c ⟨hreg, hcode⟩
    exact hcode.append (.binary hsp hsp hreg)

/-- An operand in memory, and the code that its address needs. -/
abbrev Reaches (e : Realm) (k : Nat) (q : Mem × Code) (c : Nat) : Prop :=
  (∀ op, e.Admits op (.mem q.1)) ∧ Emits e k q.2 c

theorem admits_base {op : Opcode} (h : e.regs.Knows base) : e.Admits op (.mem ⟨base, .imm 0⟩) :=
  ⟨h, 0, .inr (by decide), rfl⟩

theorem stackSlot_yields : Yields e.regs k (e.scope.target.stackSlot n) (Reaches e k) := by
  unfold stackSlot
  dsimp only
  split
  · rename_i hfits
    exact .pure ⟨fun op => ⟨knows_phys _ _, n, .inl hfits, rfl⟩, .nil⟩
  · refine .bind .newReg fun base => .bind addOffset_yields fun code => .pure ?_
    rintro c hcode c' ⟨hbase, hle⟩
    exact ⟨fun op => admits_base hbase, (hcode hbase (knows_phys _ _)).mono (by omega)⟩

end Target.Spec

namespace Scope

open Target.Spec

variable {v : ValueId}

/-! ## Operands -/

/-- The register of a value holds it in the end. -/
theorem valueReg_yields : Yields e.regs k (e.scope.valueReg v) fun r _ =>
    e.regs.Knows r ∧ e.regs.held.lookup v = some r := by
  intro s s' r hs h
  obtain ⟨hg, hheld⟩ := valueReg_ok h
  refine ⟨hg, fun hS => ?_⟩
  exact ⟨(((hg.trans hS).wf hs).virt (hS.lookup hheld)).knows, hS.lookup hheld⟩

theorem globalAddr_yields {g : Nat} (hg : g ∈ e.globals) :
    Yields e.regs k (globalAddr g) (Fills e k) := by
  refine .bind .newReg fun hi => .bind .newReg fun addr => .pure ?_
  rintro c ⟨haddr, hle⟩ c' ⟨hhi, hle'⟩
  have hlui := (Emits.lui (o := .globalHi g) hhi hg).mono hle'
  refine ⟨haddr, hlui.append ((Emits.single haddr ?_).mono hle)⟩
  exact List.forall_mem_cons.2 ⟨hhi, List.forall_mem_singleton.2 hg⟩

theorem globalNumber_lt {sc : Scope} {g : GlobalId} {n : Nat} (h : sc.globalNumber g = .ok n) :
    g.idx < sc.module.globals.size := by
  unfold globalNumber at h
  split at h
  · assumption
  · cases h

theorem regOf_yields {user : ValueId} (hv : e.Covers v) :
    Yields e.regs k (e.scope.regOf user v) (Fills e k) := by
  refine .lookup fun kind hkind => ?_
  cases kind with
  | global g =>
    refine .lookup fun n hn => globalAddr_yields ?_
    rw [globalNumber_ok hn]
    exact hv g (Module.kindOf_of_kind hkind) (globalNumber_lt hn)
  | const c =>
    dsimp only
    split
    · exact loadImm_yields
    · exact .refuse
  | param | inst => exact .bind valueReg_yields fun r => .pure fun c hr => ⟨hr.1, .nil⟩
  | block b => exact .lookup fun n _ => .refuse

theorem operandPair_yields (hv : e.Offers v) : Yields e.regs k (e.scope.operandPair v) fun q c =>
    e.regs.Knows q.1 ∧ e.regs.Knows q.2.1 ∧ Emits e k q.2.2 c := by
  refine .lookup fun a ha => .bind (regOf_yields (hv.operand ha)) fun l => ?_
  refine .lookup fun b hb => .bind (regOf_yields (hv.operand hb)) fun r => .pure ?_
  rintro c ⟨hr, hrcode⟩ c' ⟨hl, hlcode⟩
  exact ⟨hl, hr, hlcode.append hrcode⟩

theorem address_yields {ptr : ValueId} (hptr : e.Covers ptr) :
    Yields e.regs k (e.scope.address v ptr) (Reaches e k) := by
  refine .lookup fun kind hkind => ?_
  split
  · rename_i g hg
    refine .lookup fun n hn => .bind .newReg fun hi => .pure ?_
    rintro c ⟨hhi, hle⟩
    have hmem : n ∈ e.globals := by
      rw [globalNumber_ok hn]
      refine hptr g ?_ (globalNumber_lt hn)
      cases kind <;> cases hg
      exact Module.kindOf_of_kind hkind
    exact ⟨fun op => ⟨hhi, hmem⟩, (Emits.lui (o := .globalHi n) hhi hmem).mono hle⟩
  · refine .bind (regOf_yields hptr) fun q => .pure ?_
    rintro c ⟨hbase, hcode⟩
    exact ⟨fun op => admits_base hbase, hcode⟩

/-! ## Instructions that neither call nor pass on control -/

theorem loadOp_yields {size : Nat} : Yields e.regs k (loadOp v size) fun _ _ => True := by
  unfold loadOp
  split
  · exact .pure trivial
  · exact .refuse

theorem storeOp_yields {size : Nat} : Yields e.regs k (storeOp v size) fun _ _ => True := by
  unfold storeOp
  split
  · exact .pure trivial
  · exact .refuse

theorem pointee_yields {ptr : ValueId} :
    Yields e.regs k (e.scope.pointee v ptr) fun _ _ => True := by
  refine .lookup fun ty _ => ?_
  split
  · exact .pure trivial
  · exact .refuse

/-- Code for the value `v`: it may write the register of `v`, once. -/
abbrev EmitsFor (e : Realm) (k : Nat) (v : ValueId) (code : Code) (c : Nat) : Prop :=
  Emits e k code (c + owned e.regs k v)

theorem lowerBinary_yields {op : BinOp} (hv : e.Offers v) :
    Yields e.regs k (e.scope.lowerBinary v op) (EmitsFor e k v) := by
  refine .bind (operandPair_yields hv) fun q => .bind valueReg_yields fun dst => .pure ?_
  rintro c ⟨hdst, hheld⟩ c' ⟨hl, hr, hcode⟩
  rw [EmitsFor, ← hits_eq_owned hheld]
  exact (hcode.append (.binary hdst hl hr)).mono (by omega)

theorem lowerCompare_yields {op : CmpOp} (hv : e.Offers v) :
    Yields e.regs k (e.scope.lowerCompare v op) (EmitsFor e k v) := by
  refine .bind (operandPair_yields hv) fun q => .bind valueReg_yields fun dst => ?_
  dsimp only
  split
  · refine .pure ?_
    rintro c ⟨hdst, hheld⟩ c' ⟨hl, hr, hcode⟩
    rw [EmitsFor, ← hits_eq_owned hheld]
    exact (hcode.append (.binary hdst hl hr)).mono (by omega)
  · rename_i first finish heq
    refine .bind .newReg fun tmp => .pure ?_
    rintro c ⟨htmp, hle⟩ c' ⟨hdst, hheld⟩ c'' ⟨hl, hr, hcode⟩
    rw [EmitsFor, ← hits_eq_owned hheld]
    have hlast : Emits e k [⟨finish, some dst, .reg tmp :: if finish = .xori then [.imm 1] else []⟩]
        (hits k dst) := by
      refine .single hdst (List.forall_mem_cons.2 ⟨htmp, ?_⟩)
      split
      · rename_i hxori
        refine List.forall_mem_singleton.2 ?_
        rw [Realm.Admits, if_neg (by rw [hxori]; decide)]
        exact .inr (by decide)
      · exact List.forall_mem_nil _
    exact (hcode.append ((Emits.binary htmp hl hr).append hlast)).mono (by omega)

theorem lowerMove_yields (hv : e.Offers v) :
    Yields e.regs k (e.scope.lowerMove v) (EmitsFor e k v) := by
  refine .lookup fun o ho => .bind (regOf_yields (hv.operand ho)) fun q => ?_
  refine .bind valueReg_yields fun dst => .pure ?_
  rintro c ⟨hdst, hheld⟩ c' ⟨hsrc, hcode⟩
  rw [EmitsFor, ← hits_eq_owned hheld]
  exact (hcode.append (.mv hdst hsrc)).mono (by omega)

theorem lowerAlloca_yields : Yields e.regs k (e.scope.lowerAlloca v) (EmitsFor e k v) := by
  unfold lowerAlloca
  split
  · exact .halt
  · refine .bind valueReg_yields fun dst => addOffset_yields.mono ?_
    rintro code c hcode c' ⟨hdst, hheld⟩
    rw [EmitsFor, ← hits_eq_owned hheld]
    exact (hcode hdst (knows_phys _ _)).mono (by omega)

theorem lowerLoad_yields (hv : e.Offers v) :
    Yields e.regs k (e.scope.lowerLoad v) (EmitsFor e k v) := by
  refine .lookup fun ptr hptr => .bind pointee_yields fun ty => .bind loadOp_yields fun op => ?_
  refine .bind (address_yields (hv.operand hptr)) fun q => .bind valueReg_yields fun dst => ?_
  refine .pure ?_
  rintro c ⟨hdst, hheld⟩ c' ⟨hmem, hcode⟩ c₁ - c₂ -
  rw [EmitsFor, ← hits_eq_owned hheld]
  have hload := Emits.single (k := k) hdst (List.forall_mem_singleton.2 (hmem op))
  exact (hcode.append hload).mono (by omega)

theorem lowerStore_yields (hv : e.Offers v) :
    Yields e.regs k (e.scope.lowerStore v) (Emits e k) := by
  refine .lookup fun value hvalue => .lookup fun ptr hptr => .bind pointee_yields fun ty => ?_
  refine .bind storeOp_yields fun op => .bind (regOf_yields (hv.operand hvalue)) fun q => ?_
  refine .bind (address_yields (hv.operand hptr)) fun a => .pure ?_
  rintro c ⟨hmem, hcode⟩ c' ⟨hsrc, hsrcCode⟩ c₁ - c₂ -
  exact ((hsrcCode.append hcode).append (.store hsrc (hmem op))).mono (by omega)

theorem fieldOffset_yields {ty : Ty} {index : ValueId} :
    Yields e.regs k (e.scope.fieldOffset v ty index) fun _ _ => True := by
  unfold fieldOffset
  split
  · exact .refuse
  · refine .lookup fun kind _ => ?_
    split
    · exact .refuse
    · split
      · exact .refuse
      · exact .pure trivial

/-- Code that adds something to a register. -/
abbrev EmitsFrom (e : Realm) (k : Nat) (dst base : Reg) (code : Code) (c : Nat) : Prop :=
  e.regs.Knows dst → e.regs.Knows base → Emits e k code (c + hits k dst)

theorem lowerField_yields {index : ValueId} {ty : Ty} {dst base : Reg} :
    Yields e.regs k (e.scope.lowerField v index ty dst base) (EmitsFrom e k dst base) := by
  refine .bind fieldOffset_yields fun n => addOffset_yields.mono ?_
  intro code c hcode c' _ hdst hbase
  exact (hcode hdst hbase).mono (by omega)

theorem lowerElement_yields {index : ValueId} {ty : Ty} {dst base : Reg} (hindex : e.Covers index) :
    Yields e.regs k (e.scope.lowerElement v index ty dst base) (EmitsFrom e k dst base) := by
  refine .lookup fun kind _ => ?_
  split
  · exact addOffset_yields
  · refine .bind (regOf_yields hindex) fun q => .bind loadImm_yields fun r => ?_
    refine .bind .newReg fun offset => .pure ?_
    rintro c ⟨hoffset, hle⟩ c' ⟨hscale, hscaleCode⟩ c'' ⟨hindex, hindexCode⟩ hdst hbase
    have hmul : Emits e k [.onRegs .mul offset [q.1, r.1]] _ := .binary hoffset hindex hscale
    have hadd : Emits e k [.onRegs .add dst [base, offset]] _ := .binary hdst hbase hoffset
    exact ((hindexCode.append hscaleCode).append (hmul.append hadd)).mono (by omega)

theorem lowerGep_yields {needsZero : Bool} (hv : e.Offers v) :
    Yields e.regs k (e.scope.lowerGep v needsZero) (EmitsFor e k v) := by
  refine .lookup fun base hbase => .lookup fun index hindex => .bind pointee_yields fun ty => ?_
  refine .bind (regOf_yields (hv.operand hbase)) fun q => .bind valueReg_yields fun dst => ?_
  have hrest {x : SelectM Code} (hx : Yields e.regs k x (EmitsFrom e k dst q.1)) :
      Yields e.regs k (do return q.2 ++ (← x)) fun code c =>
        ∀ n₀, (e.regs.Knows dst ∧ e.regs.held.lookup v = some dst) →
          ∀ n₁, Fills e k q n₁ → ∀ n₂, True → EmitsFor e k v code (n₂ + (n₁ + (n₀ + c))) := by
    refine .bind hx fun code => .pure ?_
    rintro c hcode c' ⟨hdst, hheld⟩ c'' ⟨hbase, hbaseCode⟩ c₁ -
    rw [EmitsFor, ← hits_eq_owned hheld]
    exact (hbaseCode.append (hcode hdst hbase)).mono (by omega)
  split
  · exact hrest lowerField_yields
  · exact hrest (lowerElement_yields (hv.operand hindex))

/-! ## Branches -/

/-- The blocks to go to are there: those of the function, and those on edges. -/
structure Routes (e : Realm) (edges : EdgeBlocks) : Prop where
  blocks : e.scope.blocks.length ≤ e.blocks
  edges : ∀ q ∈ edges, q.2 < e.blocks

theorem blockNumber_lt {sc : Scope} {b : BlockId} {n : Nat} (h : sc.blockNumber b = .ok n) :
    n < sc.blocks.length := by
  obtain ⟨hlt, -⟩ := List.idxOf?_eq_some_iff.1 (lookupOr_eq_ok.1 h)
  exact hlt

theorem branchTarget_yields {edges : EdgeBlocks} {pred : BlockId} {label : ValueId}
    (hroutes : Routes e edges) :
    Yields e.regs k (e.scope.branchTarget edges pred v label) fun n _ => n < e.blocks := by
  refine .lookup fun kind _ => ?_
  split
  · exact .halt
  · rename_i succ _
    refine .lookup fun n hn => .pure ?_
    cases hedge : edges.lookup (pred, succ) with
    | none => exact Nat.lt_of_lt_of_le (blockNumber_lt hn) hroutes.blocks
    | some n' =>
      obtain ⟨l, l', rfl, -⟩ := List.lookup_eq_some_iff.1 hedge
      exact hroutes.edges _ (List.mem_append_right _ List.mem_cons_self)

theorem lowerTest_yields {cond : ValueId} {dest : Nat} (hcond : e.Covers cond)
    (hfused : e.scope.module.TakesOver v cond → e.Offers cond) :
    Yields e.regs k (e.scope.lowerTest v cond dest) fun code c =>
      dest < e.blocks → Emits e k code c := by
  refine .lookup fun fused hop => ?_
  cases fused with
  | some op =>
    obtain ⟨hcompare, hinto⟩ := (fusedCompare_ok hop).1 op rfl
    have hoffers := hfused ⟨⟨op, hcompare⟩, hinto⟩
    refine .lookup fun a ha => .bind (regOf_yields (hoffers.operand ha)) fun l => ?_
    refine .lookup fun b hb => .bind (regOf_yields (hoffers.operand hb)) fun r => .pure ?_
    rintro c ⟨hr, hrcode⟩ c' ⟨hl, hlcode⟩ hdest
    refine (hlcode.append hrcode).append (.effect ?_)
    exact List.forall_mem_cons.2 ⟨hl, List.forall_mem_cons.2 ⟨hr, List.forall_mem_singleton.2 hdest⟩⟩
  | none =>
    refine .bind (regOf_yields hcond) fun q => .pure ?_
    rintro c ⟨hreg, hcode⟩ hdest
    refine hcode.append (.effect ?_)
    exact List.forall_mem_cons.2 ⟨hreg, List.forall_mem_singleton.2 hdest⟩

theorem jump_emits {dest : Nat} (h : dest < e.blocks) : Emits e k [.jump dest] 0 :=
  .effect (List.forall_mem_singleton.2 h)

/-- What an instruction refers to may be referred to, also by way of a comparison that it takes
over. -/
structure Serves (e : Realm) (v : ValueId) : Prop where
  operands : e.Offers v
  tested : ∀ cond, e.scope.module.TakesOver v cond → e.Offers cond
  callee : ∀ f, e.scope.module.kindOf v = some (.inst (.call f)) →
    f.idx < e.scope.module.funcs.size → f.idx ∈ e.funcs

theorem lowerBr_yields {edges : EdgeBlocks} {pred : BlockId} (hv : Serves e v)
    (hroutes : Routes e edges) : Yields e.regs k (e.scope.lowerBr edges pred v) (Emits e k) := by
  refine .lookup fun operands hoperands => ?_
  have hoffers := hv.operands
  rw [Realm.Offers, Module.operandsOf_of_operands hoperands] at hoffers
  split
  · refine .bind (branchTarget_yields hroutes) fun n => .pure ?_
    intro c hn
    exact (jump_emits hn).mono (Nat.zero_le _)
  · rename_i cond thenLabel elseLabel
    refine .bind (branchTarget_yields hroutes) fun n => ?_
    refine .bind (branchTarget_yields hroutes) fun n' => ?_
    refine .bind (lowerTest_yields (hoffers cond List.mem_cons_self) (hv.tested cond)) fun code => ?_
    refine .pure ?_
    intro c hcode c' hn' c'' hn
    exact ((hcode hn).append (jump_emits hn')).mono (by omega)
  · exact .halt

/-! ## Arguments and parameters -/

/-- All registers of a list of pairs are there in the end. -/
abbrev KnowsAll (e : Realm) (l : List (α × Reg)) : Prop := ∀ q ∈ l, e.regs.Knows q.2

theorem argRegs_yields {args : List ValueId} (hargs : ∀ x ∈ args, e.Covers x) :
    Yields e.regs k (e.scope.argRegs v args) fun q c => KnowsAll e q.1 ∧ Emits e k q.2 c := by
  induction args with
  | nil => exact .pure ⟨List.forall_mem_nil _, .nil⟩
  | cons arg rest ih =>
    obtain ⟨harg, hrest⟩ := List.forall_mem_cons.1 hargs
    refine .bind (regOf_yields harg) fun q => .bind (ih hrest) fun r => .pure ?_
    rintro c ⟨hregs, hrestCode⟩ c' ⟨hreg, hcode⟩
    exact ⟨List.forall_mem_cons.2 ⟨hreg, hregs⟩, hcode.append hrestCode⟩

theorem passStackArg_yields {arg : ValueId} {src : Reg} {index : Nat} :
    Yields e.regs k (e.scope.passStackArg v arg src index) fun code c =>
      e.regs.Knows src → Emits e k code c := by
  refine .lookup fun ty _ => .bind storeOp_yields fun op => .lookup fun offset _ => ?_
  refine .bind stackSlot_yields fun q => .pure ?_
  rintro c ⟨hmem, hcode⟩ c' - hsrc
  exact (hcode.append (.store hsrc (hmem op))).mono (by omega)

theorem takeStackParam_yields {dst : Reg} {index : Nat} :
    Yields e.regs k (e.scope.takeStackParam v dst index) fun code c =>
      e.regs.Knows dst → Emits e k code (c + hits k dst) := by
  refine .lookup fun ty _ => .bind loadOp_yields fun op => .lookup fun offset _ => ?_
  refine .bind stackSlot_yields fun q => .pure ?_
  rintro c ⟨hmem, hcode⟩ c' - hdst
  exact (hcode.append (.single hdst (List.forall_mem_singleton.2 (hmem op)))).mono (by omega)

theorem takeParams_yields {index : Nat} {params : List ValueId} :
    Yields e.regs k (e.scope.takeParams index params) fun code c =>
      Emits e k code (c + ownedBy e.regs k params) := by
  induction params generalizing index with
  | nil => exact .pure .nil
  | cons param rest ih =>
    refine .bind valueReg_yields fun dst => ?_
    have hrest {x : SelectM Code} (hx : Yields e.regs k x fun code c =>
        e.regs.Knows dst → Emits e k code (c + hits k dst)) :
        Yields e.regs k (do
          let code ← x
          return code ++ (← e.scope.takeParams (index + 1) rest)) fun code c => ∀ n₀,
            (e.regs.Knows dst ∧ e.regs.held.lookup param = some dst) →
              Emits e k code (n₀ + c + ownedBy e.regs k (param :: rest)) := by
      refine .bind hx fun code => .bind ih fun restCode => .pure ?_
      rintro c hrestCode c' hcode c'' ⟨hdst, hheld⟩
      refine ((hcode hdst).append hrestCode).mono ?_
      rw [hits_eq_owned hheld, ownedBy_cons]
      omega
    dsimp only
    split
    · refine hrest (.pure fun hdst => ?_)
      exact (Emits.mv hdst (knows_phys _ _)).mono (Nat.le_add_left _ _)
    · exact hrest takeStackParam_yields

theorem passArgs_yields {index : Nat} {regs : List (ValueId × Reg)} :
    Yields e.regs k (e.scope.passArgs v index regs) fun code c =>
      KnowsAll e regs → Emits e k code c := by
  induction regs generalizing index with
  | nil => exact .pure fun _ => .nil
  | cons q rest ih =>
    have hrest {x : SelectM Code} (hx : Yields e.regs k x fun code c =>
        e.regs.Knows q.2 → Emits e k code c) :
        Yields e.regs k (do
          let code ← x
          return code ++ (← e.scope.passArgs v (index + 1) rest)) fun code c =>
            KnowsAll e (q :: rest) → Emits e k code c := by
      refine .bind hx fun code => .bind ih fun restCode => .pure ?_
      intro c hrestCode c' hcode hregs
      obtain ⟨hreg, hregs⟩ := List.forall_mem_cons.1 hregs
      exact (hcode hreg).append (hrestCode hregs)
    unfold passArgs
    dsimp only
    split
    · exact hrest (.pure fun hsrc => .mv (knows_phys _ _) hsrc)
    · exact hrest passStackArg_yields

theorem lowerCall_yields {callee : FuncId} (hv : e.Offers v)
    (hcallee : callee.idx < e.scope.module.funcs.size → callee.idx ∈ e.funcs) :
    Yields e.regs k (e.scope.lowerCall v callee) (EmitsFor e k v) := by
  unfold lowerCall
  dsimp only
  split
  · exact .refuse_bind
  · rename_i hle
    refine .lookup fun x hx => ?_
    have hargs : ∀ o ∈ x.operands, e.Covers o := by
      rw [Realm.Offers, Module.operandsOf, Module.valueField_eq (Module.value_eq_ok.1 hx)] at hv
      exact hv
    refine .bind (argRegs_yields hargs) fun q => .bind passArgs_yields fun pass => ?_
    have hcall : Emits e k [⟨.call, none, [.func callee.idx]⟩] 0 :=
      .effect (List.forall_mem_singleton.2 (hcallee (Nat.lt_of_not_le hle)))
    split
    · refine .pure ?_
      rintro c hpass c' ⟨hregs, hcode⟩
      exact ((hcode.append (hpass hregs)).append hcall).mono (by omega)
    · refine .bind valueReg_yields fun dst => .pure ?_
      rintro c ⟨hdst, hheld⟩ c' hpass c'' ⟨hregs, hcode⟩
      rw [EmitsFor, ← hits_eq_owned hheld]
      have hresult := Emits.mv (k := k) hdst (knows_phys _ e.scope.target.result)
      exact (((hcode.append (hpass hregs)).append hcall).append hresult).mono (by omega)

/-! ## Entry and return -/

theorem saveEach_yields {regs : List PhysReg} :
    Yields e.regs k (saveEach regs) fun q c => KnowsAll e q.1 ∧ Emits e k q.2 c := by
  induction regs with
  | nil => exact .pure ⟨List.forall_mem_nil _, .nil⟩
  | cons r rest ih =>
    refine .bind .newReg fun copy => .bind ih fun q => .pure ?_
    rintro c ⟨hregs, hcode⟩ c' ⟨hcopy, hle⟩
    refine ⟨List.forall_mem_cons.2 ⟨hcopy, hregs⟩, ?_⟩
    exact ((Emits.mv hcopy (knows_phys _ r)).mono hle).append hcode

theorem prologue_yields {params : List ValueId} :
    Yields e.regs k (e.scope.prologue params) fun q c =>
      KnowsAll e q.1 ∧ Emits e k q.2 (c + ownedBy e.regs k params) := by
  have hrest {x : SelectM Code} (hx : Yields e.regs k x (Emits e k)) :
      Yields e.regs k (do
        let room ← x
        let q ← saveEach (e.scope.target.calleeSaved ++ [e.scope.target.returnAddr])
        let paramCode ← e.scope.takeParams 0 params
        return (q.1, room ++ q.2 ++ paramCode)) fun q c =>
          KnowsAll e q.1 ∧ Emits e k q.2 (c + ownedBy e.regs k params) := by
    refine .bind hx fun room => .bind saveEach_yields fun q => .bind takeParams_yields fun code => ?_
    refine .pure ?_
    rintro c hcode c' ⟨hregs, hsaves⟩ c'' hroom
    exact ⟨hregs, ((hroom.append hsaves).append hcode).mono (by omega)⟩
  unfold prologue
  dsimp only
  split
  · exact hrest adjustStack_yields
  · exact hrest (.pure .nil)

/-- Moves into registers of the machine. -/
theorem movesToPhys_emits {l : List α} (dst : α → PhysReg) (src : α → Reg)
    (h : ∀ q ∈ l, e.regs.Knows (src q)) :
    Emits e k (l.map fun q => .mv (.phys (dst q)) (src q)) 0 := by
  induction l with
  | nil => exact .nil
  | cons q rest ih =>
    obtain ⟨hq, hrest⟩ := List.forall_mem_cons.1 h
    exact (Emits.mv (knows_phys _ (dst q)) hq).append (ih hrest)

/-- The end of a return: registers are put back, the result is placed and the frame is left. -/
theorem leave_yields {saves : Saves} {value : Option Reg} {valueCode : Code} {x : SelectM Code}
    (hx : Yields e.regs k x (Emits e k)) :
    Yields e.regs k (do
      let leave ← x
      return valueCode ++ saves.map (fun q => Inst.mv (.phys q.1) q.2) ++
        value.toList.map (fun r => Inst.mv (.phys e.scope.target.result) r) ++ leave ++
          [Inst.mk .ret none []]) fun code c =>
      ∀ n₀, (∀ r ∈ value.toList, e.regs.Knows r) → Emits e k valueCode n₀ → KnowsAll e saves →
        Emits e k code (n₀ + c) := by
  refine .bind hx fun leave => .pure ?_
  intro c hleave c' hvalue hcode hsaves
  have hrestore := movesToPhys_emits (k := k) Prod.fst Prod.snd hsaves
  have hplace := movesToPhys_emits (k := k) (fun _ => e.scope.target.result) id hvalue
  have hret : Emits e k [⟨.ret, none, []⟩] 0 := .effect (List.forall_mem_nil _)
  exact ((((hcode.append hrestore).append hplace).append hleave).append hret).mono (by omega)

theorem lowerReturn_yields {saves : Saves} (hv : e.Offers v) :
    Yields e.regs k (e.scope.lowerReturn saves v) fun code c =>
      KnowsAll e saves → Emits e k code c := by
  refine .lookup fun operands hoperands => ?_
  dsimp only
  split
  · rename_i o ho
    have ho : o ∈ e.scope.module.operandsOf v := by
      rw [Module.operandsOf_of_operands hoperands]
      exact List.mem_of_head? ho
    refine .bind (regOf_yields (hv o ho)) fun q => ?_
    refine .bind (P := fun value _ => value = (some q.1, q.2)) (.pure rfl) fun value => ?_
    have hend {code : Code} {c : Nat} (h : ∀ n₀, (∀ r ∈ value.1.toList, e.regs.Knows r) →
        Emits e k value.2 n₀ → KnowsAll e saves → Emits e k code (n₀ + c)) :
        ∀ n₀, value = (some q.1, q.2) → ∀ n₁, Fills e k q n₁ → KnowsAll e saves →
          Emits e k code (n₁ + (n₀ + c)) := by
      rintro n₀ rfl n₁ ⟨hreg, hcode⟩ hsaves
      exact (h n₁ (List.forall_mem_singleton.2 hreg) hcode hsaves).mono (by omega)
    split
    · exact (leave_yields adjustStack_yields).mono fun code c => hend
    · exact (leave_yields (.pure .nil)).mono fun code c => hend
  · refine .bind (P := fun value _ => value = (none, [])) (.pure rfl) fun value => ?_
    have hend {code : Code} {c : Nat} (h : ∀ n₀, (∀ r ∈ value.1.toList, e.regs.Knows r) →
        Emits e k value.2 n₀ → KnowsAll e saves → Emits e k code (n₀ + c)) :
        ∀ n₀, value = (none, []) → KnowsAll e saves → Emits e k code (n₀ + c) := by
      rintro n₀ rfl hsaves
      exact h n₀ (List.forall_mem_nil _) .nil hsaves
    split
    · exact (leave_yields adjustStack_yields).mono fun code c => hend
    · exact (leave_yields (.pure .nil)).mono fun code c => hend

/-! ## Instructions -/

theorem lowerInst_yields {saves : Saves} {edges : EdgeBlocks} {b : BlockId} (hv : Serves e v)
    (hroutes : Routes e edges) :
    Yields e.regs k (e.scope.lowerInst saves edges b v) fun code c =>
      KnowsAll e saves → EmitsFor e k v code c := by
  refine .lookup fun kind hkind => ?_
  obtain ⟨kind, hk, rfl⟩ := Module.kindOf_of_instKind hkind
  have hplain {x : SelectM Code} (h : Yields e.regs k x (Emits e k)) :
      Yields e.regs k x fun code c => KnowsAll e saves → EmitsFor e k v code c :=
    h.mono fun code c hcode _ => hcode.mono (Nat.le_add_right _ _)
  have hvalue {x : SelectM Code} (h : Yields e.regs k x (EmitsFor e k v)) :
      Yields e.regs k x fun code c => KnowsAll e saves → EmitsFor e k v code c :=
    h.mono fun code c hcode _ => hcode
  cases kind with
  | const | global | param | block => exact .halt
  | inst kind =>
    cases kind with
    | phi => exact hplain (.pure .nil)
    | sext | cast => exact hvalue (lowerMove_yields hv.operands)
    | br => exact hplain (lowerBr_yields hv hroutes)
    | gep => exact hvalue (lowerGep_yields hv.operands)
    | ret =>
      refine (lowerReturn_yields hv.operands).mono fun code c hcode hsaves => ?_
      exact (hcode hsaves).mono (Nat.le_add_right _ _)
    | load => exact hvalue (lowerLoad_yields hv.operands)
    | store => exact hplain (lowerStore_yields hv.operands)
    | call callee => exact hvalue (lowerCall_yields hv.operands (hv.callee callee hk))
    | alloca => exact hvalue lowerAlloca_yields
    | binary => exact hvalue (lowerBinary_yields hv.operands)
    | compare =>
      refine .lookup fun fused _ => ?_
      split
      · exact hplain (.pure .nil)
      · exact hvalue (lowerCompare_yields hv.operands)

/-- A comparison that a branch takes over has no code. -/
theorem lowerInst_fused {saves : Saves} {edges : EdgeBlocks} {b : BlockId}
    (hv : e.scope.module.Fused v) :
    Yields e.regs k (e.scope.lowerInst saves edges b v) fun code _ => code = [] := by
  intro s s' code _ h
  obtain ⟨op, hop⟩ := hv.compare
  rcases lowerInst_compare hop h with ⟨-, rfl, rfl⟩ | ⟨hnot, -⟩
  · exact ⟨.refl, fun _ => rfl⟩
  · exact absurd hv hnot

theorem lowerInsts_yields {saves : Saves} {edges : EdgeBlocks} {b : BlockId}
    {insts : List ValueId} (hinsts : ∀ v ∈ insts, Serves e v) (hroutes : Routes e edges) :
    Yields e.regs k (e.scope.lowerInsts saves edges b insts) fun code c => KnowsAll e saves →
      Emits e k code (c + ownedBy e.regs k (insts.filter (¬e.scope.module.Fused ·))) := by
  induction insts with
  | nil => exact .pure fun _ => .nil
  | cons v rest ih =>
    obtain ⟨hv, hrest⟩ := List.forall_mem_cons.1 hinsts
    by_cases hfused : e.scope.module.Fused v
    · refine .bind (lowerInst_fused hfused) fun code => .bind (ih hrest) fun restCode => .pure ?_
      rintro c hrestCode c' rfl hsaves
      rw [List.filter_cons_of_neg (by simpa using hfused)]
      exact (hrestCode hsaves).mono (by omega)
    · refine .bind (lowerInst_yields hv hroutes) fun code => .bind (ih hrest) fun restCode => ?_
      refine .pure ?_
      intro c hrestCode c' hcode hsaves
      refine ((hcode hsaves).append (hrestCode hsaves)).mono ?_
      rw [List.filter_cons_of_pos (by simpa using hfused), ownedBy_cons]
      omega

end Scope

end SsaCodegen
