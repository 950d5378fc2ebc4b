import SsaCodegen.Proofs.Select.Immediate
import SsaCodegen.Proofs.Semantics.Word
import SsaCodegen.Select.Body

/-!
# Operands in registers

A parameter or an instruction has one register for the whole function, which is final once it is
given. `Stands` says what it means for the machine to hold the word of an operand, for final
registers `S`: for a constant and for a global variable it is no matter of the state. Code for an
operand then brings its word into a register and changes nothing but scratch.

## Main definitions

* `Scope.Stands` — an operand has a word in a state of the machine
* `Scope.Sourced` — a register has the word of an operand

## Main results

* `Scope.regOf_sourced`, `regOf_ok`, `address_ok` — what the code for operands does
-/

namespace SsaCodegen

open Target SelectM Registers

namespace Scope

variable {sc : Scope} {p : Platform} {s s' S : Registers} {st st' : State} {v : ValueId} {w : Word}

/-! ## Registers of values -/

theorem valueReg_ok {r : Reg} (h : sc.valueReg v s = .ok (r, s')) :
    Grows s s' ∧ s'.held.lookup v = some r := by
  obtain ⟨t, s₁, hget, h⟩ := bind_ok.1 h
  cases hget
  cases hheld : s.held.lookup v with
  | some r' =>
    rw [hheld] at h
    obtain ⟨rfl, rfl⟩ := pure_ok.1 h
    exact ⟨.refl, hheld⟩
  | none =>
    rw [hheld] at h
    obtain ⟨x, -, h⟩ := lift_bind_ok.1 h
    obtain ⟨r', s₁, hr, h⟩ := bind_ok.1 h
    obtain ⟨rfl, rfl⟩ := newReg_ok.1 hr
    obtain ⟨u, s₂, hmodify, h⟩ := bind_ok.1 h
    cases hmodify
    obtain ⟨rfl, rfl⟩ := pure_ok.1 h
    exact ⟨.hold x.name .refl hheld, (lookup_cons_eq_some hheld).2 (.inl ⟨rfl, rfl⟩)⟩

/-! ## Words of operands -/

/-- An operand has a word: in its register if it is computed, else by what it is. A label and a
string have none. -/
def Stands (sc : Scope) (p : Platform) (S : Registers) (st : State) (v : ValueId) (w : Word) :
    Prop :=
  match sc.module.kindOf v with
  | some (.global g) => w = p.address g.idx
  | some (.const c) => ∀ n, c.asInt = some n → w = .lit n
  | some (.param _ _) | some (.inst _) => ∀ r, S.held.lookup v = some r → st.get r = w
  | some (.block _) | none => True

/-- What holds of operands depends on registers that hold values only. -/
theorem Stands.congr (h : sc.Stands p S st v w)
    (hget : ∀ {v r}, S.held.lookup v = some r → st'.get r = st.get r) :
    sc.Stands p S st' v w := by
  rw [Stands] at h ⊢
  split
  · rename_i g hk
    rwa [hk] at h
  · rename_i c hk
    rwa [hk] at h
  · rename_i g i hk
    rw [hk] at h
    intro r hr
    rw [hget hr, h r hr]
  · rename_i k hk
    rw [hk] at h
    intro r hr
    rw [hget hr, h r hr]
  · trivial
  · trivial

theorem Stands.quiet (h : sc.Stands p S st v w) (hq : Quiet s s' st st') (hS : Grows s' S) :
    sc.Stands p S st' v w :=
  h.congr fun hr => hq.get (hS.not_scratch hr)

/-- A register has the word of an operand: it is the operand's own, or it is scratch and has been
filled with a word that is no matter of the state. -/
def Sourced (sc : Scope) (p : Platform) (s s' : Registers) (st : State) (v : ValueId) (r : Reg) :
    Prop :=
  (∀ S st w, Grows s' S → sc.Stands p S st v w → st.get r = w) ∨
    Scratch s s' r ∧ ∀ S st' w, sc.Stands p S st' v w → st.get r = w

theorem Sourced.get_eq {r : Reg} (h : sc.Sourced p s s' st v r) (hS : Grows s' S)
    (hw : sc.Stands p S st v w) : st.get r = w := by
  rcases h with h | ⟨-, h⟩
  · exact h S st w hS hw
  · exact h S st w hw

/-- Registers may be added on both sides, and scratch registers alone need to be left as they
are. -/
theorem Sourced.mono {s₀ S : Registers} {r : Reg} (h : sc.Sourced p s s' st v r) (hg : Grows s₀ s)
    (hg' : Grows s' S) (hget : Scratch s s' r → st'.get r = st.get r) :
    sc.Sourced p s₀ S st' v r := by
  rcases h with h | ⟨hscratch, h⟩
  · exact .inl fun S' st w hS' hw => h S' st w (hg'.trans hS') hw
  · refine .inr ⟨(hscratch.grows_left hg).grows_right hg', fun S' st'' w hw => ?_⟩
    rw [hget hscratch, h S' st'' w hw]

theorem globalNumber_ok {g : GlobalId} {n : Nat} (h : sc.globalNumber g = .ok n) : n = g.idx := by
  rw [globalNumber] at h
  split at h
  · exact (Except.ok.inj h).symm
  · cases h

theorem globalAddr_ok {global : Nat} {r : Reg} {code : Code} (hs : s.Wf)
    (h : globalAddr global s = .ok ((r, code), s')) :
    Grows s s' ∧ Scratch s s' r ∧
      ∀ st, ∃ st', Does p code st st' ∧ Quiet s s' st st' ∧ st'.get r = p.address global := by
  obtain ⟨hi, s₁, hhi, h⟩ := bind_ok.1 h
  obtain ⟨addr, s₂, haddr, h⟩ := bind_ok.1 h
  obtain ⟨heq, rfl⟩ := pure_ok.1 h
  cases heq
  obtain ⟨hg, hscratch, hhas⟩ := fresh_ok hs hhi
  obtain ⟨hg', hscratch', hhas'⟩ := fresh_ok (hg.wf hs) haddr
  have hne := hhas.ne_zero
  refine ⟨hg.trans hg', hscratch'.grows_left hg, fun st => ?_⟩
  let st₁ := st.set hi (p.hi global <<< 12)
  have hlui : (Inst.mk .lui (some hi) [.globalHi global]).step p st = .next st₁ := by
    simp [Inst.step, State.value?, Opcode.compute, st₁]
  have haddi : (Inst.mk .addi (some r) [.reg hi, .globalLo global]).step p st₁ =
      .next (st₁.set r (p.address global)) := by
    rw [← p.hi_add_lo]
    simp [Inst.step, State.value?, Opcode.compute, st₁, hne]
  have hquiet : Quiet s s₁ st st₁ := (Writes.set s s₁ st _ hne).quiet hscratch
  have hwrites : Writes s₁ s₂ r (p.address global) st₁ _ := .set s₁ s₂ st₁ _ hhas'.ne_zero
  exact ⟨_, .cons hlui (.single haddi), hquiet.trans (hwrites.quiet hscratch') hg hg',
    hwrites.value⟩

section Operands

variable (hz : sc.target.zero = riscv32.zero)
include hz

/-- The code for an operand fills a register with its word, whether the operand has one yet or
not. -/
theorem regOf_sourced {user : ValueId} {r : Reg} {code : Code} (hs : s.Wf)
    (h : sc.regOf user v s = .ok ((r, code), s')) :
    Grows s s' ∧ s'.Has r ∧
      ∀ st, ∃ st', Does p code st st' ∧ Quiet s s' st st' ∧ sc.Sourced p s s' st' v r := by
  obtain ⟨kind, hkind, h⟩ := lift_bind_ok.1 h
  have hk := Module.kindOf_of_kind hkind
  -- a value that is computed is in its register already
  have hvalue (hstands : ∀ {S st w}, sc.Stands p S st v w ↔
      ∀ r, S.held.lookup v = some r → st.get r = w)
      (h : (do return (← sc.valueReg v, [])) s = .ok ((r, code), s')) :
      Grows s s' ∧ s'.Has r ∧
        ∀ st, ∃ st', Does p code st st' ∧ Quiet s s' st st' ∧ sc.Sourced p s s' st' v r := by
    obtain ⟨r', s₁, hr, h⟩ := bind_ok.1 h
    obtain ⟨heq, rfl⟩ := pure_ok.1 h
    cases heq
    obtain ⟨hg, hheld⟩ := valueReg_ok hr
    refine ⟨hg, (hg.wf hs).virt hheld, fun st => ⟨st, .nil, .refl, .inl fun S st w hS hw => ?_⟩⟩
    exact hstands.1 hw r (hS.lookup hheld)
  cases kind with
  | global g =>
    obtain ⟨n, hn, h⟩ := lift_bind_ok.1 h
    obtain rfl := globalNumber_ok hn
    obtain ⟨hg, hscratch, hcode⟩ := globalAddr_ok (p := p) hs h
    refine ⟨hg, hscratch.has, fun st => ?_⟩
    obtain ⟨st', hdoes, hquiet, hget⟩ := hcode st
    refine ⟨st', hdoes, hquiet, .inr ⟨hscratch, fun S st'' w hw => ?_⟩⟩
    rw [Stands, hk] at hw
    rw [hget, hw]
  | const c =>
    dsimp only at h
    cases hn : c.asInt with
    | some n =>
      rw [hn] at h
      obtain ⟨hg, hscratch, hcode⟩ := loadImm_ok (p := p) hz hs h
      refine ⟨hg, hscratch.has, fun st => ?_⟩
      obtain ⟨st', hdoes, hquiet, hget⟩ := hcode st
      refine ⟨st', hdoes, hquiet, .inr ⟨hscratch, fun S st'' w hw => ?_⟩⟩
      rw [Stands, hk] at hw
      rw [hget, hw n hn]
    | none =>
      rw [hn] at h
      exact absurd h refuse_ne_ok
  | param g i => exact hvalue (fun {S st w} => by rw [Stands, hk]) h
  | inst k => exact hvalue (fun {S st w} => by rw [Stands, hk]) h
  | block b =>
    obtain ⟨n, s₁, -, h⟩ := bind_ok.1 h
    exact absurd h refuse_ne_ok

/-- The code for an operand brings its word into a register. -/
theorem regOf_ok {user : ValueId} {r : Reg} {code : Code} (hs : s.Wf)
    (h : sc.regOf user v s = .ok ((r, code), s')) :
    Grows s s' ∧ s'.Has r ∧ ∀ {S st w}, Grows s' S → sc.Stands p S st v w →
      ∃ st', Does p code st st' ∧ Quiet s s' st st' ∧ st'.get r = w := by
  obtain ⟨hg, hhas, hcode⟩ := regOf_sourced (p := p) hz hs h
  refine ⟨hg, hhas, fun {S st w} hS hw => ?_⟩
  obtain ⟨st', hdoes, hquiet, hsourced⟩ := hcode st
  exact ⟨st', hdoes, hquiet, hsourced.get_eq hS (hw.quiet hquiet hS)⟩

/-- The code for two operands brings their words into two registers. -/
theorem regOf_regOf_ok {user user' v' : ValueId} {s₁ : Registers} {l r : Reg} {code code' : Code}
    (hs : s.Wf) (h : sc.regOf user v s = .ok ((l, code), s₁))
    (h' : sc.regOf user' v' s₁ = .ok ((r, code'), s')) :
    Grows s s' ∧ ∀ {S st a b}, Grows s' S → sc.Stands p S st v a →
      sc.Stands p S st v' b →
      ∃ st', Does p (code ++ code') st st' ∧ Quiet s s' st st' ∧ st'.get l = a ∧ st'.get r = b := by
  obtain ⟨hg, hhas, hcode⟩ := regOf_ok (p := p) hz hs h
  obtain ⟨hg', -, hcode'⟩ := regOf_ok (p := p) hz (hg.wf hs) h'
  refine ⟨hg.trans hg', fun {S st a b} hS ha hb => ?_⟩
  obtain ⟨st₁, hdoes, hquiet, hl⟩ := hcode (hg'.trans hS) ha
  obtain ⟨st', hdoes', hquiet', hr⟩ := hcode' hS (hb.quiet hquiet (hg'.trans hS))
  refine ⟨st', hdoes.append hdoes', hquiet.trans hquiet' hg hg', ?_, hr⟩
  rw [hquiet'.get hhas.knows.not_scratch, hl]

/-- The code for an address leaves a memory operand that stands for it. -/
theorem address_ok {inst : ValueId} {a : Mem} {code : Code} (hs : s.Wf)
    (h : sc.address inst v s = .ok ((a, code), s')) :
    Grows s s' ∧ ∀ {S st w}, Grows s' S → sc.Stands p S st v w →
      ∃ st', Does p code st st' ∧ Quiet s s' st st' ∧ st'.addressOf p a = w := by
  obtain ⟨kind, hkind, h⟩ := lift_bind_ok.1 h
  have hk := Module.kindOf_of_kind hkind
  cases hg : kind.asGlobal with
  | some g =>
    rw [hg] at h
    obtain ⟨n, hn, h⟩ := lift_bind_ok.1 h
    obtain rfl := globalNumber_ok hn
    obtain ⟨hi, s₁, hhi, h⟩ := bind_ok.1 h
    obtain ⟨heq, rfl⟩ := pure_ok.1 h
    cases heq
    obtain ⟨hgrows, hscratch, hhas⟩ := fresh_ok hs hhi
    have hne := hhas.ne_zero
    obtain rfl : kind = .global g := by
      cases kind <;> cases hg
      rfl
    refine ⟨hgrows, fun {S st w} _ hw => ?_⟩
    rw [Stands, hk] at hw
    have hlui : (Inst.mk .lui (some hi) [.globalHi g.idx]).step p st =
        .next (st.set hi (p.hi g.idx <<< 12)) := by
      simp [Inst.step, State.value?, Opcode.compute]
    refine ⟨_, .single hlui, (Writes.set s s₁ st _ hne).quiet hscratch, ?_⟩
    rw [hw, State.addressOf, st.get_set_self _ hne]
    exact p.hi_add_lo g.idx
  | none =>
    rw [hg] at h
    obtain ⟨⟨base, code'⟩, s₁, hbase, h⟩ := bind_ok.1 h
    obtain ⟨heq, rfl⟩ := pure_ok.1 h
    cases heq
    obtain ⟨hg, -, hcode⟩ := regOf_ok (p := p) hz hs hbase
    refine ⟨hg, fun {S st w} hS hw => ?_⟩
    obtain ⟨st', hdoes, hquiet, hget⟩ := hcode hS hw
    refine ⟨st', hdoes, hquiet, ?_⟩
    show st'.get base + 0#32 = w
    rw [hget, BitVec.add_zero]

end Operands

end Scope

end SsaCodegen
