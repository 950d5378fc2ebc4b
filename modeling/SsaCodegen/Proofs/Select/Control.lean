import SsaCodegen.Proofs.Select.Convention

/-!
# Code for branches, and for the instructions of a block in turn

A branch on a comparison that nothing else uses takes the comparison over: it compares the operands
itself, and the comparison has no code of its own. `Scope.Tested` says what the machine must know for
a branch to go the right way in either case.

## Main definitions

* `Module.FusedInto`, `Module.Fused` — a branch takes a comparison over
* `Scope.Tested` — the machine has what it takes to test a condition
* `Scope.Targets` — the number of the block to go to on an edge

## Main results

* `Scope.lowerTest_parts`, `Scope.lowerBr_parts` — what branches on conditions are made of
* `Scope.lowerBr_jump`, `Scope.lowerBr_branch` — branches
* `Scope.lowerInst_compare` — comparisons, taken over or not
* `Scope.lowerInst_ok` — instructions that are neither phis nor terminators
-/

namespace SsaCodegen

open Target SelectM Registers

/-! ## Comparisons that branches take over -/

namespace Module

variable {m : Module} {c t u : ValueId}

/-- The only use of a value is as the condition of a branch. -/
structure FusedInto (m : Module) (c u : ValueId) : Prop where
  uses : m.usesOf c = [⟨u, 0⟩]
  kind : m.kindOf u = some (.inst .br)
  length : (m.operandsOf u).length = 3

/-- A comparison that a branch takes over. -/
structure Fused (m : Module) (c : ValueId) : Prop where
  compare : ∃ op, m.kindOf c = some (.inst (.compare op))
  into : ∃ u, m.FusedInto c u

/-- A branch takes a comparison over. -/
def TakesOver (m : Module) (u c : ValueId) : Prop :=
  (∃ op, m.kindOf c = some (.inst (.compare op))) ∧ m.FusedInto c u

instance (m : Module) (c u : ValueId) : Decidable (m.FusedInto c u) :=
  decidable_of_iff (m.usesOf c = [⟨u, 0⟩] ∧ m.kindOf u = some (.inst .br) ∧
    (m.operandsOf u).length = 3) ⟨fun h => ⟨h.1, h.2.1, h.2.2⟩, fun h => ⟨h.uses, h.kind, h.length⟩⟩

/-- The branch that takes a comparison over is found among its users. -/
theorem fused_iff : m.Fused c ↔
    (∃ op ∈ CmpOp.all, m.kindOf c = some (.inst (.compare op))) ∧
      ∃ use ∈ m.usesOf c, m.FusedInto c use.user := by
  constructor
  · rintro ⟨⟨op, hop⟩, u, hu⟩
    refine ⟨⟨op, ?_, hop⟩, ⟨u, 0⟩, ?_, hu⟩
    · cases op <;> decide
    · rw [hu.uses]
      exact List.mem_cons_self
  · rintro ⟨⟨op, -, hop⟩, use, -, hu⟩
    exact ⟨⟨op, hop⟩, use.user, hu⟩

instance (m : Module) (c : ValueId) : Decidable (m.Fused c) := decidable_of_iff' _ fused_iff

theorem fusedBranch_eq_some {r : Option ValueId} (h : Scope.fusedBranch m c = .ok r) :
    r = some u ↔ m.FusedInto c u := by
  obtain ⟨us, hus, h⟩ := SsaCodegen.bind_eq_ok.1 h
  have hus := usesOf_of_uses hus
  match us, h with
  | [], h | _ :: _ :: _, h =>
    obtain rfl := Except.ok.inj h
    refine ⟨nofun, fun hf => ?_⟩
    rw [hf.uses] at hus
    cases hus
  | [use], h =>
    obtain ⟨x, hx, h⟩ := SsaCodegen.bind_eq_ok.1 h
    have hx := value_eq_ok.1 hx
    have hkind : m.kindOf use.user = some x.kind := kindOf_eq_some.2 ⟨x, hx, rfl⟩
    have hoperands : m.operandsOf use.user = x.operands := valueField_eq hx
    obtain rfl := Except.ok.inj h
    constructor
    · intro hu
      split at hu
      · rename_i hcond
        obtain ⟨hindex, hbr, hlen⟩ := hcond
        obtain ⟨user, index⟩ := use
        obtain rfl := Option.some.inj hu
        subst hindex
        exact ⟨hus, by rw [hkind, hbr], by rw [hoperands, hlen]⟩
      · cases hu
    · intro hf
      obtain rfl : use = ⟨u, 0⟩ := by simpa using hus.symm.trans hf.uses
      have hbr : x.kind = .inst .br := Option.some.inj (hkind.symm.trans hf.kind)
      exact if_pos ⟨rfl, hbr, by rw [← hoperands, hf.length]⟩

/-- A comparison that a branch takes over has no other user. -/
theorem FusedInto.eq_of_mem (hf : m.FusedInto c u) (hm : Mirrored m) {i : Nat}
    (hc : (m.operandsOf t)[i]? = some c) : t = u ∧ i = 0 := by
  have hmem : (⟨t, i⟩ : Use) ∈ m.usesOf c := hm.mem.2 hc
  rw [hf.uses, List.mem_singleton] at hmem
  cases hmem
  exact ⟨rfl, rfl⟩

/-- No instruction but a branch uses a comparison that a branch takes over. -/
theorem not_fused_of_mem (hm : Mirrored m) {k : InstKind} (hk : m.kindOf t = some (.inst k))
    (hbr : k ≠ .br) (hc : c ∈ m.operandsOf t) : ¬m.Fused c := by
  rintro ⟨-, u, hf⟩
  obtain ⟨i, hi⟩ := List.getElem?_of_mem hc
  obtain ⟨rfl, -⟩ := hf.eq_of_mem hm hi
  rw [hf.kind] at hk
  cases hk
  exact hbr rfl

end Module

theorem CmpOp.branch?_branchOp (op : CmpOp) : op.branchOp.branch? = some op.test := by
  cases op <;> rfl

namespace Scope

variable {sc : Scope} {p : Platform} {a : Activation} {s s' : Registers} {v : ValueId} {code : Code}
  {edges : EdgeBlocks} {pred : BlockId}

/-! ## Branches -/

/-- The machine can test a condition that is a word: it holds the word, or the branch takes over a
comparison with that verdict and the machine holds its operands. -/
def Tested (sc : Scope) (p : Platform) (S : Registers) (st : State) (cond : ValueId) (w : Word) :
    Prop :=
  (¬sc.module.Fused cond → sc.Stands p S st cond w) ∧
  ∀ op, sc.module.kindOf cond = some (.inst (.compare op)) → sc.module.Fused cond →
    ∃ l r x y, sc.module.operandsOf cond = [l, r] ∧ sc.Stands p S st l x ∧
      sc.Stands p S st r y ∧ w = .ofBool (op.test x y)

/-- The number of the block to go to on the edge from one block to another. -/
def Targets (sc : Scope) (edges : EdgeBlocks) (pred succ : BlockId) (n : Nat) : Prop :=
  ∃ k, sc.blocks.idxOf? succ = some k ∧ n = (edges.lookup (pred, succ)).getD k

theorem branchTarget_ok {label : ValueId} {n : Nat}
    (h : sc.branchTarget edges pred v label s = .ok (n, s')) :
    s = s' ∧ ∃ c, sc.module.blockOf? label = some c ∧ sc.Targets edges pred c n := by
  obtain ⟨kind, hkind, h⟩ := lift_bind_ok.1 h
  have hk := Module.kindOf_of_kind hkind
  cases kind with
  | block c =>
    obtain ⟨plain, hplain, h⟩ := lift_bind_ok.1 h
    obtain ⟨rfl, rfl⟩ := pure_ok.1 h
    exact ⟨rfl, c, Module.blockOf?_eq_some.2 hk, plain, lookupOr_eq_ok.1 hplain, rfl⟩
  | _ => exact absurd h halt_ne_ok

theorem fusedCompare_ok {cond : ValueId} {r : Option CmpOp}
    (h : sc.fusedCompare v cond = .ok r) :
    (∀ op, r = some op → sc.module.kindOf cond = some (.inst (.compare op)) ∧
      sc.module.FusedInto cond v) ∧
    (r = none → ¬((∃ op, sc.module.kindOf cond = some (.inst (.compare op))) ∧
      sc.module.FusedInto cond v)) := by
  obtain ⟨kind, hkind, h⟩ := SsaCodegen.bind_eq_ok.1 h
  have hk := Module.kindOf_of_kind hkind
  -- nothing but a comparison is taken over
  have hother (hne : ∀ op, kind ≠ .inst (.compare op)) (hr : r = none) :
      (∀ op, r = some op → sc.module.kindOf cond = some (.inst (.compare op)) ∧
        sc.module.FusedInto cond v) ∧
      (r = none → ¬((∃ op, sc.module.kindOf cond = some (.inst (.compare op))) ∧
        sc.module.FusedInto cond v)) := by
    subst hr
    refine ⟨nofun, fun _ hcmp => ?_⟩
    obtain ⟨⟨op, hop⟩, -⟩ := hcmp
    exact hne op (Option.some.inj (hk.symm.trans hop))
  cases kind with
  | inst k =>
    cases k with
    | compare op =>
      obtain ⟨u, hu, h⟩ := SsaCodegen.bind_eq_ok.1 h
      have hfused := Module.fusedBranch_eq_some (u := v) hu
      obtain rfl := Except.ok.inj h
      constructor
      · intro op' hop
        split at hop
        · cases hop
          exact ⟨hk, hfused.1 ‹_›⟩
        · cases hop
      · rintro hnone ⟨-, hinto⟩
        rw [if_pos (hfused.2 hinto)] at hnone
        cases hnone
    | _ => exact hother nofun (Except.ok.inj h).symm
  | _ => exact hother nofun (Except.ok.inj h).symm

/-- What the test of a branch is made of: the comparison that it takes over, on the registers of its
operands, or else a test of the register of its condition. -/
theorem lowerTest_parts {cond : ValueId} {dest : Nat}
    (h : sc.lowerTest v cond dest s = .ok (code, s')) :
    (∃ op l r x y lCode rCode s₁, sc.module.kindOf cond = some (.inst (.compare op)) ∧
      sc.module.FusedInto cond v ∧ (sc.module.operandsOf cond)[0]? = some l ∧
      (sc.module.operandsOf cond)[1]? = some r ∧ sc.regOf cond l s = .ok ((x, lCode), s₁) ∧
      sc.regOf cond r s₁ = .ok ((y, rCode), s') ∧
      code = lCode ++ rCode ++ [⟨op.branchOp, none, [.reg x, .reg y, .block dest]⟩]) ∨
    ¬sc.module.TakesOver v cond ∧ ∃ x condCode, sc.regOf v cond s = .ok ((x, condCode), s') ∧
      code = condCode ++ [⟨.bnez, none, [.reg x, .block dest]⟩] := by
  obtain ⟨fused, hfused, h⟩ := lift_bind_ok.1 h
  obtain ⟨hsome, hnone⟩ := fusedCompare_ok hfused
  cases fused with
  | some op =>
    obtain ⟨hk, hinto⟩ := hsome op rfl
    obtain ⟨l, hl, h⟩ := lift_bind_ok.1 h
    obtain ⟨⟨x, lCode⟩, s₁, hx, h⟩ := bind_ok.1 h
    obtain ⟨r, hr, h⟩ := lift_bind_ok.1 h
    obtain ⟨⟨y, rCode⟩, s₂, hy, h⟩ := bind_ok.1 h
    obtain ⟨rfl, rfl⟩ := pure_ok.1 h
    exact .inl ⟨op, l, r, x, y, lCode, rCode, s₁, hk, hinto, Module.operandsOf_of_operand hl,
      Module.operandsOf_of_operand hr, hx, hy, rfl⟩
  | none =>
    obtain ⟨⟨x, condCode⟩, s₁, hx, h⟩ := bind_ok.1 h
    obtain ⟨rfl, rfl⟩ := pure_ok.1 h
    exact .inr ⟨hnone rfl, x, condCode, hx, rfl⟩

/-- What a branch on a condition is made of. -/
theorem lowerBr_parts {cond thenLabel elseLabel : ValueId}
    (ho : sc.module.operandsOf v = [cond, thenLabel, elseLabel])
    (h : sc.lowerBr edges pred v s = .ok (code, s')) :
    ∃ c n c' n' test, sc.module.blockOf? thenLabel = some c ∧ sc.Targets edges pred c n ∧
      sc.module.blockOf? elseLabel = some c' ∧ sc.Targets edges pred c' n' ∧
      sc.lowerTest v cond n s = .ok (test, s') ∧ code = test ++ [.jump n'] := by
  obtain ⟨ops, hops, h⟩ := lift_bind_ok.1 h
  obtain rfl := (Module.operandsOf_of_operands hops).symm.trans ho
  obtain ⟨n, s₁, hn, h⟩ := bind_ok.1 h
  obtain ⟨rfl, c, hc, htargets⟩ := branchTarget_ok hn
  obtain ⟨n', s₁, hn', h⟩ := bind_ok.1 h
  obtain ⟨rfl, c', hc', htargets'⟩ := branchTarget_ok hn'
  obtain ⟨test, s₁, htest, h⟩ := bind_ok.1 h
  obtain ⟨rfl, rfl⟩ := pure_ok.1 h
  exact ⟨c, n, c', n', test, hc, htargets, hc', htargets', htest, rfl⟩

section Branches

variable (hz : sc.target.zero = riscv32.zero) (hs : s.Wf)
include hz hs

/-- The test of a branch goes to its block just if the condition is not zero. -/
theorem lowerTest_ok (hm : Module.Mirrored sc.module) {cond : ValueId} {dest : Nat}
    (hcond : (sc.module.operandsOf v)[0]? = some cond)
    (h : sc.lowerTest v cond dest s = .ok (code, s')) :
    Grows s s' ∧ ∀ {S st w}, Grows s' S → sc.Tested p S st cond w →
      ∃ st', Quiet s s' st st' ∧ ∀ rest, exec p (code ++ rest) st =
        if w ≠ 0 then (.goto dest, st') else exec p rest st' := by
  rcases lowerTest_parts h with
    ⟨op, l, r, lr, rr, lCode, rCode, s₁, hk, hinto, hl, hr, hlr, hrr, rfl⟩ |
      ⟨hnone, c, condCode, hc, rfl⟩
  · obtain ⟨hg, hcode⟩ := regOf_regOf_ok (p := p) hz hs hlr hrr
    refine ⟨hg, fun {S st w} hS htested => ?_⟩
    obtain ⟨lo, ro, x, y, ho, hx, hy, rfl⟩ := htested.2 op hk ⟨⟨op, hk⟩, v, hinto⟩
    rw [ho] at hl hr
    cases hl
    cases hr
    obtain ⟨st', hdoes, hquiet, hl, hr⟩ := hcode hS hx hy
    refine ⟨st', hquiet, fun rest => ?_⟩
    rw [List.append_assoc, hdoes.exec, List.singleton_append, exec]
    simp only [Inst.step, CmpOp.branch?_branchOp, hl, hr]
    cases op.test x y <;> rfl
  · have hnot : ¬sc.module.Fused cond := by
      rintro ⟨hcmp, u, hinto⟩
      obtain ⟨rfl, -⟩ := hinto.eq_of_mem hm hcond
      exact hnone ⟨hcmp, hinto⟩
    obtain ⟨hg, -, hcode⟩ := regOf_ok (p := p) hz hs hc
    refine ⟨hg, fun {S st w} hS htested => ?_⟩
    obtain ⟨st', hdoes, hquiet, hget⟩ := hcode hS (htested.1 hnot)
    refine ⟨st', hquiet, fun rest => ?_⟩
    rw [List.append_assoc, hdoes.exec, List.singleton_append, exec]
    simp only [Inst.step, hget, if_true]
    by_cases hw : w ≠ 0
    · rw [if_pos hw, if_pos hw]
    · rw [if_neg hw, if_neg hw]

omit hz hs in
/-- A branch that is no test. -/
theorem lowerBr_jump {dest : ValueId} (ho : sc.module.operandsOf v = [dest])
    (h : sc.lowerBr edges pred v s = .ok (code, s')) :
    s = s' ∧ ∃ c n, sc.module.blockOf? dest = some c ∧ sc.Targets edges pred c n ∧
      code = [.jump n] := by
  obtain ⟨ops, hops, h⟩ := lift_bind_ok.1 h
  obtain rfl := (Module.operandsOf_of_operands hops).symm.trans ho
  obtain ⟨n, s₁, hn, h⟩ := bind_ok.1 h
  obtain ⟨rfl, rfl⟩ := pure_ok.1 h
  obtain ⟨rfl, c, hc, htargets⟩ := branchTarget_ok hn
  exact ⟨rfl, c, n, hc, htargets, rfl⟩

/-- A branch on a condition. -/
theorem lowerBr_branch (hm : Module.Mirrored sc.module) {cond thenLabel elseLabel : ValueId}
    (ho : sc.module.operandsOf v = [cond, thenLabel, elseLabel])
    (h : sc.lowerBr edges pred v s = .ok (code, s')) :
    Grows s s' ∧ ∀ {S st w}, Grows s' S → sc.Tested p S st cond w →
      ∃ c n st', sc.module.blockOf? (if w ≠ 0 then thenLabel else elseLabel) = some c ∧
        sc.Targets edges pred c n ∧ Quiet s s' st st' ∧ exec p code st = (.goto n, st') := by
  obtain ⟨c, n, c', n', test, hc, htargets, hc', htargets', htest, rfl⟩ := lowerBr_parts ho h
  obtain ⟨hg, hcode⟩ := lowerTest_ok (p := p) hz hs hm (by rw [ho]; rfl) htest
  refine ⟨hg, fun {S st w} hS htested => ?_⟩
  obtain ⟨st', hquiet, hexec⟩ := hcode hS htested
  by_cases hw : w ≠ 0
  · refine ⟨c, n, st', by rw [if_pos hw, hc], htargets, hquiet, ?_⟩
    rw [hexec, if_pos hw]
  · refine ⟨c', n', st', by rw [if_neg hw, hc'], htargets', hquiet, ?_⟩
    rw [hexec, if_neg hw]
    rfl

end Branches

/-! ## The instructions of a block in turn -/

theorem lowerInst_br {saves : Saves} {b : BlockId} (hk : sc.module.kindOf v = some (.inst .br)) :
    sc.lowerInst saves edges b v = sc.lowerBr edges b v := by
  rw [lowerInst, Module.instKind_eq hk]
  rfl

theorem lowerInst_ret {saves : Saves} {b : BlockId} (hk : sc.module.kindOf v = some (.inst .ret)) :
    sc.lowerInst saves edges b v = sc.lowerReturn saves v := by
  rw [lowerInst, Module.instKind_eq hk]
  rfl

theorem lowerInst_call {saves : Saves} {b : BlockId} {callee : FuncId}
    (hk : sc.module.kindOf v = some (.inst (.call callee))) :
    sc.lowerInst saves edges b v = sc.lowerCall v callee := by
  rw [lowerInst, Module.instKind_eq hk]
  rfl

theorem lowerInst_phi {saves : Saves} {b : BlockId} (hk : sc.module.kindOf v = some (.inst .phi))
    (h : sc.lowerInst saves edges b v s = .ok (code, s')) : code = [] ∧ s' = s := by
  obtain ⟨kind, hkind, h⟩ := lift_bind_ok.1 h
  rw [Module.instKind_eq hk] at hkind
  obtain rfl := Except.ok.inj hkind
  obtain ⟨rfl, rfl⟩ := pure_ok.1 h
  exact ⟨rfl, rfl⟩

/-- A comparison has no code if a branch takes it over, and else code of its own. -/
theorem lowerInst_compare {saves : Saves} {b : BlockId} {op : CmpOp}
    (hk : sc.module.kindOf v = some (.inst (.compare op)))
    (h : sc.lowerInst saves edges b v s = .ok (code, s')) :
    sc.module.Fused v ∧ code = [] ∧ s = s' ∨
      ¬sc.module.Fused v ∧ sc.lowerCompare v op s = .ok (code, s') := by
  obtain ⟨kind, hkind, h⟩ := lift_bind_ok.1 h
  rw [Module.instKind_eq hk] at hkind
  obtain rfl := Except.ok.inj hkind
  obtain ⟨u, hu, h⟩ := lift_bind_ok.1 h
  cases u with
  | some u =>
    obtain ⟨rfl, rfl⟩ := pure_ok.1 h
    exact .inl ⟨⟨⟨op, hk⟩, u, (Module.fusedBranch_eq_some hu).1 rfl⟩, rfl, rfl⟩
  | none =>
    refine .inr ⟨?_, h⟩
    rintro ⟨-, u, hinto⟩
    cases (Module.fusedBranch_eq_some hu).2 hinto

/-- An instruction that is neither a phi nor a terminator is evaluated by its code, unless a branch
takes it over. -/
theorem lowerInst_ok {saves : Saves} {b : BlockId} {f : FuncId} {k : InstKind}
    (ht : sc.target = riscv32) (hframe : sc.frame = a.frame) (hs : s.Wf)
    (hk : sc.module.kindOf v = some (.inst k)) (hphi : k ≠ .phi) (hterm : k.isTerminator = false)
    (hfits : sc.module.Fits f k (sc.module.operandsOf v))
    (harity : ∀ callee, k = .call callee → p.arity callee.idx = (sc.module.operandsOf v).length)
    (h : sc.lowerInst saves edges b v s = .ok (code, s')) :
    sc.module.Fused v ∧ code = [] ∧ s = s' ∨
      ¬sc.module.Fused v ∧ sc.Performs p a s s' v code := by
  have hcompare := h
  obtain ⟨kind, hkind, h⟩ := lift_bind_ok.1 h
  rw [Module.instKind_eq hk] at hkind
  obtain rfl := Except.ok.inj hkind
  have hz := congrArg Spec.zero ht
  have hnot (hne : ∀ op, k ≠ .compare op) : ¬sc.module.Fused v := by
    rintro ⟨⟨op, hop⟩, -⟩
    rw [hk] at hop
    cases hop
    exact hne op rfl
  cases k with
  | phi => exact absurd rfl hphi
  | br | ret => cases hterm
  | sext => exact .inr ⟨hnot nofun, lowerMove_performs hz hs hk (.inl rfl) hfits h⟩
  | cast => exact .inr ⟨hnot nofun, lowerMove_performs hz hs hk (.inr rfl) hfits h⟩
  | gep needsZero => exact .inr ⟨hnot nofun, lowerGep_performs hz hs hk hfits h⟩
  | load => exact .inr ⟨hnot nofun, lowerLoad_performs hz hs hk hfits h⟩
  | store => exact .inr ⟨hnot nofun, lowerStore_performs hz hs hk hfits h⟩
  | call callee => exact .inr ⟨hnot nofun, lowerCall_performs ht hs hk (harity callee rfl) h⟩
  | alloca slot => exact .inr ⟨hnot nofun, lowerAlloca_performs hs ht hk hframe h⟩
  | binary op => exact .inr ⟨hnot nofun, lowerBinary_performs hz hs hk hfits h⟩
  | compare op =>
    rcases lowerInst_compare hk hcompare with hfused | ⟨hnot, h⟩
    · exact .inl hfused
    · exact .inr ⟨hnot, lowerCompare_performs hz hs hk hfits h⟩

theorem lowerInsts_cons {saves : Saves} {b : BlockId} {rest : List ValueId}
    (h : sc.lowerInsts saves edges b (v :: rest) s = .ok (code, s')) :
    ∃ here later s₁, sc.lowerInst saves edges b v s = .ok (here, s₁) ∧
      sc.lowerInsts saves edges b rest s₁ = .ok (later, s') ∧ code = here ++ later := by
  obtain ⟨here, s₁, hhere, h⟩ := bind_ok.1 h
  obtain ⟨later, s₂, hlater, h⟩ := bind_ok.1 h
  obtain ⟨rfl, rfl⟩ := pure_ok.1 h
  exact ⟨here, later, s₁, hhere, hlater, rfl⟩

/-- Phis have no code. -/
theorem lowerInsts_phis {saves : Saves} {b : BlockId} {phis rest : List ValueId}
    (hphis : ∀ v ∈ phis, sc.module.kindOf v = some (.inst .phi))
    (h : sc.lowerInsts saves edges b (phis ++ rest) s = .ok (code, s')) :
    sc.lowerInsts saves edges b rest s = .ok (code, s') := by
  induction phis generalizing code s with
  | nil => exact h
  | cons v phis ih =>
    obtain ⟨hv, hphis⟩ := List.forall_mem_cons.1 hphis
    obtain ⟨here, later, s₁, hhere, hlater, rfl⟩ := lowerInsts_cons h
    obtain ⟨rfl, rfl⟩ := lowerInst_phi hv hhere
    exact ih hphis hlater

end Scope

end SsaCodegen
