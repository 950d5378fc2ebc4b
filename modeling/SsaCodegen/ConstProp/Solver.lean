import SsaCodegen.ConstProp.Potential
import SsaCodegen.Module.Chain

/-!
# Sparse conditional constant propagation

The solver keeps two stacks of work: blocks that control has been found to reach, and instructions
an operand of which has come down. A block is entered once; entering it visits its instructions
and the phis of successors that were entered before, since these gain an incoming edge. Visiting an
instruction propagates to it, puts its users on the stack if that changed anything, and, for a
branch, puts the blocks it can go to on the stack.

Every step takes an item off a stack, and what it puts there is paid for by the potential of the
module, so `Solver.work` bounds the steps of a run.

## Main definitions

* `Solver.step` — one item of work
* `Solver.work` — a bound on the steps that are left
* `Solver.run` — all of the work, with the number of steps
* `Module.solve` — propagation over a function from its entry
-/

namespace SsaCodegen

/-- Propagation under way: the module and the two stacks of work, the top first. -/
structure Solver where
  module : Module
  blocks : List BlockId
  values : List ValueId

namespace Solver

/-- The operands of a branch that name the blocks it can go to, by what is known of its
condition. -/
def branchTargets (m : Module) (br : ValueId) : Except Fault (List ValueId) := do
  match ← m.operands br with
  | [dest] => return [dest]
  | [cond, thenLabel, elseLabel] =>
    match ← m.known cond with
    | .top => return []
    | .const n => return if n ≠ 0 then [thenLabel] else [elseLabel]
    | .varying => return [thenLabel, elseLabel]
  | _ => throw (.malformedBranch br)

/-- Put the blocks that labels name on the stack, unless they have been entered. -/
def pushBlocks (m : Module) (blocks : List BlockId) : List ValueId → Except Fault (List BlockId)
  | [] => return blocks
  | label :: rest => do
    match (← m.kind label).asBlock with
    | none => throw (.targetNotBlock label)
    | some b =>
      if (← m.block b).reachable then pushBlocks m blocks rest
      else pushBlocks m (b :: blocks) rest

/-- Propagate to an instruction and put its users on the stack if it came down. -/
def refresh (s : Solver) (inst : ValueId) : Except Fault Solver := do
  match ← s.module.propagate inst with
  | (false, m) => return { s with module := m }
  | (true, m) => return { s with module := m, values := (← m.users inst).reverse ++ s.values }

/-- Propagate to an instruction, and from a branch to the blocks it can go to. -/
def visitInst (s : Solver) (inst : ValueId) : Except Fault Solver := do
  let s ← s.refresh inst
  if (← s.module.instKind inst) = some .br then
    return { s with blocks := ← pushBlocks s.module s.blocks (← branchTargets s.module inst) }
  else return s

/-- Visit instructions in turn. -/
def visitAll (s : Solver) : List ValueId → Except Fault Solver
  | [] => return s
  | inst :: rest => do (← s.visitInst inst).visitAll rest

/-- Propagate to instructions in turn. -/
def refreshAll (s : Solver) : List ValueId → Except Fault Solver
  | [] => return s
  | inst :: rest => do (← s.refresh inst).refreshAll rest

/-- Visit the phis of those blocks in a list that have been entered. -/
def visitPhis (s : Solver) : List BlockId → Except Fault Solver
  | [] => return s
  | b :: rest => do
    if (← s.module.block b).reachable then
      (← s.refreshAll (← s.module.instsWhile b (· = .phi))).visitPhis rest
    else s.visitPhis rest

/-- Enter a block, unless it has been entered before. -/
def visitBlock (s : Solver) (b : BlockId) : Except Fault Solver := do
  if (← s.module.block b).reachable then return s
  else
    let s := { s with module := ← s.module.setReachable b true }
    let s ← s.visitAll (← s.module.insts b)
    s.visitPhis (← s.module.successors b)

/-- Visit an instruction that stands in a block that has been entered. -/
def revisit (s : Solver) (inst : ValueId) : Except Fault Solver := do
  match (← s.module.value inst).link.block with
  | none => return s
  | some b => if (← s.module.block b).reachable then s.visitInst inst else return s

/-- Do one item of work, blocks first. Without work there is nothing to do. -/
def step (s : Solver) : Except Fault (Option Solver) :=
  match s.blocks, s.values with
  | b :: rest, _ => do return some (← { s with blocks := rest }.visitBlock b)
  | [], v :: rest => do return some (← { s with values := rest }.revisit v)
  | [], [] => return none

/-! ## What each part can do -/

section Parts

variable {s s' : Solver} {inst : ValueId} {b : BlockId}

theorem refresh_cases (h : s.refresh inst = .ok s') :
    ∃ m, s.module.propagate inst = .ok (false, m) ∧ s' = { s with module := m } ∨
      ∃ us, s.module.propagate inst = .ok (true, m) ∧ m.users inst = .ok us ∧
        s' = { s with module := m, values := us.reverse ++ s.values } := by
  obtain ⟨⟨changed, m⟩, hp, h⟩ := bind_eq_ok.1 h
  cases changed with
  | false => exact ⟨m, .inl ⟨hp, (Except.ok.inj h).symm⟩⟩
  | true =>
    obtain ⟨us, hus, h⟩ := bind_eq_ok.1 h
    exact ⟨m, .inr ⟨us, hp, hus, (Except.ok.inj h).symm⟩⟩

theorem visitInst_cases (h : s.visitInst inst = .ok s') :
    ∃ s₁, s.refresh inst = .ok s₁ ∧ (s' = s₁ ∨
      ∃ labels blocks, s₁.module.instKind inst = .ok (some .br) ∧
        branchTargets s₁.module inst = .ok labels ∧
        pushBlocks s₁.module s₁.blocks labels = .ok blocks ∧ s' = { s₁ with blocks }) := by
  obtain ⟨s₁, h₁, h⟩ := bind_eq_ok.1 h
  obtain ⟨k, hk, h⟩ := bind_eq_ok.1 h
  refine ⟨s₁, h₁, ?_⟩
  split at h
  · rename_i hbr
    obtain ⟨labels, hlabels, h⟩ := bind_eq_ok.1 h
    obtain ⟨blocks, hblocks, h⟩ := bind_eq_ok.1 h
    exact .inr ⟨labels, blocks, hbr ▸ hk, hlabels, hblocks, (Except.ok.inj h).symm⟩
  · exact .inl (Except.ok.inj h).symm

theorem visitPhis_cases {rest : List BlockId} (h : s.visitPhis (b :: rest) = .ok s') :
    s.visitPhis rest = .ok s' ∨ ∃ x phis s₁, s.module.block b = .ok x ∧ x.reachable = true ∧
      s.module.instsWhile b (· = .phi) = .ok phis ∧ s.refreshAll phis = .ok s₁ ∧
      s₁.visitPhis rest = .ok s' := by
  obtain ⟨x, hx, h⟩ := bind_eq_ok.1 h
  split at h
  · rename_i hreached
    obtain ⟨phis, hphis, h⟩ := bind_eq_ok.1 h
    obtain ⟨s₁, h₁, h⟩ := bind_eq_ok.1 h
    exact .inr ⟨x, phis, s₁, hx, hreached, hphis, h₁, h⟩
  · exact .inl h

theorem visitBlock_cases (h : s.visitBlock b = .ok s') :
    ∃ x, s.module.block b = .ok x ∧ (s' = s ∨
      ∃ m insts s₁ succs, x.reachable = false ∧ s.module.setReachable b true = .ok m ∧
        m.insts b = .ok insts ∧ visitAll { s with module := m } insts = .ok s₁ ∧
        s₁.module.successors b = .ok succs ∧ s₁.visitPhis succs = .ok s') := by
  obtain ⟨x, hx, h⟩ := bind_eq_ok.1 h
  refine ⟨x, hx, ?_⟩
  split at h
  · exact .inl (Except.ok.inj h).symm
  · rename_i hnew
    obtain ⟨m, hm, h⟩ := bind_eq_ok.1 h
    obtain ⟨insts, hinsts, h⟩ := bind_eq_ok.1 h
    obtain ⟨s₁, h₁, h⟩ := bind_eq_ok.1 h
    obtain ⟨succs, hsuccs, h⟩ := bind_eq_ok.1 h
    exact .inr ⟨m, insts, s₁, succs, Bool.eq_false_iff.2 hnew, hm, hinsts, h₁, hsuccs, h⟩

theorem revisit_cases (h : s.revisit inst = .ok s') :
    s' = s ∨ ∃ x b y, s.module.value inst = .ok x ∧ x.link.block = some b ∧
      s.module.block b = .ok y ∧ y.reachable = true ∧ s.visitInst inst = .ok s' := by
  obtain ⟨x, hx, h⟩ := bind_eq_ok.1 h
  split at h
  · exact .inl (Except.ok.inj h).symm
  · rename_i b hb
    obtain ⟨y, hy, h⟩ := bind_eq_ok.1 h
    split at h
    · rename_i hreached
      exact .inr ⟨x, b, y, hx, hb, hy, hreached, h⟩
    · exact .inl (Except.ok.inj h).symm

theorem step_cases (h : s.step = .ok (some s')) :
    ∃ m rest values, (∃ b, s = ⟨m, b :: rest, values⟩ ∧ visitBlock ⟨m, rest, values⟩ b = .ok s') ∨
      ∃ v, s = ⟨m, [], v :: values⟩ ∧ revisit ⟨m, [], values⟩ v = .ok s' := by
  obtain ⟨m, blocks, values⟩ := s
  cases blocks with
  | cons b rest =>
    obtain ⟨s₁, h₁, h⟩ := bind_eq_ok.1 h
    cases h
    exact ⟨m, rest, values, .inl ⟨b, rfl, h₁⟩⟩
  | nil =>
    cases values with
    | nil => cases h
    | cons v rest =>
      obtain ⟨s₁, h₁, h⟩ := bind_eq_ok.1 h
      cases h
      exact ⟨m, [], rest, .inr ⟨v, rfl, h₁⟩⟩

end Parts

/-! ## Why it ends -/

/-- A bound on the steps that are left. A change puts at most all users on the stack, and entering
a block visits at most all values, each of which puts at most two blocks on the stack. -/
def work (s : Solver) : Nat :=
  3 * (s.module.useCount * s.module.potential + s.values.length) +
    2 * (s.module.values.size * s.module.potential) + s.module.potential + s.blocks.length

/-- What visits to `n` instructions may do: instructions on the stack are paid for by the potential,
and each visit puts at most two blocks on the stack. -/
structure Spends (n : Nat) (s s' : Solver) : Prop where
  size_eq : s'.module.values.size = s.module.values.size
  useCount_eq : s'.module.useCount = s.module.useCount
  potential_le : s'.module.potential ≤ s.module.potential
  values_le : s.module.useCount * s'.module.potential + s'.values.length ≤
    s.module.useCount * s.module.potential + s.values.length
  blocks_le : s'.blocks.length ≤ s.blocks.length + 2 * n

theorem Spends.refl (s : Solver) : Spends 0 s s := ⟨rfl, rfl, Nat.le_refl _, Nat.le_refl _, by simp⟩

theorem Spends.trans {a b c : Solver} {n k : Nat} (h : Spends n a b) (h' : Spends k b c) :
    Spends (n + k) a c where
  size_eq := h'.size_eq.trans h.size_eq
  useCount_eq := h'.useCount_eq.trans h.useCount_eq
  potential_le := Nat.le_trans h'.potential_le h.potential_le
  values_le := Nat.le_trans (h.useCount_eq ▸ h'.values_le) h.values_le
  blocks_le := by
    have := h.blocks_le
    have := h'.blocks_le
    omega

theorem Spends.mono {s s' : Solver} {n k : Nat} (h : Spends n s s') (hnk : n ≤ k) :
    Spends k s s' :=
  { h with blocks_le := Nat.le_trans h.blocks_le (by omega) }

theorem refresh_spends {s s' : Solver} {inst : ValueId} (h : s.refresh inst = .ok s') :
    Spends 0 s s' := by
  obtain ⟨m, ⟨hp, rfl⟩ | ⟨us, hp, hus, rfl⟩⟩ := refresh_cases h
  · have hle := Module.potential_propagate hp
    have hc := Module.counts_propagate hp
    have hmul := Nat.mul_le_mul_left s.module.useCount hle.1
    exact ⟨hc.1, hc.2, hle.1, Nat.add_le_add_right hmul _, by simp⟩
  · have hle := Module.potential_propagate hp
    have hc := Module.counts_propagate hp
    have hlen := Module.length_users_le hus
    have hpay := Nat.mul_le_mul_left s.module.useCount (hle.2 rfl)
    refine ⟨hc.1, hc.2, hle.1, ?_, by simp⟩
    simp only [Nat.mul_succ, List.length_append, List.length_reverse] at *
    omega

theorem length_branchTargets_le {m : Module} {br : ValueId} {ts : List ValueId}
    (h : branchTargets m br = .ok ts) : ts.length ≤ 2 := by
  obtain ⟨ops, -, h⟩ := bind_eq_ok.1 h
  split at h
  · cases h
    simp
  · obtain ⟨known, -, h⟩ := bind_eq_ok.1 h
    cases known with
    | top =>
      cases h
      simp
    | const n =>
      cases h
      split <;> simp
    | varying =>
      cases h
      simp
  · cases h

theorem length_pushBlocks_le {m : Module} {blocks bs : List BlockId} {labels : List ValueId}
    (h : pushBlocks m blocks labels = .ok bs) : bs.length ≤ blocks.length + labels.length := by
  induction labels generalizing blocks with
  | nil =>
    cases h
    simp
  | cons label rest ih =>
    obtain ⟨k, -, h⟩ := bind_eq_ok.1 h
    split at h
    · cases h
    · obtain ⟨x, -, h⟩ := bind_eq_ok.1 h
      split at h
      · exact Nat.le_trans (ih h) (by simp)
      · exact Nat.le_trans (ih h) (by simp; omega)

theorem visitInst_spends {s s' : Solver} {inst : ValueId} (h : s.visitInst inst = .ok s') :
    Spends 1 s s' := by
  obtain ⟨s₁, h₁, rfl | ⟨labels, blocks, -, hlabels, hblocks, rfl⟩⟩ := visitInst_cases h
  · exact (refresh_spends h₁).mono (by decide)
  · have hs := refresh_spends h₁
    refine { hs with blocks_le := ?_ }
    have := length_branchTargets_le hlabels
    have := length_pushBlocks_le hblocks
    have := hs.blocks_le
    dsimp only
    omega

theorem visitAll_spends {s s' : Solver} {insts : List ValueId} (h : s.visitAll insts = .ok s') :
    Spends insts.length s s' := by
  induction insts generalizing s with
  | nil =>
    cases h
    exact .refl _
  | cons inst rest ih =>
    obtain ⟨s₁, h₁, h⟩ := bind_eq_ok.1 h
    exact ((visitInst_spends h₁).trans (ih h)).mono (by simp; omega)

theorem refreshAll_spends {s s' : Solver} {insts : List ValueId}
    (h : s.refreshAll insts = .ok s') : Spends 0 s s' := by
  induction insts generalizing s with
  | nil =>
    cases h
    exact .refl _
  | cons inst rest ih =>
    obtain ⟨s₁, h₁, h⟩ := bind_eq_ok.1 h
    exact (refresh_spends h₁).trans (ih h)

theorem visitPhis_spends {s s' : Solver} {bs : List BlockId} (h : s.visitPhis bs = .ok s') :
    Spends 0 s s' := by
  induction bs generalizing s with
  | nil =>
    cases h
    exact .refl _
  | cons b rest ih =>
    obtain h | ⟨x, phis, s₁, -, -, -, h₁, h⟩ := visitPhis_cases h
    · exact ih h
    · exact (refreshAll_spends h₁).trans (ih h)

/-- A block that was entered before changes nothing, and entering one for the first time leaves
less work than even one more block on the stack. -/
theorem visitBlock_work {s s' : Solver} {b : BlockId} (h : s.visitBlock b = .ok s') :
    s'.work ≤ s.work := by
  obtain ⟨x, hx, rfl | ⟨m, insts, s₁, succs, hnew, hm, hi, h₁, -, h⟩⟩ := visitBlock_cases h
  · exact Nat.le_refl _
  · obtain ⟨hlt, hv⟩ := Module.potential_reach (lookupOr_eq_ok.1 hx) hnew hm
    have hs := ((visitAll_spends h₁).trans (visitPhis_spends h)).mono
      (Module.length_insts_le hi)
    obtain ⟨hsize, huse, hpot, hval, hblk⟩ := hs
    have hu : m.useCount = s.module.useCount := by simp only [Module.useCount, hv]
    have hz : m.values.size = s.module.values.size := by rw [hv]
    simp only [hu, hz] at hsize huse hval hblk
    have h₂ := Nat.mul_le_mul_left s.module.values.size hpot
    have h₃ := Nat.mul_le_mul_left s.module.values.size hlt
    have h₄ := Nat.mul_le_mul_left s.module.useCount hlt
    simp only [work, hsize, huse, Nat.mul_succ] at *
    omega

theorem revisit_spends {s s' : Solver} {inst : ValueId} (h : s.revisit inst = .ok s') :
    Spends 1 s s' := by
  obtain rfl | ⟨x, b, y, -, -, -, -, h⟩ := revisit_cases h
  · exact (Spends.refl _).mono (by decide)
  · exact visitInst_spends h

/-- Every step leaves less work. -/
theorem step_work {s s' : Solver} (h : s.step = .ok (some s')) : s'.work < s.work := by
  obtain ⟨m, rest, values, ⟨b, rfl, h₁⟩ | ⟨v, rfl, h₁⟩⟩ := step_cases h
  · exact Nat.lt_of_le_of_lt (visitBlock_work h₁) (by simp [work])
  · obtain ⟨hsize, huse, hpot, hval, hblk⟩ := revisit_spends h₁
    have := Nat.mul_le_mul_left m.values.size hpot
    simp only [work, hsize, huse, List.length_cons, List.length_nil] at *
    omega

/-- All the work, with the number of steps. Finding no work counts as a step. -/
def run (s : Solver) : Except Fault (Nat × Module) :=
  match _h : s.step with
  | .error f => .error f
  | .ok none => .ok (1, s.module)
  | .ok (some s') => do
    let (n, m) ← run s'
    return (n + 1, m)
termination_by s.work
decreasing_by exact step_work _h

end Solver

/-- Propagate constants over a function from its entry, and count the steps. -/
def Module.solve (m : Module) (f : FuncId) : Except Fault (Nat × Module) := do
  let m ← m.resetReachability f
  match (← m.func f).entry with
  | none => return (0, m)
  | some entry => Solver.run ⟨m, [entry], []⟩

end SsaCodegen
