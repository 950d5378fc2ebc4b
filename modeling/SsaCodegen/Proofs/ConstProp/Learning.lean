import Mathlib.Logic.Relation
import SsaCodegen.ConstProp.Solver

/-!
# What constant propagation changes

A run of the solver marks blocks reachable and lowers lattice values, and does nothing else. What a
module is apart from these two is its *skeleton*: the same module with every flag off and every
lattice value at `top`. Everything that only looks at the skeleton, such as the instructions of a
block or the users of a value, is the same before, during and after a run.

## Main definitions

* `Module.Learn` — one mark or one lattice value
* `Module.skeleton` — a module without them

## Main results

* `Module.solve_learns` — what the solver does is a sequence of these
* `Module.Learns.skeleton_eq` — and none of them touches the skeleton
-/

namespace SsaCodegen

namespace Module

/-- One step of constant propagation: a flag of a block, or a lattice value that comes down. -/
inductive Learn : Module → Module → Prop
  | reach {m m' : Module} {b : BlockId} {r : Bool} (h : m.setReachable b r = .ok m') : Learn m m'
  | value {m m' : Module} {inst : ValueId} {changed : Bool}
      (h : m.propagate inst = .ok (changed, m')) : Learn m m'

/-- Any number of steps of constant propagation. -/
abbrev Learns : Module → Module → Prop := Relation.ReflTransGen Learn

end Module

namespace Solver

open SsaCodegen.Module

theorem refresh_learns {s s' : Solver} {inst : ValueId} (h : s.refresh inst = .ok s') :
    Learns s.module s'.module := by
  obtain ⟨m, ⟨hp, rfl⟩ | ⟨us, hp, -, rfl⟩⟩ := refresh_cases h
  · exact .single (.value hp)
  · exact .single (.value hp)

theorem visitInst_learns {s s' : Solver} {inst : ValueId} (h : s.visitInst inst = .ok s') :
    Learns s.module s'.module := by
  obtain ⟨s₁, h₁, hcases⟩ := visitInst_cases h
  have hlearns := refresh_learns h₁
  obtain rfl | ⟨labels, blocks, -, -, -, rfl⟩ := hcases
  · exact hlearns
  · exact hlearns

theorem visitAll_learns {s s' : Solver} {insts : List ValueId} (h : s.visitAll insts = .ok s') :
    Learns s.module s'.module := by
  induction insts generalizing s with
  | nil =>
    cases h
    exact .refl
  | cons inst rest ih =>
    obtain ⟨s₁, h₁, h⟩ := bind_eq_ok.1 h
    exact (visitInst_learns h₁).trans (ih h)

theorem refreshAll_learns {s s' : Solver} {insts : List ValueId}
    (h : s.refreshAll insts = .ok s') : Learns s.module s'.module := by
  induction insts generalizing s with
  | nil =>
    cases h
    exact .refl
  | cons inst rest ih =>
    obtain ⟨s₁, h₁, h⟩ := bind_eq_ok.1 h
    exact (refresh_learns h₁).trans (ih h)

theorem visitPhis_learns {s s' : Solver} {bs : List BlockId} (h : s.visitPhis bs = .ok s') :
    Learns s.module s'.module := by
  induction bs generalizing s with
  | nil =>
    cases h
    exact .refl
  | cons b rest ih =>
    obtain h | ⟨x, phis, s₁, -, -, -, h₁, h⟩ := visitPhis_cases h
    · exact ih h
    · exact (refreshAll_learns h₁).trans (ih h)

theorem visitBlock_learns {s s' : Solver} {b : BlockId} (h : s.visitBlock b = .ok s') :
    Learns s.module s'.module := by
  obtain ⟨x, -, rfl | ⟨m, insts, s₁, succs, -, hm, -, h₁, -, h⟩⟩ := visitBlock_cases h
  · exact .refl
  · exact .trans (.single (.reach hm)) ((visitAll_learns h₁).trans (visitPhis_learns h))

theorem revisit_learns {s s' : Solver} {inst : ValueId} (h : s.revisit inst = .ok s') :
    Learns s.module s'.module := by
  obtain rfl | ⟨x, b, y, -, -, -, -, h⟩ := revisit_cases h
  · exact .refl
  · exact visitInst_learns h

theorem step_learns {s s' : Solver} (h : s.step = .ok (some s')) :
    Learns s.module s'.module := by
  obtain ⟨m, rest, values, ⟨b, rfl, h₁⟩ | ⟨v, rfl, h₁⟩⟩ := step_cases h
  · exact visitBlock_learns (s := ⟨m, rest, values⟩) h₁
  · exact revisit_learns (s := ⟨m, [], values⟩) h₁

/-- What every step keeps, a run keeps: if `P` holds of a state and is kept by every step, it
holds of a last state, which has no work left. -/
theorem run_keeps {P : Solver → Prop} (hstep : ∀ {s s' : Solver}, P s → s.step = .ok (some s') → P s')
    {s : Solver} {n : Nat} {m : Module} (hs : P s) (h : s.run = .ok (n, m)) :
    P ⟨m, [], []⟩ := by
  fun_induction run s generalizing n m with
  | case1 s f _ => cases h
  | case2 s heq =>
    cases h
    obtain ⟨m, blocks, values⟩ := s
    cases blocks with
    | cons b rest =>
      obtain ⟨s₁, -, h⟩ := bind_eq_ok.1 heq
      cases h
    | nil =>
      cases values with
      | cons v rest =>
        obtain ⟨s₁, -, h⟩ := bind_eq_ok.1 heq
        cases h
      | nil => exact hs
  | case3 s s' heq ih =>
    obtain ⟨⟨n', m'⟩, h', h⟩ := bind_eq_ok.1 h
    cases h
    exact ih (hstep hs heq) h'

theorem run_learns {s : Solver} {n : Nat} {m : Module} (h : s.run = .ok (n, m)) :
    Learns s.module m :=
  run_keeps (P := fun t => Learns s.module t.module) (fun hs hstep => hs.trans (step_learns hstep))
    .refl h

end Solver

namespace Module

theorem resetReachability_learns {m m' : Module} {f : FuncId}
    (h : m.resetReachability f = .ok m') : Learns m m' := by
  obtain ⟨x, -, hx⟩ := bind_eq_ok.1 h
  clear h
  generalize x.blocks = bs at hx
  induction bs generalizing m with
  | nil =>
    cases hx
    exact .refl
  | cons b rest ih =>
    rw [List.foldlM_cons] at hx
    obtain ⟨m₁, h₁, hx⟩ := bind_eq_ok.1 hx
    exact .trans (.single (.reach h₁)) (ih hx)

theorem solve_learns {m m' : Module} {f : FuncId} {n : Nat} (h : m.solve f = .ok (n, m')) :
    Learns m m' := by
  obtain ⟨m₁, h₁, h⟩ := bind_eq_ok.1 h
  obtain ⟨x, -, h⟩ := bind_eq_ok.1 h
  have hr := resetReachability_learns h₁
  split at h
  · cases h
    exact hr
  · exact hr.trans (Solver.run_learns h)

/-! ## The skeleton -/

/-- A module without marks on its blocks and with nothing known of its values. -/
def skeleton (m : Module) : Module :=
  { m with
    values := m.values.map fun x => { x with known := .top }
    blocks := m.blocks.map fun b => { b with reachable := false } }

theorem skeleton_values (m : Module) (i : Nat) :
    m.skeleton.values[i]? = m.values[i]?.map fun x => { x with known := .top } := by
  simp [skeleton]

theorem skeleton_blocks (m : Module) (i : Nat) :
    m.skeleton.blocks[i]? = m.blocks[i]?.map fun b => { b with reachable := false } := by
  simp [skeleton]

theorem skeleton_setValue {m : Module} {v : ValueId} {x : Value} (hx : m.values[v.idx]? = some x)
    (k : Constness) : (m.setValue v { x with known := k }).skeleton = m.skeleton := by
  have hvals : (m.setValue v { x with known := k }).skeleton.values = m.skeleton.values := by
    refine Array.ext_getElem? fun i => ?_
    rw [skeleton_values, skeleton_values, setValue, Array.getElem?_setIfInBounds]
    by_cases hi : v.idx = i
    · subst hi
      rw [if_pos rfl, if_pos (Array.getElem?_eq_some_iff.1 hx).1, hx]
      rfl
    · rw [if_neg hi]
  calc (m.setValue v { x with known := k }).skeleton
      = { m.skeleton with values := (m.setValue v { x with known := k }).skeleton.values } := rfl
    _ = m.skeleton := by rw [hvals]

theorem skeleton_setBlock {m : Module} {b : BlockId} {x : Block} (hx : m.blocks[b.idx]? = some x)
    (r : Bool) : (m.setBlock b { x with reachable := r }).skeleton = m.skeleton := by
  have hblocks : (m.setBlock b { x with reachable := r }).skeleton.blocks = m.skeleton.blocks := by
    refine Array.ext_getElem? fun i => ?_
    rw [skeleton_blocks, skeleton_blocks, setBlock, Array.getElem?_setIfInBounds]
    by_cases hi : b.idx = i
    · subst hi
      rw [if_pos rfl, if_pos (Array.getElem?_eq_some_iff.1 hx).1, hx]
      rfl
    · rw [if_neg hi]
  calc (m.setBlock b { x with reachable := r }).skeleton
      = { m.skeleton with blocks := (m.setBlock b { x with reachable := r }).skeleton.blocks } := rfl
    _ = m.skeleton := by rw [hblocks]

theorem Learn.skeleton_eq {m m' : Module} (h : Learn m m') : m'.skeleton = m.skeleton := by
  cases h with
  | reach h =>
    obtain ⟨x, hx, h⟩ := bind_eq_ok.1 h
    cases h
    exact skeleton_setBlock (lookupOr_eq_ok.1 hx) _
  | value h =>
    obtain ⟨x, t, hx, -, ⟨-, -, rfl⟩ | ⟨-, -, rfl⟩⟩ := propagate_cases h
    · rfl
    · exact skeleton_setValue hx _

theorem Learns.skeleton_eq {m m' : Module} (h : Learns m m') : m'.skeleton = m.skeleton := by
  induction h with
  | refl => rfl
  | tail _ hstep ih => rw [hstep.skeleton_eq, ih]

end Module

end SsaCodegen
