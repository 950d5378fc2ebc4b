import SsaCodegen.Proofs.ConstProp.Worklist

/-!
# Constant propagation is right about 64-bit runs

The reference dialect computes with 64-bit words, the numbers that constant propagation computes
with. Everything that the program text does not determine is arbitrary, and may be different each
time: what a load, a call, an `alloca` or an address computation gives, and a division by zero.

## Main definitions

* `Dialect.reference` — the 64-bit dialect
* `Module.PhisListPreds` — phis list only predecessors of their block

## Main results

* `Module.solve_sound` — whatever a module was built with, the solver ends, and what it says is
  right about every run
-/

namespace SsaCodegen

/-- The 64-bit dialect. `input` gives the values from outside, and `choice` what an instruction
gives on the `n`-th visit if the program text does not say. -/
def Dialect.reference (m : Module) (input : ValueId → Int64) (choice : Nat → ValueId → Int64) :
    Dialect Int64 Nat where
  lit n := n
  leaf v := some (input v)
  test w := w ≠ 0
  exec v args n :=
    match m.kindOf v, args with
    | some (.inst (.binary op)), [a, b] => (some ((op.eval a b).getD (choice n v)), n)
    | some (.inst (.compare op)), [a, b] => (some (if op.eval a b then 1 else 0), n)
    | some (.inst .sext), [a] | some (.inst .cast), [a] => (some a, n)
    | some (.inst .store), _ => (none, n)
    | _, _ => (some (choice n v), n)
  enter n := n + 1

namespace Module

variable {m m' : Module} {lists : BlockId → List ValueId} {f : FuncId}

/-- The phis of a function list no other blocks than predecessors of their own. -/
def PhisListPreds (m : Module) (f : FuncId) : Prop :=
  ∀ b ∈ m.blocksOf f, ∀ v ∈ m.instsOf b, m.isPhi v = true → ∀ i ∈ m.incoming v, b ∈ m.succsOf i.2

instance (m : Module) (f : FuncId) : Decidable (m.PhisListPreds f) :=
  inferInstanceAs (Decidable (∀ b ∈ m.blocksOf f, ∀ v ∈ m.instsOf b, m.isPhi v = true →
    ∀ i ∈ m.incoming v, b ∈ m.succsOf i.2))

theorem WellFormed.predsListed (h : WellFormed m lists) (hp : m.PhisListPreds f) :
    m.PredsListed lists f := by
  intro b v i hb hv hphi hi term hterm
  have hsucc := hp b (h.owned.mem_blocksOf.2 hb) v (by rw [h.instsOf_eq hb]; exact hv) hphi i hi
  obtain ⟨g, hg⟩ := h.exists_funcOf_of_mem (List.mem_of_getLast? hterm)
  obtain ⟨phis, body, term', hlist, -⟩ := h.laid hg
  have hterm' : term' = term := by simpa [hlist] using hterm
  rw [succsOf, h.successors hg hlist, hterm'] at hsucc
  exact List.mem_eraseDups.1 hsucc

end Module

namespace Dialect

open SsaCodegen.Module

variable {m m' : Module} {input : ValueId → Int64} {choice : Nat → ValueId → Int64}

theorem reference_of_skeleton (h : m'.skeleton = m.skeleton) :
    reference m' input choice = reference m input choice := by
  simp only [reference, kindOf_of_skeleton h]

/-- The transfer function is right about the 64-bit dialect. -/
theorem reference_respects {lists : BlockId → List ValueId} {f : FuncId}
    (hm : WellFormed m lists) (input : ValueId → Int64) (choice : Nat → ValueId → Int64) :
    (reference m input choice).Respects m lists f := by
  refine .of_operators hm (fun x world hk hcopy => ?_) (fun world _ hk _ _ _ hc => ?_)
    (fun world _ hk _ _ _ => ?_) fun _ _ _ _ => rfl
  · rcases hcopy with rfl | rfl <;> simp only [reference, hk]
  · simp only [reference, hk, hc, Option.getD_some]
  · simp only [reference, hk]

end Dialect

namespace Module

/-- Constant propagation over a function of a module that was built and accepted, whatever was
known before, ends; and afterwards every block that a run enters is marked, nothing that is
evaluated is still at the top of the lattice, and what is known to be a constant has that value
whenever it is evaluated. -/
theorem solve_sound {m : Module} {f : FuncId} (hbuilt : m.Built) (hverify : m.verify = .ok none)
    (hf : f.idx < m.funcs.size) (hphis : m.PhisListPreds f) :
    ∃ n m', m.solve f = .ok (n, m') ∧
      ∀ input choice steps, ∀ V ∈ (Dialect.reference m input choice).runFunc m f 0 steps,
        (∃ x, m'.block V.block = .ok x ∧ x.reachable = true) ∧
        ∀ e ∈ V.events, ∃ k, m'.known e.inst = .ok k ∧ k ≠ .top ∧
          ∀ c, k = .const c → e.result = some c := by
  obtain ⟨lists, hm⟩ := hbuilt.wellFormed hverify
  obtain ⟨n, m', hsolve, hlearns, hsolved⟩ :=
    hm.solve (hm.predsListed hphis) (Array.getElem?_eq_getElem hf)
  refine ⟨n, m', hsolve, fun input choice steps V hV => ?_⟩
  have hm' := hm.learns hlearns
  have hskel := hlearns.skeleton_eq
  rw [← Dialect.reference_of_skeleton hskel, ← Dialect.runFunc_of_skeleton hskel] at hV
  obtain ⟨hreached, hright⟩ := Dialect.Respects.runFunc_right hm' hsolved
    (Dialect.reference_respects hm' input choice) 0 steps V hV
  refine ⟨?_, fun e he => ?_⟩
  · have hlt : V.block.idx < m'.blocks.size := by
      refine Nat.lt_of_not_le fun hle => ?_
      rw [reachedOf, blockField, Array.getElem?_eq_none hle] at hreached
      cases hreached
    obtain ⟨x, hx, hr, -⟩ := block_eq hlt
    exact ⟨x, hx, hr ▸ hreached⟩
  · have hadm : (m'.knownOf e.inst).Admits id e.result := hright e he
    have hlt : e.inst.idx < m'.values.size := by
      refine lt_of_valueField_ne (a := m'.knownOf e.inst) rfl fun htop => ?_
      rw [htop] at hadm
      exact hadm
    refine ⟨_, known_eq hlt, fun htop => ?_, fun c hc => ?_⟩
    · rw [htop] at hadm
      exact hadm
    · rw [hc] at hadm
      exact hadm

/-- Calls that build a function with a loop. Around the loop the phi meets `2 + 3` with itself
and with a conjunction of the two, so only an optimistic analysis finds it constant. -/
def loopActions : List Action := [
  .addFunction "f" .i32 [("n", .i32)],
  .addBlock ⟨0⟩ "entry", .addBlock ⟨0⟩ "loop", .addBlock ⟨0⟩ "body", .addBlock ⟨0⟩ "exit",
  .build ⟨0⟩ (.i32 2), .build ⟨0⟩ (.i32 3),
  .build ⟨0⟩ (.binary .add ⟨5⟩ ⟨6⟩), .build ⟨0⟩ (.br ⟨1⟩),
  .build ⟨1⟩ (.phi .i32), .build ⟨1⟩ (.compare .slt ⟨9⟩ ⟨0⟩), .build ⟨1⟩ (.condBr ⟨10⟩ ⟨2⟩ ⟨3⟩),
  .build ⟨2⟩ (.binary .and ⟨9⟩ ⟨7⟩), .build ⟨2⟩ (.br ⟨1⟩),
  .build ⟨3⟩ (.ret (some ⟨9⟩)),
  .build ⟨1⟩ (.addIncoming ⟨9⟩ ⟨7⟩ ⟨0⟩), .build ⟨1⟩ (.addIncoming ⟨9⟩ ⟨12⟩ ⟨2⟩)]

/-- The module that `loopActions` build. -/
def loopModule : Module := (loopActions.foldlM Action.run {}).toOption.getD {}

/-- The loop is analysed, and its runs are as the analysis says. -/
theorem solve_sound_loop :
    ∃ n m', loopModule.solve ⟨0⟩ = .ok (n, m') ∧
      ∀ input choice steps,
        ∀ V ∈ (Dialect.reference loopModule input choice).runFunc loopModule ⟨0⟩ 0 steps,
        (∃ x, m'.block V.block = .ok x ∧ x.reachable = true) ∧
        ∀ e ∈ V.events, ∃ k, m'.known e.inst = .ok k ∧ k ≠ .top ∧
          ∀ c, k = .const c → e.result = some c :=
  solve_sound ⟨loopActions, rfl⟩ (by decide +kernel) (by decide +kernel) (by decide +kernel)

/-- The analysis sees through the loop: the phi is the constant five. -/
example : (loopModule.solve ⟨0⟩).toOption.map (fun r => r.2.knownOf ⟨9⟩) = some (.const 5) := by
  decide +kernel

end Module

end SsaCodegen
