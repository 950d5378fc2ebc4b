import SsaCodegen.Proofs.ConstProp.Soundness

/-!
# The solver finds a solution

Between two steps, an instruction in a marked block is either settled, or it waits on the stack of
values; and a block that a branch in a marked block can go to is marked, or it waits on the stack
of blocks, or the branch itself waits. When both stacks are empty, this is a solution. Entering a
block is the only move that owes something in between: its own instructions have not been looked
at, and phis elsewhere have gained an incoming edge. The phis that list the block stand in
successors of it, which is why they are all visited.

In a well-formed module no step meets a fault, so the solver always ends with a module.

## Main definitions

* `Solver.Done` — nothing is left to do at an instruction that nothing on the stacks stands for
* `Solver.Invariant` — what holds between two steps

## Main results

* `Solver.step_invariant` — a step keeps the invariant and meets no fault
* `Module.WellFormed.solve` — the solver ends with a solution
-/

namespace SsaCodegen

namespace Module

/-- Phis in blocks of a function list no other blocks than predecessors. -/
def PredsListed (m : Module) (lists : BlockId → List ValueId) (f : FuncId) : Prop :=
  ∀ c v i, m.funcOf c = some f → v ∈ lists c → m.isPhi v = true → i ∈ m.incoming v →
    ∀ term, (lists i.2).getLast? = some term → c ∈ m.exitsOf term

theorem PredsListed.of_skeleton {m m' : Module} {lists : BlockId → List ValueId} {f : FuncId}
    (hp : m.PredsListed lists f) (h : m'.skeleton = m.skeleton) : m'.PredsListed lists f := by
  intro c v i
  rw [funcOf_of_skeleton h, isPhi_of_skeleton h, incoming_of_skeleton h, exitsOf_of_skeleton h]
  exact hp c v i

end Module

namespace Solver

open SsaCodegen.Module

variable {lists : BlockId → List ValueId} {f g : FuncId} {s s' s₁ : Solver} {u v : ValueId}
  {b c : BlockId}

/-- Nothing is left to do at an instruction that nothing on the stacks stands for. -/
structure Done (s : Solver) (v : ValueId) : Prop where
  settled : s.module.Settled v ∨ v ∈ s.values
  heads : s.module.kindOf v = some (.inst .br) →
    (∀ c ∈ s.module.headsOf v, s.module.reachedOf c = true ∨ c ∈ s.blocks) ∨ v ∈ s.values

theorem Done.of_mem (h : v ∈ s.values) : Done s v := ⟨.inr h, fun _ => .inr h⟩

/-- What keeps an instruction done: its own part of the module stays, and what waited still waits
or has been dealt with. -/
theorem Done.mono (h : Done s v) (hskel : s'.module.skeleton = s.module.skeleton)
    (hknown : s'.module.knownOf v = s.module.knownOf v)
    (htransfer : s'.module.transferOf v = s.module.transferOf v)
    (hheads : s'.module.headsOf v = s.module.headsOf v)
    (hreached : ∀ c, s.module.reachedOf c = true → s'.module.reachedOf c = true)
    (hvalues : v ∈ s.values → v ∈ s'.values)
    (hblocks : ∀ c ∈ s.blocks, s'.module.reachedOf c = true ∨ c ∈ s'.blocks) : Done s' v := by
  refine ⟨h.settled.imp (fun hs => ?_) hvalues, fun hk => ?_⟩
  · rw [Settled, hknown, htransfer]
    exact hs
  · rw [kindOf_of_skeleton hskel] at hk
    refine (h.heads hk).imp (fun hall c hc => ?_) hvalues
    rw [hheads] at hc
    exact (hall c hc).elim (fun hr => .inl (hreached c hr)) (hblocks c)

/-- The stacks hold blocks and values of the module. -/
structure Sane (s : Solver) : Prop where
  blocks : ∀ c ∈ s.blocks, ∃ g, s.module.funcOf c = some g
  values : ∀ v ∈ s.values, ∃ k, s.module.kindOf v = some k

/-- What visits to instructions do: they learn, and what was done stays done. -/
structure Advance (s s' : Solver) : Prop where
  learns : Learns s.module s'.module
  reached : s'.module.reachedOf = s.module.reachedOf
  blocks : ∀ {c}, c ∈ s.blocks → c ∈ s'.blocks
  done : ∀ {v}, Done s v → Done s' v
  sane : Sane s → Sane s'

theorem Advance.refl (s : Solver) : Advance s s := ⟨.refl, rfl, id, id, id⟩

theorem Advance.trans (h : Advance s s₁) (h' : Advance s₁ s') : Advance s s' :=
  ⟨h.learns.trans h'.learns, h'.reached.trans h.reached, fun hc => h'.blocks (h.blocks hc),
    fun hd => h'.done (h.done hd), fun hs => h'.sane (h.sane hs)⟩

/-! ## Visits to instructions -/

theorem knownOf_setValue {m : Module} {x : Value} (hx : m.values[v.idx]? = some x)
    (k : Constness) : (m.setValue v { x with known := k }).knownOf u =
      if u = v then k else m.knownOf u :=
  valueField_setValue hx _

theorem meet_meet_self (a b : Constness) : (a.meet b).meet b = a.meet b := by
  cases a with
  | top => cases b <;> simp [Constness.meet]
  | varying => cases b <;> rfl
  | const n =>
    cases b with
    | top => rfl
    | varying => rfl
    | const k => by_cases h : n = k <;> simp [Constness.meet, h]

/-- Propagating to an instruction settles it or puts it on the stack, with all others that an
operand tells something new. -/
theorem refresh_advance (hm : WellFormed s.module lists) (hb : s.module.funcOf b = some g)
    (hv : v ∈ lists b) :
    ∃ s', s.refresh v = .ok s' ∧ Advance s s' ∧ (s'.module.Settled v ∨ v ∈ s'.values) := by
  obtain ⟨k, hk⟩ := hm.threads.inst hv
  obtain ⟨x, hx, -⟩ := kindOf_eq_some.1 hk
  have hknown : s.module.knownOf v = x.known := valueField_eq hx
  have hpropagate : s.module.propagate v =
      if x.known.meet (s.module.transferOf v) = x.known then .ok (false, s.module)
      else .ok (true, s.module.setValue v
        { x with known := x.known.meet (s.module.transferOf v) }) := by
    rw [propagate, value_eq_ok.2 hx]
    show (do
      let t ← s.module.transfer v
      if x.known.meet t = x.known then return (false, s.module)
      else return (true, s.module.setValue v { x with known := x.known.meet t })) = _
    rw [hm.transfer hb hv]
    rfl
  by_cases hsame : x.known.meet (s.module.transferOf v) = x.known
  · rw [if_pos hsame] at hpropagate
    refine ⟨s, bind_eq_ok.2 ⟨_, hpropagate, rfl⟩, .refl s, .inl ?_⟩
    rw [Settled, hknown, hsame]
  · rw [if_neg hsame] at hpropagate
    have hlearn := Learn.value hpropagate
    generalize hm' : s.module.setValue v { x with known := x.known.meet (s.module.transferOf v) } = m'
      at hpropagate hlearn
    obtain ⟨us, hus, hmem⟩ := (hm.learns (.single hlearn)).users (v := v)
      (by rw [← hm']; simpa [setValue] using (Array.getElem?_eq_some_iff.1 hx).1)
    have hskel := hlearn.skeleton_eq
    rw [operandsOf_of_skeleton hskel] at hmem
    have hknown' (w : ValueId) : m'.knownOf w =
        if w = v then x.known.meet (s.module.transferOf v) else s.module.knownOf w := by
      rw [← hm']
      exact knownOf_setValue hx _
    have hreached : m'.reachedOf = s.module.reachedOf := by
      rw [← hm']
      rfl
    -- an instruction that does not use `v` is told the same as before
    have hsame' {w : ValueId} (hw : v ∉ s.module.operandsOf w) :
        m'.transferOf w = s.module.transferOf w ∧ m'.headsOf w = s.module.headsOf w := by
      have hops : ∀ o ∈ s.module.operandsOf w, m'.knownOf o = s.module.knownOf o := by
        intro o ho
        rw [hknown', if_neg]
        rintro rfl
        exact hw ho
      exact ⟨transferOf_congr hskel hops fun _ i _ => by rw [hreached], headsOf_congr hskel hops⟩
    have hin {w : ValueId} (hw : v ∈ s.module.operandsOf w) : w ∈ us.reverse ++ s.values := by
      simp [(hmem w).2 hw]
    have hself : m'.Settled v ∨ v ∈ us.reverse ++ s.values := by
      by_cases hw : v ∈ s.module.operandsOf v
      · exact .inr (hin hw)
      · refine .inl ?_
        rw [Settled, hknown', if_pos rfl, (hsame' hw).1]
        exact meet_meet_self _ _
    refine ⟨⟨m', s.blocks, us.reverse ++ s.values⟩, bind_eq_ok.2 ⟨_, hpropagate, ?_⟩, ?_, hself⟩
    · exact bind_eq_ok.2 ⟨us, hus, rfl⟩
    refine ⟨.single hlearn, hreached, id, fun {w} hd => ?_, fun hs => ⟨fun c hc => ?_, fun w hw => ?_⟩⟩
    · by_cases hw : v ∈ s.module.operandsOf w
      · exact .of_mem (hin hw)
      · obtain ⟨htransfer, hheads⟩ := hsame' hw
        by_cases hwv : w = v
        · subst hwv
          refine ⟨hself, fun hk' => (hd.heads ?_).imp (fun hall c hc => ?_) (by simp +contextual)⟩
          · rw [← kindOf_of_skeleton hskel]
            exact hk'
          · rw [hheads] at hc
            rw [hreached]
            exact hall c hc
        · refine hd.mono hskel ?_ htransfer hheads (fun c hc => ?_) (by simp +contextual)
            fun c hc => .inr hc
          · rw [hknown', if_neg hwv]
          · rw [hreached]
            exact hc
    · rw [funcOf_of_skeleton hskel]
      exact hs.blocks c hc
    · rw [kindOf_of_skeleton hskel]
      rcases List.mem_append.1 hw with hw | hw
      · have hops := (hmem w).1 (List.mem_reverse.1 hw)
        exact exists_kindOf (lt_of_mem_operandsOf hops)
      · exact hs.values w hw

/-- Visiting an instruction leaves nothing to do at it. -/
theorem visitInst_advance (hm : WellFormed s.module lists) (hb : s.module.funcOf b = some g)
    (hv : v ∈ lists b) : ∃ s', s.visitInst v = .ok s' ∧ Advance s s' ∧ Done s' v := by
  obtain ⟨s₁, h₁, hadv, hsettled⟩ := refresh_advance hm hb hv
  have hskel := hadv.learns.skeleton_eq
  have hm₁ := hm.learns hadv.learns
  obtain ⟨k, hk⟩ := hm₁.threads.inst hv
  rw [← funcOf_of_skeleton hskel] at hb
  have hkind : s₁.module.instKind v = .ok (some k) := instKind_eq hk
  by_cases hbr : k = .br
  · subst hbr
    have hpush := hm₁.pushBlocks hb hv hk s₁.blocks
    refine ⟨{ s₁ with
      blocks := ((s₁.module.headsOf v).filter fun c => !s₁.module.reachedOf c).reverse ++
        s₁.blocks }, bind_eq_ok.2 ⟨s₁, h₁, bind_eq_ok.2 ⟨_, hkind, ?_⟩⟩, ?_, hsettled, fun _ => ?_⟩
    · obtain ⟨labels, hl, hp⟩ := bind_eq_ok.1 hpush
      rw [if_pos rfl]
      exact bind_eq_ok.2 ⟨labels, hl, bind_eq_ok.2 ⟨_, hp, rfl⟩⟩
    · refine hadv.trans ⟨.refl, rfl, fun hc => List.mem_append_right _ hc, fun hd => ?_,
        fun hs => ⟨fun c hc => ?_, hs.values⟩⟩
      · exact hd.mono rfl rfl rfl rfl (fun _ => id) id fun c hc => .inr (by simp [hc])
      · rcases List.mem_append.1 hc with hc | hc
        · exact ⟨g, hm₁.headsOf_subset hb hv hk (List.mem_filter.1 (List.mem_reverse.1 hc)).1⟩
        · exact hs.blocks c hc
    · refine .inl fun c hc => ?_
      cases hr : s₁.module.reachedOf c with
      | true => exact .inl rfl
      | false => exact .inr (by simp [hc, hr])
  · refine ⟨s₁, bind_eq_ok.2 ⟨s₁, h₁, bind_eq_ok.2 ⟨_, hkind, ?_⟩⟩, hadv, hsettled, fun hk' => ?_⟩
    · rw [if_neg fun heq => hbr (Option.some.inj heq)]
      rfl
    · cases hk.symm.trans hk'
      exact absurd rfl hbr

/-- Visiting instructions leaves nothing to do at any of them. -/
theorem visitAll_advance {insts : List ValueId} (hm : WellFormed s.module lists)
    (hb : s.module.funcOf b = some g) (hv : ∀ v ∈ insts, v ∈ lists b) :
    ∃ s', s.visitAll insts = .ok s' ∧ Advance s s' ∧ ∀ v ∈ insts, Done s' v := by
  induction insts generalizing s with
  | nil => exact ⟨s, rfl, .refl s, nofun⟩
  | cons v rest ih =>
    obtain ⟨hv, hrest⟩ := List.forall_mem_cons.1 hv
    obtain ⟨s₁, h₁, hadv₁, hd₁⟩ := visitInst_advance hm hb hv
    obtain ⟨s₂, h₂, hadv₂, hd₂⟩ := ih (hm.learns hadv₁.learns)
      (by rw [funcOf_of_skeleton hadv₁.learns.skeleton_eq]; exact hb) hrest
    exact ⟨s₂, bind_eq_ok.2 ⟨s₁, h₁, h₂⟩, hadv₁.trans hadv₂,
      List.forall_mem_cons.2 ⟨hadv₂.done hd₁, hd₂⟩⟩

/-- Propagating to phis leaves nothing to do at any of them. -/
theorem refreshAll_advance {phis : List ValueId} (hm : WellFormed s.module lists)
    (hb : s.module.funcOf b = some g)
    (hv : ∀ v ∈ phis, v ∈ lists b ∧ s.module.isPhi v = true) :
    ∃ s', s.refreshAll phis = .ok s' ∧ Advance s s' ∧ ∀ v ∈ phis, Done s' v := by
  induction phis generalizing s with
  | nil => exact ⟨s, rfl, .refl s, nofun⟩
  | cons v rest ih =>
    obtain ⟨⟨hv, hphi⟩, hrest⟩ := List.forall_mem_cons.1 hv
    obtain ⟨s₁, h₁, hadv₁, hd₁⟩ := refresh_advance hm hb hv
    have hskel := hadv₁.learns.skeleton_eq
    have hdone : Done s₁ v := by
      refine ⟨hd₁, fun hk => ?_⟩
      rw [kindOf_of_skeleton hskel] at hk
      rw [isPhi, hk] at hphi
      cases hphi
    obtain ⟨s₂, h₂, hadv₂, hd₂⟩ := ih (hm.learns hadv₁.learns)
      (by rw [funcOf_of_skeleton hskel]; exact hb)
      (by rw [isPhi_of_skeleton hskel]; exact hrest)
    exact ⟨s₂, bind_eq_ok.2 ⟨s₁, h₁, h₂⟩, hadv₁.trans hadv₂,
      List.forall_mem_cons.2 ⟨hadv₂.done hdone, hd₂⟩⟩

/-- Visiting the phis of blocks leaves nothing to do at those that stand in marked blocks. -/
theorem visitPhis_advance {blocks : List BlockId} (hm : WellFormed s.module lists)
    (hb : ∀ c ∈ blocks, ∃ g, s.module.funcOf c = some g) :
    ∃ s', s.visitPhis blocks = .ok s' ∧ Advance s s' ∧
      ∀ c ∈ blocks, s.module.reachedOf c = true → ∀ v ∈ lists c, s.module.isPhi v = true →
        Done s' v := by
  induction blocks generalizing s with
  | nil => exact ⟨s, rfl, .refl s, nofun⟩
  | cons c rest ih =>
    obtain ⟨⟨g, hc⟩, hrest⟩ := List.forall_mem_cons.1 hb
    obtain ⟨x, hx, hr, -⟩ := block_eq (lt_of_funcOf hc)
    by_cases hreached : x.reachable = true
    · obtain ⟨phis, hphis, hmem⟩ := hm.instsWhile hc
      obtain ⟨s₁, h₁, hadv₁, hd₁⟩ := refreshAll_advance hm hc fun v hv => (hmem v).1 hv
      have hskel := hadv₁.learns.skeleton_eq
      obtain ⟨s₂, h₂, hadv₂, hd₂⟩ := ih (hm.learns hadv₁.learns)
        (by rw [funcOf_of_skeleton hskel]; exact hrest)
      rw [hadv₁.reached, isPhi_of_skeleton hskel] at hd₂
      refine ⟨s₂, bind_eq_ok.2 ⟨x, hx, ?_⟩, hadv₁.trans hadv₂, List.forall_mem_cons.2 ⟨?_, hd₂⟩⟩
      · rw [if_pos hreached]
        exact bind_eq_ok.2 ⟨phis, hphis, bind_eq_ok.2 ⟨s₁, h₁, h₂⟩⟩
      · exact fun _ v hv hphi => hadv₂.done (hd₁ v ((hmem v).2 ⟨hv, hphi⟩))
    · obtain ⟨s₂, h₂, hadv₂, hd₂⟩ := ih hm hrest
      refine ⟨s₂, bind_eq_ok.2 ⟨x, hx, ?_⟩, hadv₂, List.forall_mem_cons.2 ⟨?_, hd₂⟩⟩
      · rw [if_neg hreached]
        exact h₂
      · rw [hr]
        exact fun hr' => absurd hr' hreached

/-! ## Steps -/

/-- What holds between two steps. -/
structure Invariant (lists : BlockId → List ValueId) (f : FuncId) (s : Solver) : Prop where
  wellFormed : WellFormed s.module lists
  preds : s.module.PredsListed lists f
  sane : Sane s
  done : ∀ {v}, s.module.Live lists f v → Done s v
  entry : ∀ {y b}, s.module.funcs[f.idx]? = some y → y.entry = some b →
    s.module.reachedOf b = true ∨ b ∈ s.blocks

/-- What is live after visits to instructions was live before. -/
theorem Advance.live (h : Advance s s') (hv : s'.module.Live lists f v) :
    s.module.Live lists f v := by
  obtain ⟨b, hb, hr, hmem⟩ := hv
  rw [funcOf_of_skeleton h.learns.skeleton_eq] at hb
  rw [h.reached] at hr
  exact ⟨b, hb, hr, hmem⟩

theorem reachedOf_setBlock {m : Module} {x : Block} {r : Bool} (hx : m.blocks[b.idx]? = some x) :
    (m.setBlock b { x with reachable := r }).reachedOf c = if c = b then r else m.reachedOf c :=
  blockField_setBlock hx _ c

theorem reachedOf_setReachable {m m' : Module} {r : Bool} (h : m.setReachable b r = .ok m')
    (c : BlockId) : m'.reachedOf c = if c = b then r else m.reachedOf c := by
  obtain ⟨x, hx, rfl⟩ := modifyBlock_eq_ok.1 h
  exact reachedOf_setBlock hx

/-- Marking a block leaves done what was done, phis that list the block apart. -/
theorem Done.setReachable {m : Module} {blocks : List BlockId} {values : List ValueId} {x : Block}
    (hx : m.blocks[b.idx]? = some x) (h : Done ⟨m, b :: blocks, values⟩ v)
    (hv : m.isPhi v = true → ∀ i ∈ m.incoming v, i.2 ≠ b) :
    Done ⟨m.setBlock b { x with reachable := true }, blocks, values⟩ v := by
  have hskel := skeleton_setBlock hx true
  refine h.mono hskel rfl ?_ (headsOf_congr hskel fun _ _ => rfl) (fun c hc => ?_) id fun c hc => ?_
  · refine transferOf_congr hskel (fun _ _ => rfl) fun hphi i hi => ?_
    rw [reachedOf_setBlock hx, if_neg (hv hphi i hi)]
  · dsimp only at hc ⊢
    rw [reachedOf_setBlock hx, hc, ite_self]
  · rcases List.mem_cons.1 hc with rfl | hc
    · exact .inl ((reachedOf_setBlock hx).trans (if_pos rfl))
    · exact .inr hc

/-- Entering a block that is on the stack. -/
theorem visitBlock_invariant {m : Module} {blocks : List BlockId} {values : List ValueId}
    (h : Invariant lists f ⟨m, b :: blocks, values⟩) :
    ∃ s', visitBlock ⟨m, blocks, values⟩ b = .ok s' ∧ Invariant lists f s' := by
  have hm : WellFormed m lists := h.wellFormed
  obtain ⟨g, hb⟩ := h.sane.blocks b List.mem_cons_self
  obtain ⟨x, hx, hr, -⟩ := block_eq (lt_of_funcOf hb)
  have hsane : Sane ⟨m, blocks, values⟩ :=
    ⟨fun c hc => h.sane.blocks c (List.mem_cons_of_mem _ hc), h.sane.values⟩
  by_cases hreached : x.reachable = true
  · -- the block was entered before, so that nothing waits for it
    have hpop {c : BlockId} (hc : c ∈ b :: blocks) : m.reachedOf c = true ∨ c ∈ blocks := by
      rcases List.mem_cons.1 hc with rfl | hc
      · exact .inl (hr.trans hreached)
      · exact .inr hc
    refine ⟨⟨m, blocks, values⟩, bind_eq_ok.2 ⟨x, hx, if_pos hreached⟩, hm, h.preds, hsane,
      fun hv => ?_, fun hy hent => (h.entry hy hent).elim .inl hpop⟩
    exact (h.done hv).mono rfl rfl rfl rfl (fun _ => id) id fun c hc => hpop hc
  · have hx' := block_eq_ok.1 hx
    have hset : m.setReachable b true = .ok (m.setBlock b { x with reachable := true }) :=
      modifyBlock_eq_ok.2 ⟨x, hx', rfl⟩
    have hlearn := Learn.reach hset
    have hskel := hlearn.skeleton_eq
    have hreached₁ := reachedOf_setReachable hset
    have hdone {v : ValueId} (hd : Done ⟨m, b :: blocks, values⟩ v)
        (hv : m.isPhi v = true → ∀ i ∈ m.incoming v, i.2 ≠ b) := hd.setReachable hx' hv
    generalize m.setBlock b { x with reachable := true } = m₁ at hset hlearn hskel hreached₁ hdone
    have hm₁ := hm.learns (.single hlearn)
    have hb₁ : m₁.funcOf b = some g := by rw [funcOf_of_skeleton hskel]; exact hb
    obtain ⟨s₂, h₂, hadv₂, hd₂⟩ := visitAll_advance (s := ⟨m₁, blocks, values⟩)
      hm₁ hb₁ fun v (hv : v ∈ lists b) => hv
    have hm₂ := hm₁.learns hadv₂.learns
    have hskel₂ := hadv₂.learns.skeleton_eq
    have hb₂ : s₂.module.funcOf b = some g := by rw [funcOf_of_skeleton hskel₂]; exact hb₁
    obtain ⟨phis, body, term, hlist, -⟩ := hm₂.laid hb₂
    have hsuccs := hm₂.successors hb₂ hlist
    have hexits (c : BlockId) (hc : c ∈ (s₂.module.exitsOf term).eraseDups) :
        ∃ g, s₂.module.funcOf c = some g := hm₂.exists_funcOf (List.mem_eraseDups.1 hc)
    obtain ⟨s₃, h₃, hadv₃, hd₃⟩ := visitPhis_advance hm₂ hexits
    have hadv := hadv₂.trans hadv₃
    refine ⟨s₃, bind_eq_ok.2 ⟨x, hx, ?_⟩, hm₂.learns hadv₃.learns,
      (h.preds.of_skeleton hskel).of_skeleton hadv.learns.skeleton_eq, hadv.sane ⟨?_, ?_⟩,
      fun {v} hv => ?_, fun {y c} hy hc => ?_⟩
    · rw [if_neg hreached]
      exact bind_eq_ok.2 ⟨m₁, hset, bind_eq_ok.2 ⟨_, hm₁.insts hb₁, bind_eq_ok.2 ⟨s₂, h₂,
        bind_eq_ok.2 ⟨_, hsuccs, h₃⟩⟩⟩⟩
    · rw [funcOf_of_skeleton hskel]
      exact hsane.blocks
    · rw [kindOf_of_skeleton hskel]
      exact hsane.values
    · obtain ⟨c, hc, hrc, hmem⟩ := hadv.live hv
      dsimp only at hc hrc
      rw [funcOf_of_skeleton hskel] at hc
      by_cases hcb : c = b
      · subst hcb
        exact hadv₃.done (hd₂ v hmem)
      · rw [hreached₁, if_neg hcb] at hrc
        by_cases hphi : m.isPhi v = true ∧ ∃ i ∈ m.incoming v, i.2 = b
        · -- a phi that lists the block stands in a successor of it
          obtain ⟨hphi, i, hi, rfl⟩ := hphi
          have hexit : c ∈ s₂.module.exitsOf term := by
            rw [exitsOf_of_skeleton hskel₂, exitsOf_of_skeleton hskel]
            exact h.preds c v i hc hmem hphi hi term (by simp [hlist])
          refine hd₃ c (List.mem_eraseDups.2 hexit) ?_ v hmem ?_
          · rw [hadv₂.reached]
            exact (hreached₁ c).trans ((if_neg hcb).trans hrc)
          · rw [isPhi_of_skeleton hskel₂, isPhi_of_skeleton hskel]
            exact hphi
        · refine hadv.done (hdone (h.done ⟨c, hc, hrc, hmem⟩) fun hp i hi hib => ?_)
          exact hphi ⟨hp, i, hi, hib⟩
    · have hskel₃ := hadv.learns.skeleton_eq
      rw [funcs_of_skeleton hskel₃, funcs_of_skeleton hskel] at hy
      rw [hadv.reached, hreached₁]
      rcases h.entry hy hc with hr | hmem
      · exact .inl (by rw [show m.reachedOf c = true from hr, ite_self])
      · rcases List.mem_cons.1 hmem with rfl | hmem
        · exact .inl (if_pos rfl)
        · exact .inr (hadv.blocks hmem)

/-- Visiting an instruction that is on the stack. -/
theorem revisit_invariant {m : Module} {values : List ValueId}
    (h : Invariant lists f ⟨m, [], v :: values⟩) :
    ∃ s', revisit ⟨m, [], values⟩ v = .ok s' ∧ Invariant lists f s' := by
  have hm : WellFormed m lists := h.wellFormed
  obtain ⟨k, hk⟩ := h.sane.values v List.mem_cons_self
  obtain ⟨x, hx, -⟩ := kindOf_eq_some.1 hk
  have hlink : m.linkOf v = x.link := valueField_eq hx
  have hsane : Sane ⟨m, [], values⟩ :=
    ⟨h.sane.blocks, fun w hw => h.sane.values w (List.mem_cons_of_mem _ hw)⟩
  -- all other instructions still wait if they waited
  have hother {w : ValueId} (hd : Done ⟨m, [], v :: values⟩ w) (hw : w ≠ v) :
      Done ⟨m, [], values⟩ w :=
    hd.mono rfl rfl rfl rfl (fun _ => id) (fun hmem => (List.mem_cons.1 hmem).resolve_left hw)
      fun c hc => .inr hc
  -- an instruction outside marked blocks of the function is not asked about
  have hskip (hdead : ¬ m.Live lists f v) : Invariant lists f ⟨m, [], values⟩ :=
    ⟨hm, h.preds, hsane, fun {w} hw => hother (h.done hw) fun hwv => hdead (hwv ▸ hw),
      h.entry⟩
  have hdead {P : Prop} (hp : ∀ b, m.funcOf b = some f → m.reachedOf b = true →
      x.link.block = some b → P) (hnp : ¬ P) : ¬ m.Live lists f v := by
    rintro ⟨b, hb, hr, hmem⟩
    exact hnp (hp b hb hr (hlink ▸ hm.threads.block_of_mem hmem))
  cases hblock : x.link.block with
  | none =>
    refine ⟨_, bind_eq_ok.2 ⟨x, value_eq_ok.2 hx, ?_⟩, hskip (hdead (P := False) ?_ id)⟩
    · rw [hblock]
      rfl
    · rw [hblock]
      nofun
  | some b =>
    have hmem : v ∈ lists b := hm.threads.mem_of_block (by rw [hlink, hblock])
    obtain ⟨g, hb⟩ := hm.exists_funcOf_of_mem hmem
    obtain ⟨y, hy, hr, -⟩ := block_eq (lt_of_funcOf hb)
    by_cases hreached : y.reachable = true
    · obtain ⟨s', hs', hadv, hd⟩ := visitInst_advance (s := ⟨m, [], values⟩) hm hb hmem
      have hskel := hadv.learns.skeleton_eq
      refine ⟨s', bind_eq_ok.2 ⟨x, value_eq_ok.2 hx, ?_⟩, hm.learns hadv.learns,
        h.preds.of_skeleton hskel, hadv.sane hsane, fun {w} hw => ?_, fun {y c} hy hc => ?_⟩
      · rw [hblock]
        refine bind_eq_ok.2 ⟨y, hy, ?_⟩
        rw [if_pos hreached]
        exact hs'
      · by_cases hwv : w = v
        · exact hwv ▸ hd
        · exact hadv.done (hother (h.done (hadv.live hw)) hwv)
      · rw [funcs_of_skeleton hskel] at hy
        rw [hadv.reached]
        exact (h.entry hy hc).imp id hadv.blocks
    · refine ⟨_, bind_eq_ok.2 ⟨x, value_eq_ok.2 hx, ?_⟩,
        hskip (hdead (P := y.reachable = true) ?_ hreached)⟩
      · rw [hblock]
        refine bind_eq_ok.2 ⟨y, hy, ?_⟩
        rw [if_neg hreached]
        rfl
      · intro c _ hrc hc
        rw [hblock] at hc
        cases hc
        exact hr ▸ hrc

/-- A step keeps the invariant and meets no fault. -/
theorem step_invariant (h : Invariant lists f s) :
    (s.step = .ok none ∧ s.blocks = [] ∧ s.values = []) ∨
      ∃ s', s.step = .ok (some s') ∧ Invariant lists f s' := by
  obtain ⟨m, blocks, values⟩ := s
  cases blocks with
  | cons b rest =>
    obtain ⟨s', hs', hi⟩ := visitBlock_invariant h
    exact .inr ⟨s', bind_eq_ok.2 ⟨s', hs', rfl⟩, hi⟩
  | nil =>
    cases values with
    | nil => exact .inl ⟨rfl, rfl, rfl⟩
    | cons v rest =>
      obtain ⟨s', hs', hi⟩ := revisit_invariant h
      exact .inr ⟨s', bind_eq_ok.2 ⟨s', hs', rfl⟩, hi⟩

/-- A run keeps the invariant, meets no fault and leaves no work. -/
theorem run_invariant (h : Invariant lists f s) :
    ∃ n m, s.run = .ok (n, m) ∧ Invariant lists f ⟨m, [], []⟩ := by
  fun_induction run s with
  | case1 s e heq =>
    rcases step_invariant h with ⟨hstep, -⟩ | ⟨s', hstep, -⟩
    · cases heq.symm.trans hstep
    · cases heq.symm.trans hstep
  | case2 s heq =>
    rcases step_invariant h with ⟨-, hb, hv⟩ | ⟨s', hstep, -⟩
    · refine ⟨1, s.module, rfl, ?_⟩
      rw [← hb, ← hv]
      exact h
    · cases heq.symm.trans hstep
  | case3 s s' heq ih =>
    rcases step_invariant h with ⟨hstep, -⟩ | ⟨s'', hstep, hi⟩
    · cases heq.symm.trans hstep
    · cases heq.symm.trans hstep
      obtain ⟨n, m, hrun, hi⟩ := ih hi
      exact ⟨n + 1, m, bind_eq_ok.2 ⟨_, hrun, rfl⟩, hi⟩

/-- Without work the invariant says that a solution has been found. -/
theorem Invariant.solved {m : Module} (h : Invariant lists f ⟨m, [], []⟩) :
    m.Solved lists f where
  entry hy hb := (h.entry hy hb).resolve_right nofun
  settled hv := (h.done hv).settled.resolve_right nofun
  heads hv hk c hc := (((h.done hv).heads hk).resolve_right nofun c hc).resolve_right nofun

end Solver

namespace Module

/-- Forgetting which blocks of a function are reachable takes away their marks, and no others. -/
theorem reachedOf_resetReachability {m m' : Module} {f : FuncId}
    (h : m.resetReachability f = .ok m') (b : BlockId) :
    m'.reachedOf b = if b ∈ m.blocksOf f then false else m.reachedOf b := by
  obtain ⟨y, hy, h⟩ := bind_eq_ok.1 h
  rw [blocksOf_of_func (lookupOr_eq_ok.1 hy)]
  clear * - h
  generalize y.blocks = bs at h
  induction bs generalizing m with
  | nil =>
    cases h
    simp
  | cons c rest ih =>
    rw [List.foldlM_cons] at h
    obtain ⟨m₁, h₁, h⟩ := bind_eq_ok.1 h
    rw [ih h, Solver.reachedOf_setReachable h₁]
    by_cases hb : b = c <;> simp [hb]

/-- In a module whose blocks and functions say the same of each other that can be done. -/
theorem resetReachability_eq {m : Module} {f : FuncId} (hm : Owned m) {y : Func}
    (hy : m.funcs[f.idx]? = some y) :
    ∃ m', m.resetReachability f = .ok m' ∧ ∀ b, m.funcOf b = some f → m'.reachedOf b = false := by
  have hloop (bs : List BlockId) : ∀ m₁ : Module, (∀ b ∈ bs, b.idx < m₁.blocks.size) →
      ∃ m', bs.foldlM (fun m b => m.setReachable b false) m₁ = .ok m' := by
    induction bs with
    | nil => exact fun m₁ _ => ⟨m₁, rfl⟩
    | cons b rest ih =>
      intro m₁ hlt
      obtain ⟨hb, hrest⟩ := List.forall_mem_cons.1 hlt
      have hset : m₁.setReachable b false = .ok (m₁.setBlock b _) :=
        modifyBlock_eq_ok.2 ⟨_, Array.getElem?_eq_getElem hb, rfl⟩
      obtain ⟨m', hm'⟩ := ih (m₁.setBlock b _) (by simpa [setBlock] using hrest)
      refine ⟨m', ?_⟩
      rw [List.foldlM_cons]
      exact bind_eq_ok.2 ⟨_, hset, hm'⟩
  obtain ⟨m', hm'⟩ := hloop y.blocks m fun b hb => lt_of_funcOf (hm.mem.2 ⟨y, hy, hb⟩)
  have hreset : m.resetReachability f = .ok m' := bind_eq_ok.2 ⟨y, lookupOr_eq_ok.2 hy, hm'⟩
  refine ⟨m', hreset, fun b hb => ?_⟩
  rw [reachedOf_resetReachability hreset, if_pos (hm.mem_blocksOf.2 hb)]

/-- In a well-formed module, the solver ends with a solution. -/
theorem WellFormed.solve {m : Module} {lists : BlockId → List ValueId} {f : FuncId} {y : Func}
    (hm : WellFormed m lists) (hp : m.PredsListed lists f) (hy : m.funcs[f.idx]? = some y) :
    ∃ n m', m.solve f = .ok (n, m') ∧ Learns m m' ∧ m'.Solved lists f := by
  obtain ⟨m₁, h₁, hfalse⟩ := resetReachability_eq hm.owned hy
  have hlearns := resetReachability_learns h₁
  have hskel := hlearns.skeleton_eq
  have hm₁ := hm.learns hlearns
  have hy₁ : m₁.funcs[f.idx]? = some y := by rw [funcs_of_skeleton hskel]; exact hy
  have hlive {v : ValueId} (hv : m₁.Live lists f v) : False := by
    obtain ⟨b, hb, hr, -⟩ := hv
    rw [funcOf_of_skeleton hskel] at hb
    rw [hfalse b hb] at hr
    cases hr
  cases hentry : y.entry with
  | none =>
    refine ⟨0, m₁, bind_eq_ok.2 ⟨m₁, h₁, bind_eq_ok.2 ⟨y, lookupOr_eq_ok.2 hy₁, ?_⟩⟩, hlearns,
      ⟨fun hy' hb => ?_, fun hv => (hlive hv).elim, fun hv => (hlive hv).elim⟩⟩
    · rw [hentry]
      rfl
    · cases hy₁.symm.trans hy'
      cases hentry.symm.trans hb
  | some entry =>
    have hfunc : m₁.funcOf entry = some f :=
      hm₁.owned.mem.2 ⟨y, hy₁, List.mem_of_head? hentry⟩
    have hinit : Solver.Invariant lists f ⟨m₁, [entry], []⟩ :=
      ⟨hm₁, hp.of_skeleton hskel, ⟨by simpa using ⟨f, hfunc⟩, nofun⟩,
        fun hv => (hlive hv).elim, fun hy' hb => by
          cases hy₁.symm.trans hy'
          cases hentry.symm.trans hb
          exact .inr List.mem_cons_self⟩
    obtain ⟨n, m', hrun, hi⟩ := Solver.run_invariant hinit
    refine ⟨n, m', bind_eq_ok.2 ⟨m₁, h₁, bind_eq_ok.2 ⟨y, lookupOr_eq_ok.2 hy₁, ?_⟩⟩,
      hlearns.trans (Solver.run_learns hrun), hi.solved⟩
    rw [hentry]
    exact hrun

end Module

end SsaCodegen
