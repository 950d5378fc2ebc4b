import SsaCodegen.Proofs.Semantics.Machine
import SsaCodegen.Select.Scope

/-!
# Registers in the course of selection

Registers are only ever added, and a register that holds a value holds it for good. Between two
states of the registers, those that are new and hold no value are scratch: the code that was
selected in between may use them as it likes, and no other code does. Everything that is known of
the contents of the other registers survives such code, which is all that is needed to put the
pieces of a function's code together.

## Main definitions

* `Registers.Grows` — registers were added
* `Registers.Scratch` — a register was added and holds no value
* `Quiet`, `Writes` — code changed nothing but scratch, or one more register

## Main results

* `SelectM.bind_ok` — how a computation that goes through is taken apart
* `Registers.Grows.wf` — different values stay in different registers
-/

namespace SsaCodegen

open Target

/-! ## Taking computations apart -/

namespace SelectM

variable {s s' : Registers}

/-- A computation that goes through is made of parts that do. -/
theorem bind_ok {x : SelectM α} {f : α → SelectM β} {r : β × Registers} :
    (x >>= f) s = .ok r ↔ ∃ a s', x s = .ok (a, s') ∧ f a s' = .ok r := by
  show (x s >>= fun p => f p.1 p.2) = .ok r ↔ _
  cases hx : x s with
  | error e => simp [bind, Except.bind]
  | ok p =>
    obtain ⟨a, s₁⟩ := p
    constructor
    · exact fun h => ⟨a, s₁, rfl, h⟩
    · rintro ⟨b, s₂, heq, h⟩
      cases heq
      exact h

theorem pure_ok {a b : α} : (pure a : SelectM α) s = .ok (b, s') ↔ a = b ∧ s = s' := by
  show (Except.ok (a, s) : Except Stop _) = .ok (b, s') ↔ _
  simp

/-- Looking something up hands out no registers. -/
theorem lift_ok {x : Except Fault α} {a : α} :
    (liftM x : SelectM α) s = .ok (a, s') ↔ x = .ok a ∧ s = s' := by
  cases x with
  | error f =>
    show (Except.error (Stop.fault f) : Except Stop _) = .ok (a, s') ↔ _
    simp
  | ok b =>
    show (Except.ok (b, s) : Except Stop _) = .ok (a, s') ↔ _
    simp

/-- What comes after a lookup starts from the same registers. -/
theorem lift_bind_ok {x : Except Fault α} {f : α → SelectM β} {r : β × Registers} :
    ((liftM x : SelectM α) >>= f) s = .ok r ↔ ∃ a, x = .ok a ∧ f a s = .ok r := by
  rw [bind_ok]
  constructor
  · rintro ⟨a, s', hlift, h⟩
    obtain ⟨hx, rfl⟩ := lift_ok.1 hlift
    exact ⟨a, hx, h⟩
  · rintro ⟨a, hx, h⟩
    exact ⟨a, s, lift_ok.2 ⟨hx, rfl⟩, h⟩

theorem refuse_ne_ok {e : SelectError} {r : α × Registers} :
    (refuse e : SelectM α) s ≠ .ok r := nofun

theorem halt_ne_ok {f : Fault} {r : α × Registers} : (halt f : SelectM α) s ≠ .ok r := nofun

theorem newReg_ok {name : Option String} {r : Reg} : newReg name s = .ok (r, s') ↔
    r = .virt s.names.length ∧ s' = { s with names := s.names ++ [name] } := by
  show (Except.ok (Reg.virt s.names.length, _) : Except Stop _) = .ok (r, s') ↔ _
  simp [eq_comm]

end SelectM

/-! ## What registers were added -/

namespace Registers

variable {s s₁ s' : Registers} {v w : ValueId} {r q : Reg}

/-- Registers were added, some of which hold values that had none before. -/
inductive Grows (s : Registers) : Registers → Prop where
  | refl : Grows s s
  | fresh {s' : Registers} (name : Option String) :
    Grows s s' → Grows s { s' with names := s'.names ++ [name] }
  | hold {s' : Registers} (name : Option String) {v : ValueId} : Grows s s' →
    s'.held.lookup v = none → Grows s ⟨s'.names ++ [name], (v, .virt s'.names.length) :: s'.held⟩

/-- A register is a machine register or was added already. -/
def Knows (s : Registers) (r : Reg) : Prop := ∀ k, r = .virt k → k < s.names.length

/-- A register is one that was added. -/
def Has (s : Registers) (r : Reg) : Prop := ∃ k, r = .virt k ∧ k < s.names.length

/-- Values are held by virtual registers, different ones by different registers. -/
structure Wf (s : Registers) : Prop where
  virt : ∀ {v r}, s.held.lookup v = some r → s.Has r
  inj : ∀ {v w r}, s.held.lookup v = some r → s.held.lookup w = some r → v = w

/-- A register was added between two states and holds no value. -/
def Scratch (s s' : Registers) (q : Reg) : Prop :=
  (∃ k, q = .virt k ∧ s.names.length ≤ k ∧ k < s'.names.length) ∧
    ∀ v, s'.held.lookup v ≠ some q

theorem lookup_cons_eq_some {l : List (ValueId × Reg)} (hv : l.lookup v = none) :
    ((v, q) :: l).lookup w = some r ↔ w = v ∧ q = r ∨ l.lookup w = some r := by
  by_cases hw : w = v
  · subst hw
    simp [hv]
  · have hbeq : (w == v) = false := beq_eq_false_iff_ne.2 hw
    simp [List.lookup_cons, hbeq, hw]

namespace Grows

theorem trans (h : Grows s s₁) (h' : Grows s₁ s') : Grows s s' := by
  induction h' with
  | refl => exact h
  | fresh name _ ih => exact ih.fresh name
  | hold name _ hv ih => exact ih.hold name hv

theorem length_le (h : Grows s s') : s.names.length ≤ s'.names.length := by
  induction h with
  | refl => exact Nat.le_refl _
  | fresh name _ ih =>
    rw [List.length_append]
    omega
  | hold name _ _ ih =>
    rw [List.length_append]
    omega

theorem lookup (h : Grows s s') (hv : s.held.lookup v = some r) : s'.held.lookup v = some r := by
  induction h with
  | refl => exact hv
  | fresh _ _ ih => exact ih
  | hold _ _ hnew ih => exact (lookup_cons_eq_some hnew).2 (.inr ih)

/-- A register that holds a value held it before or was added. -/
theorem lookup_inv (h : Grows s s') (hv : s'.held.lookup v = some r) :
    s.held.lookup v = some r ∨ ∃ k, r = .virt k ∧ s.names.length ≤ k := by
  induction h with
  | refl => exact .inl hv
  | fresh _ _ ih => exact ih hv
  | hold name hgrows hnew ih =>
    rcases (lookup_cons_eq_some hnew).1 hv with ⟨-, rfl⟩ | hv
    · exact .inr ⟨_, rfl, hgrows.length_le⟩
    · exact ih hv

theorem wf (h : Grows s s') (hs : s.Wf) : s'.Wf := by
  induction h with
  | refl => exact hs
  | fresh name _ ih =>
    refine ⟨fun hv => ?_, fun hv hw => ih.inj hv hw⟩
    obtain ⟨k, rfl, hk⟩ := ih.virt hv
    exact ⟨k, rfl, by rw [List.length_append]; omega⟩
  | @hold s₁ name v _ hnew ih =>
    have hlen : (s₁.names ++ [name]).length = s₁.names.length + 1 := List.length_append
    refine ⟨fun {w r} hw => ?_, fun {w w' r} hw hw' => ?_⟩
    · rcases (lookup_cons_eq_some hnew).1 hw with ⟨-, rfl⟩ | hw
      · exact ⟨_, rfl, by rw [hlen]; omega⟩
      · obtain ⟨k, rfl, hk⟩ := ih.virt hw
        exact ⟨k, rfl, by rw [hlen]; omega⟩
    · -- the new register has a number that no older one has
      rcases (lookup_cons_eq_some hnew).1 hw with ⟨rfl, rfl⟩ | hold
      · rcases (lookup_cons_eq_some hnew).1 hw' with ⟨rfl, -⟩ | hold'
        · rfl
        · obtain ⟨k, hk, hlt⟩ := ih.virt hold'
          cases hk
          omega
      · rcases (lookup_cons_eq_some hnew).1 hw' with ⟨rfl, rfl⟩ | hold'
        · obtain ⟨k, hk, hlt⟩ := ih.virt hold
          cases hk
          omega
        · exact ih.inj hold hold'

theorem knows (h : Grows s s') (hr : s.Knows r) : s'.Knows r := fun k hk =>
  Nat.lt_of_lt_of_le (hr k hk) h.length_le

theorem has (h : Grows s s') (hr : s.Has r) : s'.Has r := by
  obtain ⟨k, rfl, hk⟩ := hr
  exact ⟨k, rfl, Nat.lt_of_lt_of_le hk h.length_le⟩

end Grows

theorem Wf.empty : Wf {} := ⟨nofun, nofun⟩

theorem Has.knows (h : s.Has r) : s.Knows r := by
  obtain ⟨k, rfl, hk⟩ := h
  rintro k' ⟨⟩
  exact hk

theorem Has.ne_phys (h : s.Has r) (q : PhysReg) : r ≠ .phys q := by
  obtain ⟨k, rfl, -⟩ := h
  nofun

theorem Has.ne_zero (h : s.Has r) : r ≠ State.zero := h.ne_phys _

theorem knows_phys (s : Registers) (r : PhysReg) : s.Knows (.phys r) := nofun

/-! ## Scratch registers -/

namespace Scratch

theorem grows_right (h : Scratch s s₁ q) (hg : Grows s₁ s') : Scratch s s' q := by
  obtain ⟨⟨k, rfl, hle, hlt⟩, hheld⟩ := h
  have hlen := hg.length_le
  refine ⟨⟨k, rfl, hle, by omega⟩, fun v hv => ?_⟩
  rcases hg.lookup_inv hv with hv | ⟨k', hk', hle'⟩
  · exact hheld v hv
  · cases hk'
    omega

theorem grows_left (h : Scratch s₁ s' q) (hg : Grows s s₁) : Scratch s s' q := by
  obtain ⟨⟨k, rfl, hle, hlt⟩, hheld⟩ := h
  have hlen := hg.length_le
  exact ⟨⟨k, rfl, by omega, hlt⟩, hheld⟩

theorem has (h : Scratch s s' q) : s'.Has q := by
  obtain ⟨⟨k, rfl, -, hlt⟩, -⟩ := h
  exact ⟨k, rfl, hlt⟩

end Scratch

theorem Knows.not_scratch (h : s.Knows q) : ¬Scratch s s' q := by
  rintro ⟨⟨k, rfl, hle, -⟩, -⟩
  have hlt := h k rfl
  omega

/-- A register that will hold a value is not scratch. -/
theorem Grows.not_scratch {S : Registers} (h : Grows s' S) (hv : S.held.lookup v = some q) :
    ¬Scratch s s' q := by
  intro hq
  exact (hq.grows_right h).2 v hv

/-- A new register without a value. -/
theorem Wf.scratch_new (h : s.Wf) (name : Option String) :
    Scratch s { s with names := s.names ++ [name] } (.virt s.names.length) := by
  refine ⟨⟨_, rfl, Nat.le_refl _, by simp⟩, fun v hv => ?_⟩
  obtain ⟨k, hk, hlt⟩ := h.virt hv
  cases hk
  omega

end Registers

/-! ## What code changes -/

section Changes

open Registers

variable {s s₁ s' : Registers} {st st₁ st' : State} {dst : Reg} {w : Word}

/-- Nothing but scratch registers changed. -/
structure Quiet (s s' : Registers) (st st' : State) : Prop where
  world : st'.world = st.world
  get : ∀ {q}, ¬Scratch s s' q → st'.get q = st.get q

/-- Nothing changed but scratch registers and one register, which has a word now. -/
structure Writes (s s' : Registers) (dst : Reg) (w : Word) (st st' : State) : Prop where
  world : st'.world = st.world
  value : st'.get dst = w
  get : ∀ {q}, q ≠ dst → ¬Scratch s s' q → st'.get q = st.get q

theorem Quiet.refl : Quiet s s' st st := ⟨rfl, fun _ => rfl⟩

theorem Quiet.trans (h : Quiet s s₁ st st₁) (h' : Quiet s₁ s' st₁ st') (hg : Grows s s₁)
    (hg' : Grows s₁ s') : Quiet s s' st st' := by
  refine ⟨h'.world.trans h.world, fun {q} hq => ?_⟩
  rw [h'.get fun hq' => hq (hq'.grows_left hg), h.get fun hq' => hq (hq'.grows_right hg')]

theorem Quiet.trans_writes (h : Quiet s s₁ st st₁) (h' : Writes s₁ s' dst w st₁ st')
    (hg : Grows s s₁) (hg' : Grows s₁ s') : Writes s s' dst w st st' := by
  refine ⟨h'.world.trans h.world, h'.value, fun {q} hne hq => ?_⟩
  rw [h'.get hne fun hq' => hq (hq'.grows_left hg), h.get fun hq' => hq (hq'.grows_right hg')]

/-- Writing a register. -/
theorem Writes.set (s s' : Registers) (st : State) (w : Word) (hdst : dst ≠ State.zero) :
    Writes s s' dst w st (st.set dst w) :=
  ⟨rfl, st.get_set_self w hdst, fun hne _ => st.get_set_of_ne w hne⟩

/-- To write a scratch register is to change nothing else. -/
theorem Writes.quiet (h : Writes s s' dst w st st') (hdst : Scratch s s' dst) :
    Quiet s s' st st' :=
  ⟨h.world, fun hq => h.get (fun heq => hq (heq ▸ hdst)) hq⟩

/-- A write to the register of a value after some code that changed only scratch. -/
theorem Quiet.set {v : ValueId} (h : Quiet s s₁ st st₁) (hg : Grows s s₁) (hg' : Grows s₁ s')
    (hs : s'.Wf) (hheld : s'.held.lookup v = some dst) (w : Word) :
    Writes s s' dst w st (st₁.set dst w) :=
  h.trans_writes (.set s₁ s' st₁ w (hs.virt hheld).ne_zero) hg hg'

end Changes

end SsaCodegen
