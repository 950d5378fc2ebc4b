import SsaCodegen.Proofs.ConstProp.Worklist
import SsaCodegen.Proofs.ConstProp.Monotone

/-!
# Recording what the operands tell

The solver calls `propagate` on one instruction after another. Each call takes what the operands
tell about the instruction and stores its meet with what was stored. In any module, whether the
verifier would accept it or not, what the operands tell comes from certain values: none, one, two,
or those of a phi that come in from marked blocks. This is said once here, as the `Origin` of a
value, and all else follows from it. The only instructions that can come down to a constant while
they use themselves are phis, and these stay there.

## Main definitions

* `Origin`, `Module.HasOrigin` — where what is known of a value comes from
* `Module.Below` — two states of a module, in one of which less is known

## Main results

* `Module.transfer_eq_ok` — when the operands of a value tell something, and what
* `Origin.tells_mono`, `Origin.settles` — the order, and what a value that uses itself tells
* `Module.propagate_descends` — `propagate` goes down, in one step
-/

namespace SsaCodegen

/-! ## The lattice -/

namespace Constness

theorem combine_top_left (eval : Int64 → Int64 → Option Int64) (b : Constness) :
    combine eval .top b = .top ∨ combine eval .top b = .varying := by
  cases b <;> simp [combine]

theorem combine_top_right (eval : Int64 → Int64 → Option Int64) (a : Constness) :
    combine eval a .top = .top ∨ combine eval a .top = .varying := by
  cases a <;> simp [combine]

/-- What does not come down from `top` to a constant stays or ends as `varying`. -/
theorem meet_eq_self_or_varying {a t : Constness} (h : a = .top → t = .top ∨ t = .varying) :
    a.meet t = a ∨ a.meet t = .varying := by
  cases a <;> cases t <;> grind [meet]

end Constness

/-! ## Where what is known comes from -/

/-- Where what is known of a value comes from: from nothing, from another value, from an operator on
two values, or from those values that come in from marked blocks. -/
inductive Origin where
  | nothing
  | copy (o : ValueId)
  | pair (eval : Int64 → Int64 → Option Int64) (l r : ValueId)
  | meet (incoming : List (ValueId × BlockId))

namespace Origin

variable {known known' : ValueId → Constness} {reached reached' : BlockId → Bool} {v : ValueId}

/-- The values that count, where some blocks are marked. -/
def reads (reached : BlockId → Bool) : Origin → List ValueId
  | nothing => []
  | copy o => [o]
  | pair _ l r => [l, r]
  | meet incoming => (incoming.filter fun i => reached i.2).map (·.1)

theorem reads_cons_of_pos {u : ValueId} {p : BlockId} {incoming : List (ValueId × BlockId)}
    (hp : reached p = true) : (meet ((u, p) :: incoming)).reads reached =
      u :: (meet incoming).reads reached := by
  rw [reads, List.filter_cons_of_pos (by exact hp)]
  rfl

theorem reads_cons_of_neg {u : ValueId} {p : BlockId} {incoming : List (ValueId × BlockId)}
    (hp : ¬reached p = true) : (meet ((u, p) :: incoming)).reads reached =
      (meet incoming).reads reached := by
  rw [reads, List.filter_cons_of_neg (by exact hp)]
  rfl

/-- What these values tell. -/
def tells (known : ValueId → Constness) (reached : BlockId → Bool) : Origin → Constness
  | nothing => .varying
  | copy o => known o
  | pair eval l r => .combine eval (known l) (known r)
  | meet incoming =>
    ((meet incoming).reads reached).foldl (fun acc u => acc.meet (known u)) .top

/-- Where less is known of values and more blocks are marked, less is told. -/
theorem tells_mono (A : Origin) (hknown : ∀ w, known w ≤ known' w)
    (hreached : ∀ b, reached' b = true → reached b = true) :
    A.tells known reached ≤ A.tells known' reached' := by
  cases A with
  | nothing => exact le_rfl
  | copy o => exact hknown o
  | pair eval l r => exact Constness.combine_mono (hknown l) (hknown r)
  | meet incoming =>
    -- a value that counts in the one state counts in the other
    refine Constness.foldl_meet_mono fun u hu => ⟨?_, hknown u⟩
    obtain ⟨i, hi, rfl⟩ := List.mem_map.1 hu
    obtain ⟨hi, hr⟩ := List.mem_filter.1 hi
    exact List.mem_map_of_mem (List.mem_filter.2 ⟨hi, hreached _ hr⟩)

/-- After a value has taken in what its origin told, its origin tells nothing lower, even where the
value counts itself. -/
theorem settles (A : Origin) (hv : known' v = (known v).meet (A.tells known reached))
    (hw : ∀ w, w ≠ v → known' w = known w) : known' v ≤ A.tells known' reached := by
  have hle : known' v ≤ A.tells known reached := hv ▸ Constness.meet_le_right _ _
  cases A with
  | nothing => exact hle
  | copy o =>
    by_cases ho : o = v
    · exact ho ▸ le_rfl
    · rw [tells, hw o ho]
      exact hle
  | pair eval l r =>
    -- an operator on `top` gives no constant, so a value that reads itself through one cannot
    -- have come down to a constant
    by_cases hself : l = v ∨ r = v
    · have hstep : known' v = known v ∨ known' v = .varying := by
        rw [hv]
        refine Constness.meet_eq_self_or_varying fun htop => ?_
        rcases hself with rfl | rfl
        · rw [tells, htop]
          exact Constness.combine_top_left _ _
        · rw [tells, htop]
          exact Constness.combine_top_right _ _
      rcases hstep with hsame | hvar
      · have heq : known' = known := by
          funext w
          by_cases hwv : w = v
          · rw [hwv, hsame]
          · exact hw w hwv
        exact heq ▸ hle
      · exact hvar ▸ Constness.varying_le _
    · obtain ⟨hl, hr⟩ := not_or.1 hself
      rw [tells, hw l hl, hw r hr]
      exact hle
  | meet incoming =>
    refine Constness.le_foldl_meet.2 ⟨Constness.le_top _, fun u hu => ?_⟩
    by_cases huv : u = v
    · exact huv ▸ le_rfl
    · rw [hw u huv]
      exact (Constness.le_foldl_meet.1 hle).2 u hu

end Origin

namespace Module

variable {m m' lo hi : Module} {v : ValueId} {f : FuncId} {t : Constness}

/-- An operand list is made of pairs of a value and the label of a block. -/
inductive Incoming (m : Module) : List ValueId → List (ValueId × BlockId) → Prop
  | nil : m.Incoming [] []
  | cons {value label : ValueId} {rest : List ValueId} {p : BlockId}
      {pairs : List (ValueId × BlockId)} (hlabel : m.kindOf label = some (.block p))
      (hp : p.idx < m.blocks.size) (hrest : m.Incoming rest pairs) :
      m.Incoming (value :: label :: rest) ((value, p) :: pairs)

/-- What is known of a value comes from an origin: of an instruction from its operands, and of any
other value from itself. -/
inductive HasOrigin (m : Module) (v : ValueId) : Origin → Prop
  | value {k : ValueKind} (hk : m.kindOf v = some k) (hn : k.asInst = none) :
      m.HasOrigin v (.copy v)
  | phi {incoming : List (ValueId × BlockId)} (hk : m.kindOf v = some (.inst .phi))
      (h : m.Incoming (m.operandsOf v) incoming) : m.HasOrigin v (.meet incoming)
  | move {k : InstKind} {o : ValueId} (hk : m.kindOf v = some (.inst k))
      (hmove : k = .sext ∨ k = .cast) (ho : (m.operandsOf v)[0]? = some o) : m.HasOrigin v (.copy o)
  | binary {op : BinOp} {l r : ValueId} (hk : m.kindOf v = some (.inst (.binary op)))
      (hl : (m.operandsOf v)[0]? = some l) (hr : (m.operandsOf v)[1]? = some r) :
      m.HasOrigin v (.pair op.eval l r)
  | compare {op : CmpOp} {l r : ValueId} (hk : m.kindOf v = some (.inst (.compare op)))
      (hl : (m.operandsOf v)[0]? = some l) (hr : (m.operandsOf v)[1]? = some r) :
      m.HasOrigin v (.pair (fun a b => some (if op.eval a b then 1 else 0)) l r)
  | impure {k : InstKind} (hk : m.kindOf v = some (.inst k)) (hn : k.isPure = false) :
      m.HasOrigin v .nothing

/-! ## Reading -/

theorem known_eq_ok : m.known v = .ok t ↔ v.idx < m.values.size ∧ m.knownOf v = t := by
  constructor
  · intro h
    obtain ⟨x, hx, h⟩ := bind_eq_ok.1 h
    have hx := value_eq_ok.1 hx
    exact ⟨(Array.getElem?_eq_some_iff.1 hx).1, (valueField_eq hx).trans (Except.ok.inj h)⟩
  · rintro ⟨hlt, rfl⟩
    exact known_eq hlt

theorem kind_eq_ok {k : ValueKind} : m.kind v = .ok k ↔ m.kindOf v = some k := by
  refine ⟨fun h => ?_, kind_eq⟩
  obtain ⟨x, hx, h⟩ := bind_eq_ok.1 h
  exact kindOf_eq_some.2 ⟨x, value_eq_ok.1 hx, Except.ok.inj h⟩

theorem operand_eq_ok {i : Nat} {o : ValueId} :
    m.operand v i = .ok o ↔ (m.operandsOf v)[i]? = some o :=
  ⟨operandsOf_of_operand, operand_eq⟩

/-- The phi of an operand list takes its pairs one after another. -/
theorem transferPhi_eq_ok {phi : ValueId} : ∀ {operands : List ValueId} {acc : Constness},
    m.transferPhi phi acc operands = .ok t ↔ ∃ incoming, m.Incoming operands incoming ∧
      (∀ o ∈ (Origin.meet incoming).reads m.reachedOf, o.idx < m.values.size) ∧
      ((Origin.meet incoming).reads m.reachedOf).foldl
        (fun acc u => acc.meet (m.knownOf u)) acc = t
  | [], acc => by
    constructor
    · intro h
      exact ⟨[], .nil, List.forall_mem_nil _, Except.ok.inj h⟩
    · rintro ⟨_, ⟨⟩, -, rfl⟩
      rfl
  | [_], acc => by
    constructor
    · intro h
      cases h
    · rintro ⟨_, ⟨⟩, -⟩
  | value :: label :: rest, acc => by
    constructor
    · intro h
      obtain ⟨k, hk, h⟩ := bind_eq_ok.1 h
      split at h
      · cases h
      · rename_i p hp
        obtain ⟨x, hx, h⟩ := bind_eq_ok.1 h
        have hx := block_eq_ok.1 hx
        have hreached : m.reachedOf p = x.reachable := blockField_eq hx
        have hlabel : m.kindOf label = some (.block p) := by
          cases k <;> cases hp
          exact kind_eq_ok.1 hk
        have hplt := (Array.getElem?_eq_some_iff.1 hx).1
        split at h
        · rename_i hr
          obtain ⟨k, hk, h⟩ := bind_eq_ok.1 h
          obtain ⟨hlt, rfl⟩ := known_eq_ok.1 hk
          obtain ⟨incoming, hincoming, hrest, ht⟩ := transferPhi_eq_ok.1 h
          refine ⟨_, .cons hlabel hplt hincoming, ?_⟩
          rw [Origin.reads_cons_of_pos (hreached.trans hr)]
          exact ⟨List.forall_mem_cons.2 ⟨hlt, hrest⟩, ht⟩
        · rename_i hr
          obtain ⟨incoming, hincoming, hrest, ht⟩ := transferPhi_eq_ok.1 h
          refine ⟨_, .cons hlabel hplt hincoming, ?_⟩
          rw [Origin.reads_cons_of_neg (hreached ▸ hr)]
          exact ⟨hrest, ht⟩
    · rintro ⟨_, ⟨⟩ | ⟨hlabel, hplt, hincoming⟩, hlt, ht⟩
      obtain ⟨x, hx, hreached, -⟩ := block_eq hplt
      refine bind_eq_ok.2 ⟨_, kind_eq hlabel, bind_eq_ok.2 ⟨x, hx, ?_⟩⟩
      by_cases hr : x.reachable = true
      · rw [Origin.reads_cons_of_pos (hreached.trans hr)] at hlt ht
        obtain ⟨hvalue, hrest⟩ := List.forall_mem_cons.1 hlt
        rw [if_pos hr]
        exact bind_eq_ok.2 ⟨_, known_eq hvalue, transferPhi_eq_ok.2 ⟨_, hincoming, hrest, ht⟩⟩
      · rw [Origin.reads_cons_of_neg (hreached ▸ hr)] at hlt ht
        rw [if_neg hr]
        exact transferPhi_eq_ok.2 ⟨_, hincoming, hlt, ht⟩

theorem transferPair_eq_ok {eval : Int64 → Int64 → Option Int64} :
    m.transferPair v eval = .ok t ↔ ∃ l r, (m.operandsOf v)[0]? = some l ∧
      (m.operandsOf v)[1]? = some r ∧ (∀ o ∈ [l, r], o.idx < m.values.size) ∧
      .combine eval (m.knownOf l) (m.knownOf r) = t := by
  constructor
  · intro h
    obtain ⟨l, hl, h⟩ := bind_eq_ok.1 h
    obtain ⟨_, hkl, h⟩ := bind_eq_ok.1 h
    obtain ⟨r, hr, h⟩ := bind_eq_ok.1 h
    obtain ⟨_, hkr, h⟩ := bind_eq_ok.1 h
    obtain ⟨hltl, rfl⟩ := known_eq_ok.1 hkl
    obtain ⟨hltr, rfl⟩ := known_eq_ok.1 hkr
    exact ⟨l, r, operand_eq_ok.1 hl, operand_eq_ok.1 hr, by simp [hltl, hltr], Except.ok.inj h⟩
  · rintro ⟨l, r, hl, hr, hlt, rfl⟩
    exact bind_eq_ok.2 ⟨l, operand_eq hl, bind_eq_ok.2 ⟨_, known_eq (hlt l (by simp)),
      bind_eq_ok.2 ⟨r, operand_eq hr, bind_eq_ok.2 ⟨_, known_eq (hlt r (by simp)), rfl⟩⟩⟩⟩

theorem HasOrigin.transfer {A : Origin} (h : m.HasOrigin v A)
    (hlt : ∀ o ∈ A.reads m.reachedOf, o.idx < m.values.size) :
    m.transfer v = .ok (A.tells m.knownOf m.reachedOf) := by
  obtain ⟨k, hk⟩ : ∃ k, m.kindOf v = some k := by
    cases h <;> exact ⟨_, ‹_›⟩
  obtain ⟨x, hx, rfl⟩ := kindOf_eq_some.1 hk
  have hops : x.operands = m.operandsOf v := (valueField_eq hx).symm
  refine bind_eq_ok.2 ⟨x, value_eq_ok.2 hx, ?_⟩
  cases h with
  | value hk' hn =>
    cases hk.symm.trans hk'
    rw [hn]
    exact congrArg Except.ok (valueField_eq hx).symm
  | phi hk' hincoming =>
    rw [Option.some.inj (hk.symm.trans hk'), hops]
    exact transferPhi_eq_ok.2 ⟨_, hincoming, hlt, rfl⟩
  | @move k o hk' hmove ho =>
    rw [Option.some.inj (hk.symm.trans hk')]
    have hread := bind_eq_ok.2 ⟨o, operand_eq ho, known_eq (hlt o (List.mem_singleton_self o))⟩
    rcases hmove with rfl | rfl
    · exact hread
    · exact hread
  | binary hk' hl hr =>
    rw [Option.some.inj (hk.symm.trans hk')]
    exact transferPair_eq_ok.2 ⟨_, _, hl, hr, hlt, rfl⟩
  | compare hk' hl hr =>
    rw [Option.some.inj (hk.symm.trans hk')]
    exact transferPair_eq_ok.2 ⟨_, _, hl, hr, hlt, rfl⟩
  | @impure k hk' hn =>
    rw [Option.some.inj (hk.symm.trans hk')]
    cases k <;> first | rfl | cases hn

/-- The operands of a value tell something just if what is known of it has an origin, and then they
tell what that does. -/
theorem transfer_eq_ok : m.transfer v = .ok t ↔ ∃ A, m.HasOrigin v A ∧
    (∀ o ∈ A.reads m.reachedOf, o.idx < m.values.size) ∧ A.tells m.knownOf m.reachedOf = t := by
  constructor
  · intro h
    obtain ⟨x, hx, h⟩ := bind_eq_ok.1 h
    have hx := value_eq_ok.1 hx
    have hlt := (Array.getElem?_eq_some_iff.1 hx).1
    have hkind : m.kindOf v = some x.kind := kindOf_eq_some.2 ⟨x, hx, rfl⟩
    have hops : x.operands = m.operandsOf v := (valueField_eq hx).symm
    cases hk : x.kind with
    | inst k =>
      rw [hk] at h hkind
      cases k with
      | phi =>
        obtain ⟨incoming, hincoming, hlt, ht⟩ := transferPhi_eq_ok.1 (hops ▸ h)
        exact ⟨_, .phi hkind hincoming, hlt, ht⟩
      | sext | cast =>
        obtain ⟨o, ho, h⟩ := bind_eq_ok.1 h
        obtain ⟨hlt, ht⟩ := known_eq_ok.1 h
        exact ⟨_, .move hkind (by simp) (operand_eq_ok.1 ho), by simpa [Origin.reads], ht⟩
      | binary op =>
        obtain ⟨l, r, hl, hr, hlt, ht⟩ := transferPair_eq_ok.1 h
        exact ⟨_, .binary hkind hl hr, hlt, ht⟩
      | compare op =>
        obtain ⟨l, r, hl, hr, hlt, ht⟩ := transferPair_eq_ok.1 h
        exact ⟨_, .compare hkind hl hr, hlt, ht⟩
      | br | gep | ret | load | store | call | alloca =>
        exact ⟨_, .impure hkind rfl, List.forall_mem_nil _, Except.ok.inj h⟩
    | const | global | param | block =>
      rw [hk] at h
      exact ⟨_, .value hkind (by rw [hk]; rfl), by simpa [Origin.reads],
        (valueField_eq hx).trans (Except.ok.inj h)⟩
  · rintro ⟨A, hA, hlt, rfl⟩
    exact hA.transfer hlt

/-! ## Two states of a module -/

/-- Two states of a module, the first of which is lower: less is known of values there, and more
blocks are marked. -/
structure Below (lo hi : Module) : Prop where
  skeleton : lo.skeleton = hi.skeleton
  known : ∀ w, lo.knownOf w ≤ hi.knownOf w
  reached : ∀ b, hi.reachedOf b = true → lo.reachedOf b = true

/-- An instruction with operands in which the verifier finds nothing wrong, for some function. -/
structure Shaped (m : Module) (v : ValueId) : Prop where
  shape : ∃ f k, m.kindOf v = some (.inst k) ∧ m.shapeDefect f k (m.operandsOf v) = .ok none
  operand_lt : ∀ o ∈ m.operandsOf v, o.idx < m.values.size

section Skeleton

variable (h : m'.skeleton = m.skeleton)
include h

theorem values_size_of_skeleton : m'.values.size = m.values.size := by
  have hs := congrArg (·.values.size) h
  simpa [skeleton] using hs

theorem blocks_size_of_skeleton : m'.blocks.size = m.blocks.size := by
  have hs := congrArg (·.blocks.size) h
  simpa [skeleton] using hs

theorem Incoming.of_skeleton {operands : List ValueId} {incoming : List (ValueId × BlockId)}
    (hi : m.Incoming operands incoming) : m'.Incoming operands incoming := by
  induction hi with
  | nil => exact .nil
  | cons hlabel hp _ ih =>
    exact .cons (kindOf_of_skeleton h ▸ hlabel) (blocks_size_of_skeleton h ▸ hp) ih

/-- Where what is known comes from does not depend on what is known. -/
theorem HasOrigin.of_skeleton {A : Origin} (hA : m.HasOrigin v A) : m'.HasOrigin v A := by
  have hkind := kindOf_of_skeleton h
  have hops := operandsOf_of_skeleton h
  cases hA with
  | value hk hn => exact .value (hkind ▸ hk) hn
  | phi hk hi => exact .phi (hkind ▸ hk) (hops ▸ hi.of_skeleton h)
  | move hk hmove ho => exact .move (hkind ▸ hk) hmove (hops ▸ ho)
  | binary hk hl hr => exact .binary (hkind ▸ hk) (hops ▸ hl) (hops ▸ hr)
  | compare hk hl hr => exact .compare (hkind ▸ hk) (hops ▸ hl) (hops ▸ hr)
  | impure hk hn => exact .impure (hkind ▸ hk) hn

end Skeleton

theorem PhiPairs.incoming : ∀ {operands : List ValueId}, m.PhiPairs f operands →
    ∃ incoming, m.Incoming operands incoming
  | [], _ => ⟨[], .nil⟩
  | [_], h => absurd h id
  | _ :: _ :: _, ⟨_, ⟨_, hlabel, hf⟩, hrest⟩ => by
    obtain ⟨incoming, hi⟩ := PhiPairs.incoming hrest
    exact ⟨_, .cons hlabel (lt_of_funcOf hf) hi⟩

theorem Incoming.mem {operands : List ValueId} {incoming : List (ValueId × BlockId)}
    (h : m.Incoming operands incoming) {i : ValueId × BlockId} (hi : i ∈ incoming) :
    i.1 ∈ operands := by
  induction h with
  | nil => cases hi
  | cons _ _ _ ih =>
    rcases List.mem_cons.1 hi with rfl | hi
    · exact List.mem_cons_self
    · exact List.mem_cons_of_mem _ (List.mem_cons_of_mem _ (ih hi))

/-- What is known of an instruction of the right shape comes from its operands. -/
theorem Shaped.exists_origin (h : m.Shaped v) :
    ∃ A, m.HasOrigin v A ∧ ∀ reached, ∀ o ∈ A.reads reached, o.idx < m.values.size := by
  obtain ⟨⟨f, k, hk, hshape⟩, hlt⟩ := h
  have hfits := fits_of_shapeDefect hshape
  cases k with
  | phi =>
    obtain ⟨incoming, hi⟩ := PhiPairs.incoming hfits
    refine ⟨_, .phi hk hi, fun reached o ho => ?_⟩
    obtain ⟨i, hmem, rfl⟩ := List.mem_map.1 ho
    exact hlt _ (hi.mem (List.mem_filter.1 hmem).1)
  | sext | cast =>
    obtain ⟨o, ho⟩ := List.length_eq_one_iff.1 hfits
    rw [ho] at hlt
    exact ⟨_, .move hk (by simp) (by rw [ho]; rfl), fun _ => hlt⟩
  | binary op =>
    obtain ⟨l, r, ho⟩ := List.length_eq_two.1 hfits
    rw [ho] at hlt
    exact ⟨_, .binary hk (by rw [ho]; rfl) (by rw [ho]; rfl), fun _ => hlt⟩
  | compare op =>
    obtain ⟨l, r, ho⟩ := List.length_eq_two.1 hfits
    rw [ho] at hlt
    exact ⟨_, .compare hk (by rw [ho]; rfl) (by rw [ho]; rfl), fun _ => hlt⟩
  | br | gep | ret | load | store | call | alloca =>
    exact ⟨_, .impure hk rfl, fun _ => List.forall_mem_nil _⟩

/-- In a lower state the operands of an instruction tell less. -/
theorem Below.transfer_le (h : lo.Below hi) (hv : hi.Shaped v) :
    ∃ a b, lo.transfer v = .ok a ∧ hi.transfer v = .ok b ∧ a ≤ b := by
  obtain ⟨A, hA, hlt⟩ := hv.exists_origin
  have hlt' : ∀ o ∈ A.reads lo.reachedOf, o.idx < lo.values.size :=
    values_size_of_skeleton h.skeleton ▸ hlt _
  exact ⟨_, _, (hA.of_skeleton h.skeleton).transfer hlt', hA.transfer (hlt _),
    A.tells_mono h.known h.reached⟩

/-! ## One step down -/

theorem setValue_eq_self {x : Value} (hx : m.values[v.idx]? = some x) : m.setValue v x = m := by
  have hvals : m.values.setIfInBounds v.idx x = m.values := by
    refine Array.ext_getElem? fun i => ?_
    rw [Array.getElem?_setIfInBounds]
    by_cases hi : v.idx = i
    · subst hi
      rw [if_pos rfl, if_pos (Array.getElem?_eq_some_iff.1 hx).1, hx]
    · rw [if_neg hi]
  rw [setValue, hvals]

/-- The meet of what was known and what the operands tell is stored. -/
theorem propagate_eq_ok {changed : Bool} : m.propagate v = .ok (changed, m') ↔
    ∃ x, m.values[v.idx]? = some x ∧ ∃ t, m.transfer v = .ok t ∧
      m' = m.setValue v { x with known := x.known.meet t } ∧
      changed = decide (x.known.meet t ≠ x.known) := by
  constructor
  · intro h
    obtain ⟨x, t, hx, ht, hcases⟩ := propagate_cases h
    refine ⟨x, hx, t, ht, ?_⟩
    obtain ⟨hsame, rfl, rfl⟩ | ⟨hne, rfl, rfl⟩ := hcases
    · rw [hsame]
      exact ⟨(setValue_eq_self hx).symm, (decide_eq_false (not_not.2 rfl)).symm⟩
    · exact ⟨rfl, (decide_eq_true hne).symm⟩
  · rintro ⟨x, hx, t, ht, rfl, rfl⟩
    refine bind_eq_ok.2 ⟨x, value_eq_ok.2 hx, bind_eq_ok.2 ⟨t, ht, ?_⟩⟩
    by_cases hsame : x.known.meet t = x.known
    · rw [if_pos hsame, hsame, setValue_eq_self hx, decide_eq_false (not_not.2 rfl)]
      rfl
    · rw [if_neg hsame, decide_eq_true hsame]
      rfl

/-- A second call finds nothing to record, also where an instruction uses itself. -/
theorem propagate_propagate {changed : Bool} (h : m.propagate v = .ok (changed, m')) :
    m'.propagate v = .ok (false, m') := by
  obtain ⟨x, hx, t, ht, rfl, -⟩ := propagate_eq_ok.1 h
  obtain ⟨A, hA, hlt, rfl⟩ := transfer_eq_ok.1 ht
  generalize hm' : m.setValue v { x with known := x.known.meet _ } = m'
  have hskel : m'.skeleton = m.skeleton := hm' ▸ skeleton_setValue hx _
  have hreached : m'.reachedOf = m.reachedOf := hm' ▸ rfl
  have hknown (w : ValueId) : m'.knownOf w =
      if w = v then x.known.meet (A.tells m.knownOf m.reachedOf) else m.knownOf w :=
    hm' ▸ Solver.knownOf_setValue hx _
  have hx' : m'.values[v.idx]? = some { x with known := m'.knownOf v } := by
    rw [hknown, if_pos rfl, ← hm', values_setValue, if_pos rfl, hx]
    rfl
  have hself : m'.knownOf v = (m.knownOf v).meet (A.tells m.knownOf m.reachedOf) := by
    rw [hknown, if_pos rfl, show m.knownOf v = x.known from valueField_eq hx]
  have hsettled : m'.knownOf v ≤ A.tells m'.knownOf m'.reachedOf := by
    rw [hreached]
    exact A.settles hself fun w hw => (hknown w).trans (if_neg hw)
  have hlt' : ∀ o ∈ A.reads m'.reachedOf, o.idx < m'.values.size := by
    rw [hreached, values_size_of_skeleton hskel]
    exact hlt
  have hsame : (m'.knownOf v).meet (A.tells m'.knownOf m'.reachedOf) = m'.knownOf v :=
    inf_eq_left.2 hsettled
  refine propagate_eq_ok.2 ⟨_, hx', _, (hA.of_skeleton hskel).transfer hlt', ?_, ?_⟩
  · rw [hsame, setValue_eq_self hx']
  · rw [hsame, decide_eq_false (not_not.2 rfl)]

/-- What the operands of an instruction tell goes down with what is known, and `propagate` goes
down, touches nothing but the lattice value of its instruction, and gets there in one call. -/
theorem propagate_descends (v : ValueId) :
    (∀ {lo hi : Module}, lo.Below hi → hi.Shaped v →
      ∃ a b, lo.transfer v = .ok a ∧ hi.transfer v = .ok b ∧ a ≤ b) ∧
    (∀ {m : Module}, m.Shaped v → ∃ changed m', m.propagate v = .ok (changed, m')) ∧
    ∀ {m m' : Module} {changed : Bool}, m.propagate v = .ok (changed, m') →
      m'.knownOf v ≤ m.knownOf v ∧ (changed = true ↔ m'.knownOf v ≠ m.knownOf v) ∧
      (∀ w, w ≠ v → m'.values[w.idx]? = m.values[w.idx]?) ∧ m'.skeleton = m.skeleton ∧
      m'.blocks = m.blocks ∧ m'.propagate v = .ok (false, m') := by
  refine ⟨Below.transfer_le, fun {m} hv => ?_, fun {m m' changed} h => ?_⟩
  · obtain ⟨A, hA, hlt⟩ := hv.exists_origin
    obtain ⟨⟨f, k, hk, -⟩, -⟩ := hv
    obtain ⟨x, hx, -⟩ := kindOf_eq_some.1 hk
    exact ⟨_, _, propagate_eq_ok.2 ⟨x, hx, _, hA.transfer (hlt _), rfl, rfl⟩⟩
  · obtain ⟨x, hx, t, -, rfl, rfl⟩ := propagate_eq_ok.1 h
    have hold : m.knownOf v = x.known := valueField_eq hx
    have hnew := Solver.knownOf_setValue (u := v) hx (x.known.meet t)
    rw [if_pos rfl] at hnew
    refine ⟨?_, ?_, fun w hw => ?_, skeleton_setValue hx _, rfl, propagate_propagate h⟩
    · rw [hnew, hold]
      exact Constness.meet_le_left _ _
    · rw [hnew, hold, decide_eq_true_iff]
    · rw [values_setValue, if_neg hw]

/-- The state of a module in which every block is marked. -/
def allMarked (m : Module) : Module :=
  { m with blocks := m.blocks.map fun b => { b with reachable := true } }

theorem allMarked_below (m : Module) : m.allMarked.Below m where
  skeleton := by simp [Module.skeleton, allMarked, Function.comp_def]
  known _ := le_rfl
  reached b hr := by
    rw [reachedOf, blockField] at hr ⊢
    rw [allMarked, Array.getElem?_map]
    cases hb : m.blocks[b.idx]? with
    | none =>
      rw [hb] at hr
      cases hr
    | some x => rfl

/-- A phi that takes a constant from the entry and itself from its own block. -/
def spinActions : List Action := [
  .addFunction "spin" .void [],
  .addBlock ⟨0⟩ "entry", .addBlock ⟨0⟩ "loop",
  .addConst (.int 1) .i32,
  .build ⟨1⟩ (.phi .i32), .build ⟨1⟩ (.addIncoming ⟨3⟩ ⟨2⟩ ⟨0⟩),
  .build ⟨1⟩ (.addIncoming ⟨3⟩ ⟨3⟩ ⟨1⟩)]

/-- The module that `spinActions` build. -/
def spinModule : Module := (spinActions.foldlM Action.run {}).toOption.getD {}

/-- Once its blocks are marked, the phi comes down to the constant, although it uses itself. -/
theorem propagate_descends_spin :
    (∃ a b, spinModule.allMarked.transfer ⟨3⟩ = .ok a ∧ spinModule.transfer ⟨3⟩ = .ok b ∧
      a ≤ b) ∧
    ∃ m', spinModule.allMarked.propagate ⟨3⟩ = .ok (true, m') ∧ m'.knownOf ⟨3⟩ = .const 1 ∧
      m'.propagate ⟨3⟩ = .ok (false, m') := by
  obtain ⟨hmono, hreturns, hstep⟩ := propagate_descends ⟨3⟩
  have hshaped : spinModule.Shaped ⟨3⟩ := by
    refine ⟨⟨⟨0⟩, .phi, ?_, ?_⟩, ?_⟩ <;> decide +kernel
  have hshaped' : spinModule.allMarked.Shaped ⟨3⟩ := by
    refine ⟨⟨⟨0⟩, .phi, ?_, ?_⟩, ?_⟩ <;> decide +kernel
  refine ⟨hmono (allMarked_below _) hshaped, ?_⟩
  obtain ⟨changed, m', h⟩ := hreturns hshaped'
  have hfirst : (spinModule.allMarked.propagate ⟨3⟩).map (fun r => (r.1, r.2.knownOf ⟨3⟩)) =
      .ok (true, .const 1) := by decide +kernel
  rw [h] at hfirst
  obtain ⟨rfl, hconst⟩ := Prod.ext_iff.1 (Except.ok.inj hfirst)
  exact ⟨m', h, hconst, (hstep h).2.2.2.2.2⟩

end Module

end SsaCodegen
