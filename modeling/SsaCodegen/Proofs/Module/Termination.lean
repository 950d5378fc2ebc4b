import SsaCodegen.Proofs.Module.Verdict

/-!
# The verifier comes to an end

The verifier follows the forward links of a block and keeps no record of where it has been. What
stops it on a chain that goes round is the check of the backward links. As long as that check is
passed, the instructions so far, read from the latest to the first, follow the backward links to an
instruction that has none before it. Such a list comes to no item twice. So the walk is rejected, at
the latest, when it comes to an instruction for the second time, and a walk that does not come to an
instruction twice is no longer than the table of values.

Nothing is assumed of the module. Its links and the ends of its blocks may hold anything.

## Main definitions

* `Terminates` — a computation does not end for the reason that it would go on for ever

## Main results

* `Module.nodup_of_chainDefect` — a walk that passes the check comes to no instruction twice
* `Module.walkDefect_of_lt` — the verdict on a block does not depend on how far it is followed
* `Module.verify_ends` — the verifier comes to an end on every module
-/

namespace SsaCodegen

/-- A computation does not end for the reason that it would go on for ever. -/
def Terminates (x : Except Fault α) : Prop := x ≠ .error .endless

namespace Terminates

variable {x : Except Fault α} {k : α → Except Fault β}

theorem pure (a : α) : Terminates (Pure.pure a) := by rintro ⟨⟩

theorem error {e : Fault} (h : e ≠ .endless) : Terminates (.error e : Except Fault α) := by
  rintro ⟨⟩
  exact h rfl

theorem bind (hx : Terminates x) (hk : ∀ a, Terminates (k a)) : Terminates (x >>= k) := by
  cases x with
  | error e => exact .error fun he => hx (he ▸ rfl)
  | ok a => exact hk a

theorem lookup {fault : Fault} {o : Option α} (h : fault ≠ .endless) :
    Terminates (lookupOr fault o) := by
  cases o with
  | none => exact .error h
  | some a => exact .pure a

theorem firstFinding {check : α → Except Fault (Option ε)} {l : List α}
    (h : ∀ a ∈ l, Terminates (check a)) : Terminates (firstFinding check l) := by
  induction l with
  | nil => exact .pure none
  | cons a rest ih =>
    obtain ⟨ha, hrest⟩ := List.forall_mem_cons.1 h
    refine .bind ha fun found => ?_
    cases found with
    | some e => exact .pure _
    | none => exact ih hrest

end Terminates

namespace Module

variable {m : Module} {f : FuncId} {b : BlockId} {last : ValueId} {start : Option ValueId}

/-! ## What the verifier looks up -/

theorem value_terminates (v : ValueId) : Terminates (m.value v) := .lookup nofun

theorem func_terminates (f : FuncId) : Terminates (m.func f) := .lookup nofun

theorem block_terminates (b : BlockId) : Terminates (m.block b) := .lookup nofun

theorem valueDefect_terminates (v : ValueId) : Terminates (m.valueDefect v) := by
  refine .bind (value_terminates v) fun x => .bind (.firstFinding fun q _ => ?_) fun found => ?_
  · refine .bind (.bind (.lookup nofun) fun _ => .pure _) fun uses => ?_
    split <;> exact .pure _
  · cases found with
    | some d => exact .pure _
    | none =>
      refine .firstFinding fun u _ => .bind (.bind (value_terminates _) fun _ => .pure _) ?_
      intro operands
      split <;> exact .pure _

theorem locationOf_terminates (v : ValueId) : Terminates (m.locationOf v) := by
  refine .bind (value_terminates v) fun x => ?_
  split
  · exact .pure _
  · refine .bind (block_terminates _) fun y => ?_
    exact .bind (func_terminates _) fun _ => .pure _

theorem verifyUses_terminates : Terminates m.verifyUses := by
  refine .firstFinding fun i _ => .bind (valueDefect_terminates _) fun found => ?_
  cases found with
  | none => exact .pure _
  | some d => exact .bind (locationOf_terminates _) fun _ => .pure _

theorem shapeDefect_terminates (kind : InstKind) (operands : List ValueId) :
    Terminates (m.shapeDefect f kind operands) := by
  cases kind with
  | ret | call => exact .bind (func_terminates _) fun _ => .pure _
  | br | phi | binary | compare | gep | store | load | sext | cast | alloca => exact .pure _

theorem chainDefect_terminates (prev : Option ValueId) (inBody : Bool) (l : List ValueId) :
    Terminates (m.chainDefect f b last prev inBody l) := by
  induction l generalizing prev inBody with
  | nil => exact .pure none
  | cons inst rest ih =>
    refine .bind (value_terminates inst) fun x => ?_
    split
    · exact .pure _
    split
    · exact .error nofun
    split
    · exact .pure _
    split
    · exact .pure _
    refine .bind (shapeDefect_terminates _ _) fun found => ?_
    cases found with
    | some d => exact .pure _
    | none => exact ih _ _

/-! ## Walks of different lengths -/

/-- A longer walk begins like a shorter one, and is the same if the shorter one was not broken
off. -/
theorem walk_of_le {n k : Nat} (h : n ≤ k) (start : Option ValueId) :
    (m.walk n start).insts <+: (m.walk k start).insts ∧
      ((m.walk n start).ending ≠ .endless → m.walk k start = m.walk n start) := by
  induction n generalizing k start with
  | zero =>
    cases start with
    | none => cases k <;> exact ⟨List.prefix_rfl, fun _ => rfl⟩
    | some v => exact ⟨List.nil_prefix, fun hend => absurd rfl hend⟩
  | succ n ih =>
    obtain ⟨k, rfl⟩ := Nat.exists_eq_add_of_le' h
    cases start with
    | none => exact ⟨List.prefix_rfl, fun _ => rfl⟩
    | some v =>
      rw [← Nat.add_assoc, walk, walk]
      cases hx : m.values[v.idx]? with
      | none => exact ⟨List.prefix_rfl, fun _ => rfl⟩
      | some x =>
        obtain ⟨hstart, hsame⟩ := ih (Nat.le_add_left n k) x.link.next
        refine ⟨(List.prefix_cons_inj v).2 hstart, fun hend => ?_⟩
        dsimp only
        rw [hsame hend]

/-- A walk that was broken off has made all its steps. -/
theorem length_walk_of_endless {n : Nat} (h : (m.walk n start).ending = .endless) :
    (m.walk n start).insts.length = n := by
  induction n generalizing start with
  | zero => exact Nat.eq_zero_of_le_zero (m.length_walk_le 0 start)
  | succ n ih =>
    cases start with
    | none => cases h
    | some v =>
      rw [walk] at h ⊢
      cases hx : m.values[v.idx]? with
      | none =>
        rw [hx] at h
        cases h
      | some x =>
        rw [hx] at h
        exact congrArg (· + 1) (ih h)

/-- With more steps than there are values, a walk that is broken off came to some instruction
twice. -/
theorem not_nodup_of_endless {n : Nat} (hn : m.values.size < n)
    (h : (m.walk n start).ending = .endless) : ¬(m.walk n start).insts.Nodup := by
  intro hnodup
  have hlen := length_le_of_nodup hnodup fun v hv => lt_of_mem_walk hv
  rw [length_walk_of_endless h] at hlen
  omega

/-! ## What the check says of a walk -/

/-- The check of an instruction settles the matter, or it is left to the instructions after it. -/
theorem chainDefect_cons (prev : Option ValueId) (inBody : Bool) (inst : ValueId) :
    (∃ r, ∀ rest, m.chainDefect f b last prev inBody (inst :: rest) = r) ∨
      ∃ inBody', ∀ rest, m.chainDefect f b last prev inBody (inst :: rest) =
        m.chainDefect f b last (some inst) inBody' rest := by
  simp only [chainDefect]
  cases m.value inst with
  | error e => exact .inl ⟨.error e, fun rest => rfl⟩
  | ok x =>
    simp only [bind, Except.bind]
    split
    · exact .inl ⟨_, fun rest => rfl⟩
    cases x.kind.asInst with
    | none => exact .inl ⟨_, fun rest => rfl⟩
    | some kind =>
      dsimp only
      split
      · exact .inl ⟨_, fun rest => rfl⟩
      split
      · exact .inl ⟨_, fun rest => rfl⟩
      cases m.shapeDefect f kind x.operands with
      | error e => exact .inl ⟨_, fun rest => rfl⟩
      | ok found =>
        cases found with
        | some d => exact .inl ⟨_, fun rest => rfl⟩
        | none => exact .inr ⟨_, fun rest => rfl⟩

/-- A list that is not clean is not made so by what comes after it. -/
theorem chainDefect_append {prev : Option ValueId} {inBody : Bool} {p : List ValueId}
    (s : List ValueId) (h : m.chainDefect f b last prev inBody p ≠ .ok none) :
    m.chainDefect f b last prev inBody (p ++ s) = m.chainDefect f b last prev inBody p := by
  induction p generalizing prev inBody with
  | nil => exact absurd rfl h
  | cons inst rest ih =>
    rw [List.cons_append]
    rcases chainDefect_cons prev inBody inst with ⟨r, hr⟩ | ⟨inBody', hnext⟩
    · rw [hr, hr]
    · rw [hnext] at h
      rw [hnext, hnext, ih h]

/-- A list that passes the check comes to no instruction twice: read backwards, it follows the
links to the instruction before. -/
theorem nodup_of_chainDefect {inBody : Bool} {l : List ValueId}
    (h : m.chainDefect f b last none inBody l = .ok none) : l.Nodup := by
  have hback : Follows (fun v => (m.linkOf v).prev) l.reverse := by
    intro p v s hl
    have hsplit : l = s.reverse ++ v :: p.reverse := by
      rw [← List.reverse_reverse l, hl]
      simp
    have hprev : (m.linkOf v).prev = s.reverse.getLast? := (chainDefect_link h hsplit).2
    rw [List.getLast?_reverse] at hprev
    exact hprev
  exact List.nodup_reverse.1 hback.nodup

/-! ## The verdict on a block -/

/-- A walk that came to an instruction twice has been rejected by then, and so is every longer
one, for the same reason. -/
theorem walkDefect_of_not_nodup {n k : Nat} (hdup : ¬(m.walk n start).insts.Nodup) (h : n ≤ k) :
    m.walkDefect f b last (m.walk k start) =
        m.chainDefect f b last none false (m.walk n start).insts ∧
      m.chainDefect f b last none false (m.walk n start).insts ≠ .ok none := by
  have hne : m.chainDefect f b last none false (m.walk n start).insts ≠ .ok none := fun hclean =>
    hdup (nodup_of_chainDefect hclean)
  refine ⟨?_, hne⟩
  obtain ⟨s, hs⟩ := (walk_of_le h start).1
  rw [walkDefect, ← hs, chainDefect_append s hne]
  cases hd : m.chainDefect f b last none false (m.walk n start).insts with
  | error e => rfl
  | ok found =>
    cases found with
    | some d => rfl
    | none => exact absurd hd hne

/-- One step more than there are values shows what any number of steps does. -/
theorem walkDefect_of_lt {n : Nat} (hn : m.values.size < n) :
    m.walkDefect f b last (m.walk n start) =
      m.walkDefect f b last (m.walk (m.values.size + 1) start) := by
  by_cases hend : (m.walk (m.values.size + 1) start).ending = .endless
  · have hdup := not_nodup_of_endless (Nat.lt_succ_self _) hend
    rw [(walkDefect_of_not_nodup hdup hn).1, (walkDefect_of_not_nodup hdup (Nat.le_refl _)).1]
  · rw [(walk_of_le hn start).2 hend]

theorem walkDefect_terminates {n : Nat} (hn : m.values.size < n) :
    Terminates (m.walkDefect f b last (m.walk n start)) := by
  by_cases hend : (m.walk n start).ending = .endless
  · rw [(walkDefect_of_not_nodup (not_nodup_of_endless hn hend) (Nat.le_refl _)).1]
    exact chainDefect_terminates _ _ _
  · refine .bind (chainDefect_terminates _ _ _) fun found => ?_
    cases found with
    | some d => exact .pure _
    | none =>
      refine .bind ?_ fun _ => .pure _
      cases hc : (m.walk n start).ending with
      | closed => exact .pure ()
      | dangling v => exact .error nofun
      | endless => exact absurd hc hend

theorem blockDefect_terminates (f : FuncId) (b : BlockId) : Terminates (m.blockDefect f b) := by
  refine .bind (block_terminates b) fun x => ?_
  split
  · exact .pure _
  · exact walkDefect_terminates (Nat.lt_succ_self _)

/-- The verdict on a block whose last instruction is `last`, from the walk along it. -/
theorem blockDefect_eq {x : Block} (hx : m.blocks[b.idx]? = some x) (hlast : x.last = some last) :
    m.blockDefect f b = m.walkDefect f b last (m.walk (m.values.size + 1) x.first) := by
  rw [blockDefect, block_eq_ok.2 hx]
  simp only [bind, Except.bind, hlast]

/-- On every module, whatever its links and the ends of its blocks hold, the verifier comes to an
end. So does its walk along each block: if the walk comes to an instruction twice, the verdict on
the block is not clean and is that of the instructions up to there, and a module with such a block
in a function is rejected. However far the walk is followed beyond the number of values, the verdict
is the same. -/
theorem verify_ends (m : Module) :
    m.verify ≠ .error .endless ∧
      ∀ (f : FuncId) (b : BlockId) (x : Block) (last : ValueId), m.blocks[b.idx]? = some x →
        x.last = some last → m.blockDefect f b ≠ .error .endless ∧ ∀ n,
          (¬(m.walk n x.first).insts.Nodup → m.blockDefect f b ≠ .ok none ∧
            m.blockDefect f b = m.chainDefect f b last none false (m.walk n x.first).insts ∧
            (b ∈ m.blocksOf f → m.verify ≠ .ok none)) ∧
          (m.values.size < n →
            m.blockDefect f b = m.walkDefect f b last (m.walk n x.first)) := by
  refine ⟨?_, fun f b x last hx hlast => ⟨blockDefect_terminates f b, fun n => ⟨?_, fun hn => ?_⟩⟩⟩
  · refine Terminates.bind verifyUses_terminates fun found => ?_
    cases found with
    | some e => exact .pure _
    | none =>
      refine .firstFinding fun f _ => .bind (func_terminates f) fun y => .firstFinding fun b _ => ?_
      refine .bind (blockDefect_terminates f b) fun found => ?_
      cases found with
      | none => exact .pure _
      | some d => exact .bind (block_terminates b) fun _ => .pure _
  · intro hdup
    -- a walk of at least `n` steps, and of more than there are values
    have hlong : m.blockDefect f b =
        m.walkDefect f b last (m.walk (n + (m.values.size + 1)) x.first) := by
      rw [blockDefect_eq hx hlast, walkDefect_of_lt (n := n + (m.values.size + 1)) (by omega)]
    have hchain := hlong.trans (walkDefect_of_not_nodup hdup (Nat.le_add_right n _)).1
    have hdefect : m.blockDefect f b ≠ .ok none := by
      rw [hchain]
      exact (walkDefect_of_not_nodup hdup (Nat.le_refl n)).2
    exact ⟨hdefect, hchain, fun hb hverify => hdefect (blockDefect_of_mem_blocksOf hverify hb)⟩
  · rw [blockDefect_eq hx hlast, walkDefect_of_lt hn]

/-- A block with a sum and a return, after which its links lead back to the sum. -/
def circleModule : Module :=
  (do
    let m ← [Action.addFunction "f" .i32 [("x", .i32)], .addBlock ⟨0⟩ "entry",
      .build ⟨0⟩ (.binary .add ⟨0⟩ ⟨0⟩), .build ⟨0⟩ (.ret (some ⟨2⟩))].foldlM Action.run {}
    m.modifyValue ⟨3⟩ fun x => { x with link := { x.link with next := some ⟨2⟩ } }).toOption.getD {}

/-- The walk comes to the sum twice and is rejected there. -/
theorem verify_ends_ring :
    circleModule.verify ≠ .error .endless ∧ circleModule.verify ≠ .ok none ∧
      (circleModule.walk 3 (some ⟨2⟩)).insts = [⟨2⟩, ⟨3⟩, ⟨2⟩] ∧
      circleModule.blockDefect ⟨0⟩ ⟨0⟩ = .ok (some (.brokenList ⟨2⟩)) := by
  obtain ⟨hverify, hblocks⟩ := verify_ends circleModule
  have hwalk : (circleModule.walk 3 (some ⟨2⟩)).insts = [⟨2⟩, ⟨3⟩, ⟨2⟩] := by decide +kernel
  have hx : circleModule.blocks[0]? = some ⟨"entry", ⟨0⟩, ⟨1⟩, false, some ⟨2⟩, some ⟨3⟩⟩ := by
    decide +kernel
  obtain ⟨-, hn⟩ := hblocks ⟨0⟩ ⟨0⟩ _ ⟨3⟩ hx rfl
  have hdup : ¬(circleModule.walk 3 (some ⟨2⟩)).insts.Nodup := by
    rw [hwalk]
    decide
  obtain ⟨-, hchain, hreject⟩ := (hn 3).1 hdup
  refine ⟨hverify, hreject (by decide +kernel), hwalk, hchain.trans ?_⟩
  decide +kernel

end Module

end SsaCodegen
