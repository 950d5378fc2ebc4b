import SsaCodegen.Proofs.Module.Sequences

/-!
# What edits of the graph do

A caller of an edit wants to know what has become of every value. A removal with users takes the
transitive users of an instruction away and leaves everybody else in place. A replacement moves the
uses of a value behind those of another, in order, whichever of the two uses the other or itself.

An edit that is refused should not have touched anything. This is so for a changed operand and for a
replacement, which look before they write. A removal with users writes first: it has taken its own
instruction out of the block before it looks at the users, so that a user that is no instruction, a
constant with an operand for example, stops it midway. `Module.Touches` says exactly when something
was written by then.

## Main definitions

* `Module.Touches` — a removal with users writes before it looks at a user that it may refuse

## Main results

* `Module.disconnect_cascades` — a removal with users takes off the transitive users
* `Module.replaceAllUses_redirects` — a replacement redirects all uses
* `Module.Built.refused_edits` — what edits that are refused leave behind
-/

namespace SsaCodegen

namespace Module

variable {m m₁ m' : Module} {lists : BlockId → List ValueId} {inst u v old new : ValueId}
  {r : Except GraphError Unit} {gone severed : List ValueId}

/-! ## Removals with users -/

/-- A value whose users have all lost their operands has no uses. -/
theorem Removal.usesOf_eq_nil (h : Removal m lists gone severed m')
    (hv : ∀ u, m.UsedBy v u → u ∈ severed) : m'.usesOf v = [] := by
  refine List.eq_nil_iff_forall_not_mem.2 fun use huse => ?_
  have huse : m'.UsedBy v use.user := List.mem_of_getElem? (h.mirrored.mem.1 huse)
  obtain ⟨huse, hkept⟩ := h.usedBy_iff.1 huse
  exact hkept (hv use.user huse)

/-- A value that was not removed is in the block where it was. -/
theorem Removal.block_eq (h : Removal m lists gone severed m') (ht : Threads m lists)
    (hv : v ∉ gone) : (m'.linkOf v).block = (m.linkOf v).block := by
  refine Option.ext fun b => ⟨fun hb => ?_, fun hb => ?_⟩
  · exact ht.block_of_mem (List.mem_filter.1 (h.threads.mem_of_block hb)).1
  · exact h.threads.block_of_mem (List.mem_filter.2 ⟨ht.mem_of_block hb, decide_eq_true hv⟩)

/-- A removal with users succeeds if only instructions have operands, on cycles of users as well.
The instruction and its transitive users are then in no block and have no uses, and the transitive
users have no operands. The instruction itself keeps its operands, unless they were to be dropped or
it is one of its own transitive users. All other values keep their operands and their block, and
those that are in a block stay in the same order. -/
theorem disconnect_cascades (hm : Mirrored m) (ht : Threads m m.instsOf)
    (hops : ∀ v, m.operandsOf v ≠ [] → m.IsInst v) (hinst : m.IsInst inst) (operands : Bool) :
    ∃ m', ∃ gone : List ValueId, m.disconnect inst operands true = .ok (.ok (), m') ∧
      (∀ v, v ∈ gone ↔ Relation.ReflTransGen m.UsedBy inst v) ∧
      (∀ v ∈ gone, (∀ b, v ∉ m'.instsOf b) ∧ m'.linkOf v = {} ∧ m'.usesOf v = []) ∧
      (∀ v, Relation.TransGen m.UsedBy inst v → m'.operandsOf v = []) ∧
      (m'.operandsOf inst = [] ↔ operands = true ∨ Relation.TransGen m.UsedBy inst inst ∨
        m.operandsOf inst = []) ∧
      (m'.operandsOf inst = [] ∨ m'.operandsOf inst = m.operandsOf inst) ∧
      (∀ v ∉ gone, m'.operandsOf v = m.operandsOf v ∧
        (m'.linkOf v).block = (m.linkOf v).block) ∧
      (∀ b, m'.instsOf b = (m.instsOf b).filter (· ∉ gone)) ∧
      Mirrored m' ∧ Threads m' m'.instsOf ∧ m'.bare = m.bare := by
  obtain ⟨r, m', h⟩ := Removal.exists_disconnect ht hm hinst.lt operands true
  obtain ⟨-, ⟨hok, -⟩, -⟩ := ht.removes hm h
  -- a user has an operand, and so it is an instruction
  obtain rfl : r = .ok () := by
    refine hok.2 fun v hreach => ?_
    rcases hreach.cases_tail with rfl | ⟨w, -, huse⟩
    · exact hinst
    · exact hops v (List.ne_nil_of_mem huse)
  obtain ⟨gone, severed, hrem, hgone, hsevered⟩ := Removal.cascade ht hm h
  have hinsts : m'.instsOf = fun b => (m.instsOf b).filter (· ∉ gone) := hrem.threads.instsOf_eq
  have hoff {v : ValueId} (hv : v ∈ gone) (b : BlockId) :
      v ∉ (m.instsOf b).filter (· ∉ gone) := fun hmem =>
    of_decide_eq_true (List.mem_filter.1 hmem).2 hv
  refine ⟨m', gone, h, hgone, fun v hv => ⟨fun b => ?_, hrem.threads.off (hoff hv), ?_⟩,
    fun v hv => ?_, ?_, ?_, fun v hv => ⟨?_, hrem.block_eq ht hv⟩, congrFun hinsts, hrem.mirrored,
    by rw [hinsts]; exact hrem.threads, hrem.bare⟩
  · rw [hinsts]
    exact hoff hv b
  · refine hrem.usesOf_eq_nil fun u huse => (hsevered u).2 (.inr ?_)
    exact .tail' ((hgone v).1 hv) huse
  · rw [hrem.operands, if_pos ((hsevered v).2 (.inr hv))]
  · rw [hrem.operands]
    by_cases hself : inst ∈ severed
    · have hlost := (hsevered inst).1 hself
      simp only [and_true] at hlost
      rw [if_pos hself]
      exact iff_of_true rfl (hlost.imp id .inl)
    · have hkept := mt (hsevered inst).2 hself
      simp only [and_true, not_or] at hkept
      rw [if_neg hself]
      exact ⟨fun hnil => .inr (.inr hnil),
        fun hany => (hany.resolve_left hkept.1).resolve_left hkept.2⟩
  · rw [hrem.operands]
    split
    · exact .inl rfl
    · exact .inr rfl
  · have hnot : v ∉ severed := fun hsev => by
      rcases (hsevered v).1 hsev with ⟨-, rfl⟩ | htrans
      · exact hv ((hgone v).2 .refl)
      · exact hv ((hgone v).2 htrans.to_reflTransGen)
    rw [hrem.operands, if_neg hnot]

/-- A sum that uses itself and a product that uses the sum twice and is used by it, besides another
product that has nothing to do with them. -/
def mutualActions : List Action := [
  .addFunction "f" .i32 [("n", .i32)], .addBlock ⟨0⟩ "entry",
  .build ⟨0⟩ (.binary .add ⟨0⟩ ⟨0⟩), .build ⟨0⟩ (.binary .mul ⟨2⟩ ⟨2⟩), .addOperand ⟨2⟩ ⟨2⟩,
  .addOperand ⟨2⟩ ⟨3⟩, .build ⟨0⟩ (.binary .mul ⟨0⟩ ⟨0⟩), .build ⟨0⟩ (.binary .sub ⟨2⟩ ⟨3⟩),
  .build ⟨0⟩ (.ret (some ⟨5⟩))]

/-- The module that `mutualActions` build. -/
def mutualModule : Module := (mutualActions.foldlM Action.run {}).toOption.getD {}

theorem mutualModule_built : mutualModule.Built := ⟨mutualActions, rfl⟩

/-- The sum is removed with all but the other product, and loses its operands although they were to
be kept. -/
theorem disconnect_cascades_mutual : ∃ m',
    mutualModule.disconnect ⟨2⟩ false true = .ok (.ok (), m') ∧
      mutualModule.instsOf ⟨0⟩ = [⟨2⟩, ⟨3⟩, ⟨4⟩, ⟨5⟩, ⟨6⟩] ∧ m'.instsOf ⟨0⟩ = [⟨4⟩] ∧
      m'.operandsOf ⟨2⟩ = [] ∧ m'.usesOf ⟨2⟩ = [] ∧ m'.operandsOf ⟨4⟩ = [⟨0⟩, ⟨0⟩] := by
  have hops : ∀ v, mutualModule.operandsOf v ≠ [] → mutualModule.IsInst v := by
    intro v hv
    obtain ⟨o, ho⟩ := List.exists_mem_of_ne_nil _ hv
    have hlt : v.idx < 7 := lt_of_mem_operandsOf ho
    have hall : ∀ i < 7, mutualModule.operandsOf ⟨i⟩ ≠ [] → mutualModule.IsInst ⟨i⟩ := by
      decide +kernel
    exact hall v.idx hlt hv
  have hinst : mutualModule.IsInst ⟨2⟩ := by decide +kernel
  have hinsts : mutualModule.instsOf ⟨0⟩ = [⟨2⟩, ⟨3⟩, ⟨4⟩, ⟨5⟩, ⟨6⟩] := by decide +kernel
  have hproduct : mutualModule.operandsOf ⟨4⟩ = [⟨0⟩, ⟨0⟩] := by decide +kernel
  have huse {v u : ValueId} (h : v ∈ mutualModule.operandsOf u) : mutualModule.UsedBy v u := h
  have hself : mutualModule.UsedBy ⟨2⟩ ⟨2⟩ := huse (by decide +kernel)
  have hmul : mutualModule.UsedBy ⟨2⟩ ⟨3⟩ := huse (by decide +kernel)
  have hsub : mutualModule.UsedBy ⟨2⟩ ⟨5⟩ := huse (by decide +kernel)
  have hret : mutualModule.UsedBy ⟨5⟩ ⟨6⟩ := huse (by decide +kernel)
  obtain ⟨m', gone, h, hgone, hoff, -, hown, -, hstays, hleft, -⟩ :=
    disconnect_cascades mutualModule_built.mirrored mutualModule_built.threads_instsOf hops hinst
      false
  -- only the parameter is used by the other product
  have hother : ⟨4⟩ ∉ gone := by
    intro hmem
    rcases ((hgone ⟨4⟩).1 hmem).cases_tail with heq | ⟨w, hreach, huse⟩
    · cases heq
    rw [UsedBy, hproduct] at huse
    obtain rfl : w = ⟨0⟩ := by simpa using huse
    rcases hreach.cases_tail with heq | ⟨w, -, huse⟩
    · cases heq
    · have hnone : mutualModule.operandsOf ⟨0⟩ = [] := by decide +kernel
      rw [UsedBy, hnone] at huse
      cases huse
  have hmem : ∀ v ∈ [(⟨2⟩ : ValueId), ⟨3⟩, ⟨5⟩, ⟨6⟩], v ∈ gone := by
    simp only [List.forall_mem_cons, hgone]
    exact ⟨.refl, .single hmul, .single hsub, .tail (.single hsub) hret, List.forall_mem_nil _⟩
  refine ⟨m', h, hinsts, ?_, hown.2 (.inr (.inl (.single hself))),
    (hoff ⟨2⟩ ((hgone _).2 .refl)).2.2, (hstays ⟨4⟩ hother).1.trans hproduct⟩
  rw [hleft, hinsts]
  simp only [List.forall_mem_cons] at hmem
  simp [hmem.1, hmem.2.1, hmem.2.2.1, hmem.2.2.2.1, hother]

/-! ## Replacements -/

/-- A replacement of a value by another succeeds. Afterwards the value has no uses, its uses by
others refer to the new value, and the other operands of others are as they were. The uses follow
those of the new value in the same order. An instruction that was replaced is in no block and has no
operands, so that its own uses are not among them. All other instructions keep their place. -/
theorem replaceAllUses_redirects (hm : Mirrored m) (ht : Threads m m.instsOf)
    (hold : old.idx < m.values.size) (hnew : new.idx < m.values.size) (hne : old ≠ new) :
    ∃ m', m.replaceAllUses old new = .ok (.ok (), m') ∧ m'.uses old = .ok [] ∧
      (∀ u i, u ≠ old → ⟨u, i⟩ ∈ m.usesOf old → (m'.operandsOf u)[i]? = some new) ∧
      (∀ u i, u ≠ old → ⟨u, i⟩ ∉ m.usesOf old →
        (m'.operandsOf u)[i]? = (m.operandsOf u)[i]?) ∧
      (m.IsInst old → m'.usesOf new = (m.usesOf new ++ m.usesOf old).filter (·.user ≠ old) ∧
        m'.linkOf old = {} ∧ m'.operandsOf old = []) ∧
      (¬m.IsInst old → m'.usesOf new = m.usesOf new ++ m.usesOf old ∧
        m'.operandsOf old = (m.operandsOf old).map fun o => if o = old then new else o) ∧
      (∀ b, m'.instsOf b = (m.instsOf b).erase old) ∧
      Mirrored m' ∧ Threads m' m'.instsOf ∧ m'.bare = m.bare := by
  obtain ⟨r, m', h⟩ := ht.exists_replaceAllUses hm hold hnew
  have hthreads := ht.replacesAllUses hm h
  rcases ht.cases_replaceAllUses hm h with ⟨-, heq, -⟩ | ⟨rfl, -, m₁, hred, hcases⟩
  · exact absurd heq hne
  simp only [if_true] at hthreads
  have hinsts := hthreads.instsOf_eq
  -- an operand of the redirected module, in terms of the use list at the start
  have hop (u : ValueId) (i : Nat) : (m₁.operandsOf u)[i]? =
      if ⟨u, i⟩ ∈ m.usesOf old then some new else (m.operandsOf u)[i]? := by
    rw [hred.operands, List.getElem?_map]
    simp only [hm.mem]
    cases (m.operandsOf u)[i]? with
    | none => simp
    | some o => by_cases ho : o = old <;> simp [ho]
  -- what follows is the same whether the value is removed or not
  suffices hrest : m'.bare = m.bare ∧ Mirrored m' ∧ m'.usesOf old = [] ∧
      (∀ u, u ≠ old → m'.operandsOf u = m₁.operandsOf u) ∧
      (m.IsInst old → m'.usesOf new = (m.usesOf new ++ m.usesOf old).filter (·.user ≠ old) ∧
        m'.linkOf old = {} ∧ m'.operandsOf old = []) ∧
      (¬m.IsInst old → m'.usesOf new = m.usesOf new ++ m.usesOf old ∧
        m'.operandsOf old = (m.operandsOf old).map fun o => if o = old then new else o) by
    obtain ⟨hbare, hmirrored, hnone, hothers, hremoved, hstays⟩ := hrest
    refine ⟨m', h, ?_, fun u i hu huse => ?_, fun u i hu huse => ?_, hremoved, hstays,
      congrFun hinsts, hmirrored, by rw [hinsts]; exact hthreads, hbare⟩
    · rw [uses_eq (by rw [size_of_bare hbare]; exact hold), hnone]
    · rw [hothers u hu, hop, if_pos huse]
    · rw [hothers u hu, hop, if_neg huse]
  have hnone : m₁.usesOf old = [] := by rw [hred.uses, if_neg hne, if_pos rfl]
  rcases hcases with ⟨hnot, rfl⟩ | ⟨hinst, hrem, hdis⟩
  · exact ⟨hred.bare, hred.mirrored, hnone, fun _ _ => rfl, fun hinst => absurd hinst hnot,
      fun _ => ⟨by rw [hred.uses, if_pos rfl], hred.operands old⟩⟩
  · have huses := hrem.usesOf_eq hred.mirrored (usesOf_sublist_disconnect hdis)
    refine ⟨hrem.bare.trans hred.bare, hrem.mirrored, ?_, fun u hu => ?_, fun _ => ⟨?_, ?_, ?_⟩,
      fun hnot => absurd hinst hnot⟩
    · rw [huses, hnone, List.filter_nil]
    · rw [hrem.operands, if_neg (by simpa using hu)]
    · rw [huses, hred.uses, if_pos rfl]
      simp only [List.mem_singleton]
    · exact hthreads.off fun b => (ht.nodup b).not_mem_erase
    · rw [hrem.operands, if_pos (List.mem_singleton.2 rfl)]

/-- The product takes the place of the sum: it uses itself then, and the sum, which used both of
them, counts no longer. -/
theorem replaceAllUses_redirects_mutual : ∃ m',
    mutualModule.replaceAllUses ⟨2⟩ ⟨3⟩ = .ok (.ok (), m') ∧ m'.uses ⟨2⟩ = .ok [] ∧
      m'.usesOf ⟨3⟩ = [⟨⟨5⟩, 1⟩, ⟨⟨3⟩, 0⟩, ⟨⟨3⟩, 1⟩, ⟨⟨5⟩, 0⟩] ∧
      m'.instsOf ⟨0⟩ = [⟨3⟩, ⟨4⟩, ⟨5⟩, ⟨6⟩] := by
  have huses : (mutualModule.usesOf ⟨3⟩ ++ mutualModule.usesOf ⟨2⟩).filter (·.user ≠ ⟨2⟩) =
      [⟨⟨5⟩, 1⟩, ⟨⟨3⟩, 0⟩, ⟨⟨3⟩, 1⟩, ⟨⟨5⟩, 0⟩] := by decide +kernel
  have hinsts : (mutualModule.instsOf ⟨0⟩).erase ⟨2⟩ = [⟨3⟩, ⟨4⟩, ⟨5⟩, ⟨6⟩] := by decide +kernel
  have hsum : (⟨2⟩ : ValueId).idx < mutualModule.values.size := by decide
  have hproduct : (⟨3⟩ : ValueId).idx < mutualModule.values.size := by decide
  obtain ⟨m', h, hnone, -, -, hremoved, -, herase, -⟩ :=
    replaceAllUses_redirects mutualModule_built.mirrored mutualModule_built.threads_instsOf hsum
      hproduct (by decide)
  exact ⟨m', h, hnone, (hremoved (by decide +kernel)).1.trans huses, (herase ⟨0⟩).trans hinsts⟩

/-! ## Refused edits -/

/-- A removal with users writes something before it looks at a user that it may refuse: the
instruction is in a block, it has operands that are to be dropped, or the first of its users is an
instruction and drops the operands that it has. -/
def Touches (m : Module) (inst : ValueId) (operands : Bool) : Prop :=
  m.IsInst inst ∧ ((∃ b, inst ∈ m.instsOf b) ∨ (operands = true ∧ m.operandsOf inst ≠ []) ∨
    ∃ use ∈ (m.usesOf inst).head?, m.IsInst use.user)

theorem severOperands_nil (hlt : v.idx < m.values.size) (hops : m.operandsOf v = []) :
    m.severOperands v = .ok m := by
  have hx := Array.getElem?_eq_getElem hlt
  rw [operandsOf, valueField_eq hx] at hops
  have hsame : m.setValue v { m.values[v.idx] with operands := [] } = m := by
    have hvalue : { m.values[v.idx] with operands := [] } = m.values[v.idx] := by rw [← hops]
    rw [hvalue, setValue, Array.setIfInBounds_def, dif_pos hlt, Array.set_getElem_self]
  refine bind_eq_ok.2 ⟨_, valueSlot_eq_ok.2 hx, ?_⟩
  rw [hsame, hops]
  rfl

/-- A removal with users of an instruction that has no place and nothing to drop goes on to the
users at once. -/
theorem Threads.disconnectWithin_idle {depth : Nat} {operands : Bool} (ht : Threads m lists)
    (hinst : m.IsInst inst) (hoff : ∀ b, inst ∉ lists b)
    (hops : operands = true → m.operandsOf inst = []) :
    disconnectWithin (depth + 1) m inst operands true =
      m.editEach (fun m u => Module.disconnectWithin depth m u true true)
        ((m.usesOf inst).map Use.user).eraseDups := by
  have hlt := hinst.lt
  obtain ⟨k, hk⟩ := hinst
  have hkind : m.instKind inst = .ok (some k) := instKind_eq hk
  have husers : m.users inst = .ok ((m.usesOf inst).map Use.user).eraseDups :=
    bind_eq_ok.2 ⟨_, uses_eq hlt, rfl⟩
  rw [disconnectWithin, hkind, uses_eq hlt, ht.unlink_off hlt hoff]
  cases operands with
  | false => exact congrArg (· >>= _) husers
  | true =>
    change (m.severOperands inst >>= fun m => m.users inst >>= m.editEach _) = _
    rw [severOperands_nil hlt (hops rfl)]
    exact congrArg (· >>= _) husers

/-- A removal that took something off or dropped something has changed the module. -/
theorem Removal.ne (h : Removal m m.instsOf gone severed m')
    (hv : (∃ b, v ∈ gone ∧ v ∈ m.instsOf b) ∨ v ∈ severed ∧ m.operandsOf v ≠ []) : m' ≠ m := by
  rintro rfl
  rcases hv with ⟨b, hgone, hmem⟩ | ⟨hsevered, hops⟩
  · rw [congrFun h.threads.instsOf_eq b] at hmem
    exact of_decide_eq_true (List.mem_filter.1 hmem).2 hgone
  · exact hops (by rw [h.operands, if_pos hsevered])

/-- The users of an instruction that has no place and nothing to drop, when one of them is refused:
the first of them decides whether something has been written. -/
theorem Threads.editEach_users {depth : Nat} {e : GraphError} (ht : Threads m m.instsOf)
    (hm : Mirrored m)
    (h : m.editEach (fun m u => Module.disconnectWithin depth m u true true)
      ((m.usesOf inst).map Use.user).eraseDups = .ok (.error e, m')) :
    m' = m ↔ ¬∃ use ∈ (m.usesOf inst).head?, m.IsInst use.user := by
  cases huses : m.usesOf inst with
  | nil =>
    rw [huses] at h
    cases h
  | cons use rest =>
    have huse : m.UsedBy inst use.user :=
      List.mem_of_getElem? (hm.mem.1 (huses ▸ List.mem_cons_self))
    simp only [List.head?_cons, Option.mem_some_iff, exists_eq_left']
    rw [huses, List.map_cons, List.eraseDups_cons] at h
    obtain ⟨⟨r₁, m₁⟩, h₁, h⟩ := bind_eq_ok.1 h
    obtain ⟨gone₁, severed₁, hrem₁, -, heq, hself⟩ := Removal.disconnectWithin ht hm h₁
    rw [heq rfl] at hrem₁
    by_cases hinst : m.IsInst use.user
    · refine iff_of_false ?_ (not_not_intro hinst)
      -- nobody gives the user its operands back
      have hlost : use.user ∈ gone₁ ∧ m.operandsOf use.user ≠ [] :=
        ⟨hself hinst, List.ne_nil_of_mem huse⟩
      cases r₁ with
      | error _ =>
        cases h
        exact hrem₁.ne (.inr hlost)
      | ok _ =>
        obtain ⟨gone, hrem, -⟩ := Removal.disconnectEach hrem₁.threads hrem₁.mirrored h
        exact (hrem₁.trans hrem).ne (.inr ⟨List.mem_append_left _ hlost.1, hlost.2⟩)
    · refine iff_of_true ?_ hinst
      cases depth with
      | zero => cases h₁
      | succ depth =>
        rcases Removal.cases_disconnectWithin ht hm h₁ with
          ⟨rfl, ⟨-, rfl⟩ | ⟨hfalse, -⟩⟩ | ⟨m₂, hinst', -⟩
        · cases h
          rfl
        · cases hfalse
        · exact absurd hinst' hinst

/-- A removal with users that is refused leaves the module as it was just if it does not touch
anything. -/
theorem Threads.refused_disconnect {operands : Bool} {e : GraphError} (ht : Threads m m.instsOf)
    (hm : Mirrored m) (h : m.disconnect inst operands true = .ok (.error e, m')) :
    m' = m ↔ ¬m.Touches inst operands := by
  obtain ⟨gone, severed, hrem, -, heq, hself⟩ := Removal.disconnectWithin ht hm h
  by_cases hinst : m.IsInst inst
  · rw [Touches, and_iff_right hinst]
    by_cases hlinked : ∃ b, inst ∈ m.instsOf b
    · obtain ⟨b, hb⟩ := hlinked
      exact iff_of_false (hrem.ne (.inl ⟨b, hself hinst, hb⟩)) (not_not_intro (.inl ⟨b, hb⟩))
    by_cases hdrops : operands = true ∧ m.operandsOf inst ≠ []
    · rw [heq hdrops.1] at hrem
      exact iff_of_false (hrem.ne (.inr ⟨hself hinst, hdrops.2⟩))
        (not_not_intro (.inr (.inl hdrops)))
    rw [or_iff_right hlinked, or_iff_right hdrops]
    obtain ⟨depth, hdepth⟩ := m.cascadeDepth_eq_succ
    rw [disconnect, hdepth, ht.disconnectWithin_idle hinst (not_exists.1 hlinked) fun hop =>
      Classical.not_not.1 fun hne => hdrops ⟨hop, hne⟩] at h
    exact ht.editEach_users hm h
  · refine iff_of_true ?_ fun htouches => hinst htouches.1
    obtain ⟨depth, hdepth⟩ := m.cascadeDepth_eq_succ
    rw [disconnect, hdepth] at h
    rcases Removal.cases_disconnectWithin ht hm h with ⟨heq, -⟩ | ⟨m₁, hinst', -⟩
    · exact heq
    · exact absurd hinst' hinst

/-- A removal without users that is refused leaves the module as it was. -/
theorem Threads.refused_disconnect_alone {operands : Bool} {e : GraphError}
    (ht : Threads m lists) (hm : Mirrored m)
    (h : m.disconnect inst operands false = .ok (.error e, m')) : m' = m := by
  obtain ⟨depth, hdepth⟩ := m.cascadeDepth_eq_succ
  rw [disconnect, hdepth] at h
  rcases Removal.cases_disconnectWithin ht hm h with
    ⟨heq, -⟩ | ⟨m₁, -, -, ⟨-, -, hr, -⟩ | ⟨htrue, -⟩⟩
  · exact heq
  · cases hr
  · cases htrue

/-- A removal with users of an instruction is refused because of a transitive user that is no
instruction. -/
theorem Threads.culprit_disconnect {operands : Bool} {e : GraphError} (ht : Threads m lists)
    (hm : Mirrored m) (hinst : m.IsInst inst)
    (h : m.disconnect inst operands true = .ok (.error e, m')) :
    ∃ v, e = .notAnInstruction v ∧ Relation.TransGen m.UsedBy inst v ∧ ¬m.IsInst v := by
  obtain ⟨gone, severed, -, hcas, -⟩ := Removal.disconnectWithin ht hm h
  obtain ⟨u, hu, v, hreach, hv, heq⟩ := hcas.refused rfl
  rw [List.mem_singleton.1 hu, Relation.reflTransGen_iff_eq_or_transGen] at hreach
  rcases hreach with rfl | hreach
  · exact absurd hinst hv
  · exact ⟨v, heq, hreach, hv⟩

/-- What is left when an edit of a module that was built is refused. A changed operand and a
replacement leave the module as it was, and so does a removal, except for one with users that
touches something. That one is refused because of a transitive user that is no instruction, and so
this does not happen where only instructions have operands. In any case use lists still mirror
operands and links still describe lists. -/
theorem Built.refused_edits (hbuilt : m.Built) :
    (∀ user index value e m', m.replaceOperand user index value = .ok (.error e, m') → m' = m) ∧
      (∀ old new e m', m.replaceAllUses old new = .ok (.error e, m') → m' = m) ∧
      ∀ inst operands users e m', m.disconnect inst operands users = .ok (.error e, m') →
        (m' = m ↔ ¬(users = true ∧ m.Touches inst operands)) ∧
        (users = true → m.IsInst inst → ∃ v, e = .notAnInstruction v ∧
          Relation.TransGen m.UsedBy inst v ∧ ¬m.IsInst v) ∧
        ((∀ v, m.operandsOf v ≠ [] → m.IsInst v) → m' = m) ∧
        Mirrored m' ∧ Threads m' m'.instsOf ∧ m'.bare = m.bare := by
  have ht := hbuilt.threads_instsOf
  have hm := hbuilt.mirrored
  refine ⟨fun _ _ _ _ _ h => (replaceOperand_refused h).1, fun _ _ _ _ h => ?_,
    fun inst operands users e m' h => ?_⟩
  · rcases ht.cases_replaceAllUses hm h with ⟨-, -, heq⟩ | ⟨hr, -⟩
    · exact heq
    · cases hr
  cases users with
  | false =>
    obtain rfl := ht.refused_disconnect_alone hm h
    exact ⟨iff_of_true rfl (by rintro ⟨⟨⟩, -⟩), by rintro ⟨⟩, fun _ => rfl, hm, ht, rfl⟩
  | true =>
    obtain ⟨gone, severed, hrem, -⟩ := Removal.disconnectWithin ht hm h
    have hsame := ht.refused_disconnect hm h
    refine ⟨?_, fun _ hinst => ht.culprit_disconnect hm hinst h, fun hops => ?_, hrem.mirrored,
      by rw [hrem.threads.instsOf_eq]; exact hrem.threads, hrem.bare⟩
    · rw [hsame, and_iff_right rfl]
    · refine hsame.2 fun htouches => ?_
      obtain ⟨v, -, hreach, hv⟩ := ht.culprit_disconnect hm htouches.1 h
      obtain ⟨w, -, huse⟩ := Relation.TransGen.tail'_iff.1 hreach
      exact hv (hops v (List.ne_nil_of_mem huse))

/-- A sum that a constant has as an operand. -/
def pinnedActions : List Action := [
  .addFunction "f" .i32 [("a", .i32)], .addBlock ⟨0⟩ "entry", .build ⟨0⟩ (.binary .add ⟨0⟩ ⟨0⟩),
  .addConst (.int 1) .i32, .addOperand ⟨3⟩ ⟨2⟩]

/-- The module that `pinnedActions` build. -/
def pinnedModule : Module := (pinnedActions.foldlM Action.run {}).toOption.getD {}

theorem pinnedModule_built : pinnedModule.Built := ⟨pinnedActions, rfl⟩

theorem pinnedModule_disconnect : ∃ m',
    pinnedModule.disconnect ⟨2⟩ true true = .ok (.error (.notAnInstruction ⟨3⟩), m') ∧
      m'.instsOf ⟨0⟩ = [] ∧ m'.operandsOf ⟨2⟩ = [] ∧ m'.usesOf ⟨0⟩ = [] := by
  obtain ⟨⟨r, m'⟩, hrun, rfl, hleft⟩ := exists_eq_ok (x := pinnedModule.disconnect ⟨2⟩ true true)
    (p := fun r => r.1 = .error (.notAnInstruction ⟨3⟩) ∧ r.2.instsOf ⟨0⟩ = [] ∧
      r.2.operandsOf ⟨2⟩ = [] ∧ r.2.usesOf ⟨0⟩ = [])
    (by decide +kernel)
  exact ⟨m', hrun, hleft⟩

/-- The sum cannot be removed alone, since it is in use, and nothing happens. Together with its
users it cannot be removed either, since one of them is the constant, but then the module is another
one, in which use lists still mirror operands. -/
theorem Built.refused_edits_pinned : ∃ m',
    pinnedModule.disconnect ⟨2⟩ true true = .ok (.error (.notAnInstruction ⟨3⟩), m') ∧
      m' ≠ pinnedModule ∧ Mirrored m' ∧
      pinnedModule.disconnect ⟨2⟩ true false = .ok (.error (.stillInUse ⟨2⟩ 1), pinnedModule) := by
  obtain ⟨-, -, hdisconnect⟩ := Built.refused_edits pinnedModule_built
  obtain ⟨m', h, -⟩ := pinnedModule_disconnect
  obtain ⟨hsame, -, -, hmirrored, -⟩ := hdisconnect _ _ _ _ _ h
  have hlinked : ⟨2⟩ ∈ pinnedModule.instsOf ⟨0⟩ := by decide +kernel
  have htouches : pinnedModule.Touches ⟨2⟩ true := ⟨by decide +kernel, .inl ⟨⟨0⟩, hlinked⟩⟩
  exact ⟨m', h, fun heq => hsame.1 heq ⟨rfl, htouches⟩, hmirrored, rfl⟩

/-- A removal that is refused has taken the sum out of its block and dropped its operands. -/
theorem disconnect_refused_midway :
    pinnedModule.Built ∧ pinnedModule.instsOf ⟨0⟩ = [⟨2⟩] ∧
      pinnedModule.operandsOf ⟨2⟩ = [⟨0⟩, ⟨0⟩] ∧ ∃ m',
        pinnedModule.disconnect ⟨2⟩ true true = .ok (.error (.notAnInstruction ⟨3⟩), m') ∧
        m'.instsOf ⟨0⟩ = [] ∧ m'.operandsOf ⟨2⟩ = [] ∧ m'.usesOf ⟨0⟩ = [] :=
  ⟨pinnedModule_built, by decide +kernel, by decide +kernel, pinnedModule_disconnect⟩

end Module

end SsaCodegen
