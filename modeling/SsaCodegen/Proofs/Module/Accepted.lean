import SsaCodegen.Proofs.Semantics.Graph

/-!
# Well-formed modules are accepted

A clean verdict on a module that was built makes it well-formed. Here is the way back: a module that
is well-formed gets a clean verdict, however it came about. So whoever changes a module need not
look at the verifier: it is enough to keep the module well-formed.

## Main results

* `Module.shapeDefect_eq_none` — the verifier finds nothing wrong with operands just if they fit
* `Module.WellFormed.verify` — a well-formed module is accepted
-/

namespace SsaCodegen

namespace Module

variable {m : Module} {lists : BlockId → List ValueId} {f : FuncId} {b : BlockId} {v : ValueId}

/-! ## Operand lists -/

theorem shapeDefect_eq_none {kind : InstKind} {operands : List ValueId} :
    m.shapeDefect f kind operands = .ok none ↔ m.Fits f kind operands := by
  refine ⟨fits_of_shapeDefect, fun h => ?_⟩
  -- every check but those that read a function is a test of the list alone
  have hpure {d : ShapeDefect} {ok : Bool} (hok : ok = true) :
      (pure (d.absentIf ok) : Except Fault (Option ShapeDefect)) = .ok none :=
    congrArg Except.ok (absentIf_eq_none.2 hok)
  cases kind with
  | br =>
    refine hpure ?_
    rcases h with ⟨dest, rfl, hd⟩ | ⟨cond, thenLabel, elseLabel, rfl, hc, ht, he⟩
    · exact isLocalLabel_iff.2 hd
    · rw [areBranchOperands, isData_iff.2 hc, isLocalLabel_iff.2 ht, isLocalLabel_iff.2 he]
      rfl
  | phi => exact hpure (arePhiPairs_iff.2 h)
  | ret =>
    obtain ⟨y, hy, hlen⟩ := h
    exact bind_eq_ok.2 ⟨y, lookupOr_eq_ok.2 hy, hpure (decide_eq_true hlen)⟩
  | call callee =>
    obtain ⟨y, hy, hlen⟩ := h
    exact bind_eq_ok.2 ⟨y, lookupOr_eq_ok.2 hy, hpure (decide_eq_true hlen)⟩
  | alloca slot => exact hpure (List.isEmpty_iff.2 h)
  | binary | compare | gep | store | load | sext | cast => exact hpure (decide_eq_true h)

/-! ## Blocks -/

/-- The instructions from somewhere in a block to its end have no defect, if each of them ends the
block just if it is the last, has operands that fit it and comes after no other kind when it is a
phi. -/
theorem Threads.chainDefect (ht : Threads m lists) {last : ValueId} {inBody : Bool}
    {before l : List ValueId} (hb : lists b = before ++ l)
    (hmem : ∀ v ∈ l, ∃ k, m.kindOf v = some (.inst k) ∧ k.isTerminator = decide (v = last) ∧
      m.Fits f k (m.operandsOf v))
    (hphis : ∃ phis code, l = phis ++ code ∧ (∀ v ∈ phis, m.kindOf v = some (.inst .phi)) ∧
      (∀ v ∈ code, m.kindOf v ≠ some (.inst .phi)) ∧ (inBody = true → phis = [])) :
    m.chainDefect f b last before.getLast? inBody l = .ok none := by
  induction l generalizing before inBody with
  | nil => rfl
  | cons inst rest ih =>
    obtain ⟨⟨k, hk, hterm, hfits⟩, hrest⟩ := List.forall_mem_cons.1 hmem
    obtain ⟨x, hx, hxk⟩ := kindOf_eq_some.1 hk
    have hlink : x.link = ⟨some b, before.getLast?, rest.head?⟩ := by
      have hlink := ht.link hb
      rw [linkOf, valueField_eq hx] at hlink
      exact hlink
    have hoperands : m.operandsOf inst = x.operands := valueField_eq hx
    obtain ⟨phis, code, hsplit, hphi, hcode, hbody⟩ := hphis
    -- an instruction stands among the phis just if it is one
    have hlate : ¬(k = .phi ∧ inBody = true) := by
      rintro ⟨rfl, hin⟩
      rw [hbody hin, List.nil_append] at hsplit
      exact hcode inst (hsplit ▸ List.mem_cons_self) hk
    have hlater : ∃ phis code, rest = phis ++ code ∧
        (∀ v ∈ phis, m.kindOf v = some (.inst .phi)) ∧
        (∀ v ∈ code, m.kindOf v ≠ some (.inst .phi)) ∧
        ((inBody || decide (k ≠ .phi)) = true → phis = []) := by
      cases phis with
      | nil =>
        rw [List.nil_append] at hsplit
        subst hsplit
        exact ⟨[], rest, rfl, List.forall_mem_nil _, (List.forall_mem_cons.1 hcode).2, fun _ => rfl⟩
      | cons v phis =>
        obtain ⟨rfl, rfl⟩ := List.cons.inj hsplit
        obtain ⟨hv, hphi⟩ := List.forall_mem_cons.1 hphi
        cases hk.symm.trans hv
        refine ⟨phis, code, rfl, hphi, hcode, fun hin => ?_⟩
        exact absurd (hbody (by simpa using hin)) (List.cons_ne_nil _ _)
    have hih : m.chainDefect f b last (before ++ [inst]).getLast?
        (inBody || decide (k ≠ .phi)) rest = .ok none := ih (by simp [hb]) hrest hlater
    rw [List.getLast?_append, List.getLast?_singleton, Option.some_or] at hih
    refine bind_eq_ok.2 ⟨x, value_eq_ok.2 hx, ?_⟩
    rw [if_neg (by simp [hlink]), hxk]
    dsimp only [ValueKind.asInst]
    rw [if_neg (not_not.2 hterm), if_neg hlate]
    exact bind_eq_ok.2 ⟨none, shapeDefect_eq_none.2 (hoperands ▸ hfits), hih⟩

theorem WellFormed.blockDefect (h : WellFormed m lists) (hb : m.funcOf b = some f) :
    m.blockDefect f b = .ok none := by
  obtain ⟨phis, body, term, hlist, hlaid⟩ := h.laid hb
  obtain ⟨x, hx, -⟩ := funcOf_eq_some.1 hb
  have hends := h.threads.ends b
  rw [endsOf, blockField_eq hx, hlist] at hends
  have hlast : x.last = some term := (congrArg Prod.snd hends).trans (by simp)
  have hnodup : (phis ++ body ++ [term]).Nodup := hlist ▸ h.threads.nodup b
  have hother {v : ValueId} (hv : v ∈ phis ++ body) : v ≠ term := by
    rintro rfl
    exact (List.nodup_append.1 hnodup).2.2 v hv v (by simp) rfl
  have hclean : m.chainDefect f b term ([] : List ValueId).getLast? false (lists b) = .ok none := by
    refine h.threads.chainDefect rfl (fun v hv => ?_) ⟨phis, body ++ [term], ?_, ?_, ?_,
      fun hin => absurd hin Bool.false_ne_true⟩
    · rw [hlist] at hv
      obtain ⟨k, hk⟩ := hlaid.exists_inst hv
      refine ⟨k, hk, ?_, hlaid.fits hv hk⟩
      rcases List.mem_append.1 hv with hv' | hv'
      · rw [decide_eq_false (hother hv')]
        rcases List.mem_append.1 hv' with hv' | hv'
        · cases (hlaid.isPhi hv').symm.trans hk
          rfl
        · obtain ⟨k', hk', -, hterm⟩ := hlaid.isBody hv'
          cases hk'.symm.trans hk
          exact hterm
      · obtain rfl := List.mem_singleton.1 hv'
        obtain ⟨k', hk', hterm⟩ := hlaid.isTerm
        cases hk'.symm.trans hk
        simpa using hterm
    · rw [hlist, List.append_assoc]
    · exact fun v hv => hlaid.isPhi hv
    · intro v hv hk
      rcases List.mem_append.1 hv with hv | hv
      · obtain ⟨k, hk', hphi, -⟩ := hlaid.isBody hv
        cases hk'.symm.trans hk
        exact hphi rfl
      · obtain rfl := List.mem_singleton.1 hv
        obtain ⟨k, hk', hterm⟩ := hlaid.isTerm
        cases hk'.symm.trans hk
        cases hterm
  refine bind_eq_ok.2 ⟨x, block_eq_ok.2 hx, ?_⟩
  rw [hlast, h.threads.walk_first hx (Nat.le_succ _)]
  exact bind_eq_ok.2 ⟨none, hclean, rfl⟩

/-! ## Modules -/

theorem Mirrored.valueDefect (h : Mirrored m) (hv : v.idx < m.values.size) :
    m.valueDefect v = .ok none := by
  have hx := Array.getElem?_eq_getElem hv
  have hoperands : m.operandsOf v = (m.values[v.idx]).operands := valueField_eq hx
  have huses : m.usesOf v = (m.values[v.idx]).uses := valueField_eq hx
  refine bind_eq_ok.2 ⟨_, value_eq_ok.2 hx, bind_eq_ok.2 ⟨none, ?_, ?_⟩⟩
  · refine firstFinding_eq_none.2 fun ⟨o, i⟩ ho => ?_
    rw [← hoperands] at ho
    have hmem : ⟨v, i⟩ ∈ m.usesOf o := h.mem.2 (List.mem_zipIdx_iff_getElem?.1 ho)
    refine bind_eq_ok.2 ⟨_, uses_eq (lt_of_mem_usesOf hmem), ?_⟩
    rw [if_pos (List.contains_iff_mem.2 hmem)]
    rfl
  · refine firstFinding_eq_none.2 fun u hu => ?_
    rw [← huses] at hu
    have hu := h.mem.1 hu
    refine bind_eq_ok.2 ⟨_, operands_eq (lt_of_mem_operandsOf (List.mem_of_getElem? hu)), ?_⟩
    rw [if_pos hu]
    rfl

theorem WellFormed.verify (h : WellFormed m lists) : m.verify = .ok none := by
  have huses : m.verifyUses = .ok none := by
    refine firstFinding_eq_none.2 fun i hi => ?_
    exact bind_eq_ok.2 ⟨none, h.mirrored.valueDefect (List.mem_range.1 hi), rfl⟩
  refine bind_eq_ok.2 ⟨none, huses, firstFinding_eq_none.2 fun f hf => ?_⟩
  obtain ⟨i, hi, rfl⟩ := List.mem_map.1 hf
  have hy := Array.getElem?_eq_getElem (List.mem_range.1 hi)
  refine bind_eq_ok.2 ⟨_, lookupOr_eq_ok.2 hy, firstFinding_eq_none.2 fun b hb => ?_⟩
  exact bind_eq_ok.2 ⟨none, h.blockDefect (h.owned.mem.2 ⟨_, hy, hb⟩), rfl⟩

end Module

end SsaCodegen
