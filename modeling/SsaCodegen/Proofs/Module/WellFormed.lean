import SsaCodegen.Module.Verify
import SsaCodegen.Proofs.Module.Lists
import SsaCodegen.Proofs.Module.Owners
import SsaCodegen.Proofs.Module.Uses

/-!
# What it means to be accepted

The verifier looks at links, uses and operand lists. What follows from a clean verdict on a module
that was built is collected in one structure, `Module.WellFormed`, in terms of kinds, operands and
lists of instructions. None of that mentions lattice values or marks of blocks, so that constant
propagation keeps it for a reason that needs no look at the verifier.

## Main definitions

* `Module.Fits` — an operand list has the shape that its instruction asks for
* `Module.Laid` — the instructions of a block are phis, then others, then one terminator
* `Module.WellFormed` — the facts about a module that was built and accepted

## Main results

* `Module.Built.wellFormed` — a module that was built and accepted is well-formed
* `Module.WellFormed.learns` — constant propagation keeps it so
-/

namespace SsaCodegen

/-- A check over a list finds nothing when it finds nothing in any of the items. -/
theorem firstFinding_eq_none {check : α → Except Fault (Option ε)} {l : List α} :
    firstFinding check l = .ok none ↔ ∀ a ∈ l, check a = .ok none := by
  induction l with
  | nil => exact ⟨fun _ => nofun, fun _ => rfl⟩
  | cons a rest ih =>
    rw [List.forall_mem_cons, ← ih]
    constructor
    · intro h
      obtain ⟨r, hr, h⟩ := bind_eq_ok.1 h
      cases r with
      | some e => cases h
      | none => exact ⟨hr, h⟩
    · rintro ⟨ha, hrest⟩
      exact bind_eq_ok.2 ⟨none, ha, hrest⟩

theorem InstKind.isPure_of_isTerminator {k : InstKind} (h : k.isTerminator = true) :
    k.isPure = false := by
  cases k with
  | br | ret => rfl
  | _ => cases h

namespace Module

variable {m m' : Module} {f : FuncId} {b : BlockId} {v : ValueId}

/-! ## Operand lists -/

/-- A value is the label of a block of a function. -/
def IsLabel (m : Module) (f : FuncId) (v : ValueId) : Prop :=
  ∃ b, m.kindOf v = some (.block b) ∧ m.funcOf b = some f

/-- A value is no label. -/
def IsData (m : Module) (v : ValueId) : Prop := ∀ b, m.kindOf v ≠ some (.block b)

/-- An operand list is made of pairs of a value and a label. -/
def PhiPairs (m : Module) (f : FuncId) : List ValueId → Prop
  | [] => True
  | [_] => False
  | value :: label :: rest => m.IsData value ∧ m.IsLabel f label ∧ m.PhiPairs f rest

/-- An operand list has the shape that its instruction asks for in a function. -/
def Fits (m : Module) (f : FuncId) (kind : InstKind) (operands : List ValueId) : Prop :=
  match kind with
  | .br => (∃ dest, operands = [dest] ∧ m.IsLabel f dest) ∨
      ∃ cond thenLabel elseLabel, operands = [cond, thenLabel, elseLabel] ∧ m.IsData cond ∧
        m.IsLabel f thenLabel ∧ m.IsLabel f elseLabel
  | .phi => m.PhiPairs f operands
  | .ret => ∃ y, m.funcs[f.idx]? = some y ∧ operands.length = if y.ret = .void then 0 else 1
  | .binary _ | .compare _ | .gep _ | .store => operands.length = 2
  | .load | .sext | .cast => operands.length = 1
  | .call callee => ∃ y, m.funcs[callee.idx]? = some y ∧ operands.length = y.params.length
  | .alloca _ => operands = []

theorem blockOf?_eq_some : m.blockOf? v = some b ↔ m.kindOf v = some (.block b) := by
  rw [blockOf?, kindOf, valueField]
  cases m.values[v.idx]? with
  | none => simp
  | some x => cases hk : x.kind <;> simp [hk, ValueKind.asBlock]

theorem isLocalLabel_iff : m.isLocalLabel f v = true ↔ m.IsLabel f v := by
  simp only [isLocalLabel, Option.any_eq_true, blockOf?_eq_some, decide_eq_true_eq, IsLabel,
    funcOf_eq_some]

theorem isData_iff : (m.blockOf? v).isNone = true ↔ m.IsData v := by
  rw [Option.isNone_iff_eq_none, Option.eq_none_iff_forall_ne_some]
  exact forall_congr' fun b => not_congr blockOf?_eq_some

theorem arePhiPairs_iff {operands : List ValueId} :
    m.arePhiPairs f operands = true ↔ m.PhiPairs f operands := by
  fun_induction arePhiPairs m f operands with
  | case1 => simp [PhiPairs]
  | case2 => simp [PhiPairs]
  | case3 v label rest ih =>
    simp only [PhiPairs, Bool.and_eq_true, ih, isData_iff, isLocalLabel_iff, and_assoc]

theorem absentIf_eq_none {d : ShapeDefect} {ok : Bool} : d.absentIf ok = none ↔ ok = true := by
  cases ok <;> simp [ShapeDefect.absentIf]

theorem fits_of_shapeDefect {kind : InstKind} {operands : List ValueId}
    (h : m.shapeDefect f kind operands = .ok none) : m.Fits f kind operands := by
  cases kind with
  | br =>
    have h := absentIf_eq_none.1 (Except.ok.inj h)
    rw [areBranchOperands.eq_def] at h
    split at h
    · exact .inl ⟨_, rfl, isLocalLabel_iff.1 h⟩
    · rw [Bool.and_eq_true, Bool.and_eq_true, isData_iff, isLocalLabel_iff, isLocalLabel_iff] at h
      exact .inr ⟨_, _, _, rfl, h.1.1, h.1.2, h.2⟩
    · cases h
  | phi => exact arePhiPairs_iff.1 (absentIf_eq_none.1 (Except.ok.inj h))
  | ret =>
    obtain ⟨y, hy, h⟩ := bind_eq_ok.1 h
    have h := absentIf_eq_none.1 (Except.ok.inj h)
    exact ⟨y, lookupOr_eq_ok.1 hy, by simpa using h⟩
  | call callee =>
    obtain ⟨y, hy, h⟩ := bind_eq_ok.1 h
    have h := absentIf_eq_none.1 (Except.ok.inj h)
    exact ⟨y, lookupOr_eq_ok.1 hy, by simpa using h⟩
  | alloca slot =>
    have h := absentIf_eq_none.1 (Except.ok.inj h)
    exact List.isEmpty_iff.1 h
  | binary | compare | gep | store | load | sext | cast =>
    have h := of_decide_eq_true (absentIf_eq_none.1 (Except.ok.inj h))
    exact h

/-! ## Blocks -/

/-- The instructions of a block of a function: phis, then others, then one terminator, each with
operands that fit it. -/
structure Laid (m : Module) (f : FuncId) (phis body : List ValueId) (term : ValueId) : Prop where
  isPhi : ∀ {v}, v ∈ phis → m.kindOf v = some (.inst .phi)
  isBody : ∀ {v}, v ∈ body → ∃ k, m.kindOf v = some (.inst k) ∧ k ≠ .phi ∧ k.isTerminator = false
  isTerm : ∃ k, m.kindOf term = some (.inst k) ∧ k.isTerminator = true
  fits : ∀ {v k}, v ∈ phis ++ body ++ [term] → m.kindOf v = some (.inst k) →
    m.Fits f k (m.operandsOf v)

theorem Laid.exists_inst {phis body : List ValueId} {term : ValueId}
    (h : m.Laid f phis body term) (hv : v ∈ phis ++ body ++ [term]) :
    ∃ k, m.kindOf v = some (.inst k) := by
  rcases List.mem_append.1 hv with hv | hv
  · rcases List.mem_append.1 hv with hv | hv
    · exact ⟨_, h.isPhi hv⟩
    · obtain ⟨k, hk, -⟩ := h.isBody hv
      exact ⟨k, hk⟩
  · rw [List.mem_singleton.1 hv]
    obtain ⟨k, hk, -⟩ := h.isTerm
    exact ⟨k, hk⟩

/-- What a clean verdict says of the first instruction, and that it is one on the others. -/
theorem chainDefect_cons_eq_none {last inst : ValueId} {prev : Option ValueId} {inBody : Bool}
    {rest : List ValueId} (h : m.chainDefect f b last prev inBody (inst :: rest) = .ok none) :
    ∃ k, m.kindOf inst = some (.inst k) ∧ (m.linkOf inst).block = some b ∧
      (m.linkOf inst).prev = prev ∧ k.isTerminator = decide (inst = last) ∧
      ¬(k = .phi ∧ inBody = true) ∧ m.Fits f k (m.operandsOf inst) ∧
      m.chainDefect f b last (some inst) (inBody || k ≠ .phi) rest = .ok none := by
  obtain ⟨x, hx, h⟩ := bind_eq_ok.1 h
  have hx := value_eq_ok.1 hx
  split at h
  · cases h
  rename_i hlink
  rw [not_or, Decidable.not_not, Decidable.not_not] at hlink
  split at h
  · cases h
  rename_i k hk
  have hinst : x.kind = .inst k := by
    cases hkind : x.kind <;> rw [hkind] at hk <;> cases hk
    rfl
  split at h
  · cases h
  rename_i hterm
  split at h
  · cases h
  rename_i hlate
  obtain ⟨d, hd, h⟩ := bind_eq_ok.1 h
  cases d with
  | some d => cases h
  | none =>
    rw [linkOf, valueField_eq hx, operandsOf, valueField_eq hx]
    exact ⟨k, kindOf_eq_some.2 ⟨x, hx, hinst⟩, hlink.1, hlink.2, Decidable.not_not.1 hterm, hlate,
      fits_of_shapeDefect hd, h⟩

/-- What a clean verdict says of each instruction. -/
theorem chainDefect_mem {last : ValueId} {prev : Option ValueId} {inBody : Bool}
    {l : List ValueId} (h : m.chainDefect f b last prev inBody l = .ok none) (hv : v ∈ l) :
    ∃ k, m.kindOf v = some (.inst k) ∧ k.isTerminator = decide (v = last) ∧
      m.Fits f k (m.operandsOf v) := by
  induction l generalizing prev inBody with
  | nil => cases hv
  | cons inst rest ih =>
    obtain ⟨k, hk, -, -, hterm, -, hfits, h⟩ := chainDefect_cons_eq_none h
    rcases List.mem_cons.1 hv with rfl | hv
    · exact ⟨k, hk, hterm, hfits⟩
    · exact ih h hv

/-- A clean verdict says that the phis come first. -/
theorem chainDefect_phis {last : ValueId} {prev : Option ValueId} {inBody : Bool}
    {l : List ValueId} (h : m.chainDefect f b last prev inBody l = .ok none) :
    ∃ phis code, l = phis ++ code ∧ (∀ v ∈ phis, m.kindOf v = some (.inst .phi)) ∧
      (∀ v ∈ code, m.kindOf v ≠ some (.inst .phi)) ∧ (inBody = true → phis = []) := by
  induction l generalizing prev inBody with
  | nil => exact ⟨[], [], rfl, nofun, nofun, fun _ => rfl⟩
  | cons inst rest ih =>
    obtain ⟨kind, hinst, -, -, -, hlate, -, h⟩ := chainDefect_cons_eq_none h
    obtain ⟨phis, code, rfl, hphis, hcode, hbody⟩ := ih h
    by_cases hphi : kind = .phi
    · subst hphi
      refine ⟨inst :: phis, code, rfl, ?_, hcode, fun hb => absurd ⟨rfl, hb⟩ hlate⟩
      exact List.forall_mem_cons.2 ⟨hinst, hphis⟩
    · obtain rfl := hbody (by simp [hphi])
      refine ⟨[], inst :: code, rfl, nofun, ?_, fun _ => rfl⟩
      refine List.forall_mem_cons.2 ⟨?_, hcode⟩
      rw [hinst]
      exact fun heq => hphi (by simpa using heq)

/-- A clean verdict on a block whose chain stands for a list. -/
theorem laid_of_blockDefect {lists : BlockId → List ValueId} (ht : Threads m lists)
    (h : m.blockDefect f b = .ok none) :
    ∃ phis body term, lists b = phis ++ body ++ [term] ∧ m.Laid f phis body term := by
  obtain ⟨x, hx, h⟩ := bind_eq_ok.1 h
  have hx := block_eq_ok.1 hx
  split at h
  · cases h
  rename_i last hlast
  rw [ht.walk_first hx (Nat.le_succ _)] at h
  obtain ⟨d, hd, h⟩ := bind_eq_ok.1 h
  cases d with
  | some d => cases h
  | none =>
    dsimp only at hd
    have hgetLast : (lists b).getLast? = some last := by
      have hends := ht.ends b
      rw [endsOf, blockField_eq hx] at hends
      exact (congrArg Prod.snd hends).symm.trans hlast
    obtain ⟨init, hinit⟩ := List.getLast?_eq_some_iff.1 hgetLast
    obtain ⟨phis, code, hsplit, hphis, hcode, -⟩ := chainDefect_phis hd
    -- the last instruction is a terminator, so it is none of the phis
    obtain ⟨k, hk, hterm, -⟩ := chainDefect_mem hd (v := last) (by simp [hinit])
    have hnone : last ∉ phis := by
      intro hmem
      rw [hphis last hmem] at hk
      cases hk
      simp [InstKind.isTerminator] at hterm
    obtain ⟨body, rfl⟩ : ∃ body, code = body ++ [last] := by
      rcases List.eq_nil_or_concat code with rfl | ⟨body, z, rfl⟩
      · rw [hsplit, List.append_nil] at hinit
        exact absurd (by simp [hinit]) hnone
      · refine ⟨body, ?_⟩
        rw [List.concat_eq_append] at hsplit ⊢
        rw [hsplit, ← List.append_assoc] at hinit
        rw [(List.append_inj' hinit rfl).2]
    have hnodup : (phis ++ body ++ [last]).Nodup := by
      rw [List.append_assoc, ← hsplit]
      exact ht.nodup b
    refine ⟨phis, body, last, by rw [hsplit, List.append_assoc], fun hv => hphis _ hv,
      fun {v} hv => ?_, ⟨k, hk, by simpa using hterm⟩, fun {v k'} hv hk' => ?_⟩
    · obtain ⟨k', hk', hterm', -⟩ := chainDefect_mem hd (v := v) (by simp [hsplit, hv])
      refine ⟨k', hk', ?_, ?_⟩
      · rintro rfl
        exact hcode v (by simp [hv]) hk'
      · rw [hterm', decide_eq_false_iff_not]
        rintro rfl
        exact (List.nodup_append.1 hnodup).2.2 v (by simp [hv]) v (by simp) rfl
    · obtain ⟨k'', hk'', -, hfits⟩ := chainDefect_mem hd (v := v)
        (by rw [hsplit, ← List.append_assoc]; exact hv)
      cases hk'.symm.trans hk''
      exact hfits

/-! ## Modules -/

/-- What is true of a module that was built and accepted, with its lists of instructions. -/
structure WellFormed (m : Module) (lists : BlockId → List ValueId) : Prop where
  threads : Threads m lists
  mirrored : Mirrored m
  owned : Owned m
  labelled : Labelled m
  primed : Primed m
  laid : ∀ {b : BlockId} {f : FuncId}, m.funcOf b = some f →
    ∃ phis body term, lists b = phis ++ body ++ [term] ∧ m.Laid f phis body term

theorem blockDefect_of_verify (h : m.verify = .ok none) {y : Func}
    (hy : m.funcs[f.idx]? = some y) (hb : b ∈ y.blocks) : m.blockDefect f b = .ok none := by
  obtain ⟨r, -, h⟩ := bind_eq_ok.1 h
  cases r with
  | some e => cases h
  | none =>
    have hf : f ∈ m.funcIds := by
      refine List.mem_map.2 ⟨f.idx, List.mem_range.2 ?_, rfl⟩
      exact (Array.getElem?_eq_some_iff.1 hy).1
    obtain ⟨y', hy', h⟩ := bind_eq_ok.1 (firstFinding_eq_none.1 h f hf)
    cases hy.symm.trans (lookupOr_eq_ok.1 hy')
    obtain ⟨d, hd, h⟩ := bind_eq_ok.1 (firstFinding_eq_none.1 h b hb)
    cases d with
    | none => exact hd
    | some d =>
      obtain ⟨x, -, h⟩ := bind_eq_ok.1 h
      cases h

theorem Built.wellFormed (h : m.Built) (hv : m.verify = .ok none) :
    ∃ lists, WellFormed m lists := by
  obtain ⟨lists, ht⟩ := h.threads
  refine ⟨lists, ht, h.mirrored, h.owned, h.labelled, h.primed, fun {b f} hb => ?_⟩
  obtain ⟨y, hy, hmem⟩ := h.owned.mem.1 hb
  exact laid_of_blockDefect ht (blockDefect_of_verify hv hy hmem)

/-! ## Constant propagation keeps it -/

theorem valueField_skeleton {p : Value → α} {d : α} (hp : ∀ x known, p { x with known } = p x) :
    m.skeleton.valueField p d = m.valueField p d := by
  funext v
  rw [valueField, skeleton_values, valueField]
  cases m.values[v.idx]? with
  | none => rfl
  | some x => exact hp x .top

theorem blockField_skeleton {q : Block → α} {d : α}
    (hq : ∀ x reachable, q { x with reachable } = q x) :
    m.skeleton.blockField q d = m.blockField q d := by
  funext b
  rw [blockField, skeleton_blocks, blockField]
  cases m.blocks[b.idx]? with
  | none => rfl
  | some x => exact hq x false

section Skeleton

variable (h : m'.skeleton = m.skeleton)
include h

theorem valueField_of_skeleton {p : Value → α} {d : α} (hp : ∀ x known, p { x with known } = p x) :
    m'.valueField p d = m.valueField p d := by
  rw [← valueField_skeleton hp, h, valueField_skeleton hp]

theorem blockField_of_skeleton {q : Block → α} {d : α}
    (hq : ∀ x reachable, q { x with reachable } = q x) :
    m'.blockField q d = m.blockField q d := by
  rw [← blockField_skeleton hq, h, blockField_skeleton hq]

theorem kindOf_of_skeleton : m'.kindOf = m.kindOf := valueField_of_skeleton h fun _ _ => rfl

theorem operandsOf_of_skeleton : m'.operandsOf = m.operandsOf :=
  valueField_of_skeleton h fun _ _ => rfl

theorem funcOf_of_skeleton : m'.funcOf = m.funcOf := blockField_of_skeleton h fun _ _ => rfl

theorem funcs_of_skeleton : m'.funcs = m.funcs :=
  show m'.skeleton.funcs = m.skeleton.funcs by rw [h]

theorem phiPairs_of_skeleton {operands : List ValueId} (hp : m.PhiPairs f operands) :
    m'.PhiPairs f operands := by
  fun_induction PhiPairs m f operands with
  | case1 => trivial
  | case2 => exact hp
  | case3 value label rest ih =>
    obtain ⟨hv, hl, hrest⟩ := hp
    refine ⟨?_, ?_, ih hrest⟩
    · rw [IsData, kindOf_of_skeleton h]
      exact hv
    · rw [IsLabel, kindOf_of_skeleton h, funcOf_of_skeleton h]
      exact hl

theorem fits_of_skeleton {k : InstKind} {operands : List ValueId} (hf : m.Fits f k operands) :
    m'.Fits f k operands := by
  cases k with
  | phi => exact phiPairs_of_skeleton h hf
  | br | ret | call =>
    simp only [Fits, IsLabel, IsData, kindOf_of_skeleton h, funcOf_of_skeleton h,
      funcs_of_skeleton h]
    exact hf
  | binary | compare | gep | store | load | sext | cast | alloca => exact hf

theorem Laid.of_skeleton {phis body : List ValueId} {term : ValueId}
    (hl : m.Laid f phis body term) : m'.Laid f phis body term where
  isPhi := by
    rw [kindOf_of_skeleton h]
    exact hl.isPhi
  isBody := by
    rw [kindOf_of_skeleton h]
    exact hl.isBody
  isTerm := by
    rw [kindOf_of_skeleton h]
    exact hl.isTerm
  fits := by
    rw [kindOf_of_skeleton h, operandsOf_of_skeleton h]
    exact fun hv hk => fits_of_skeleton h (hl.fits hv hk)

end Skeleton

/-- Constant propagation keeps a module well-formed, with the same lists. -/
theorem WellFormed.learns {lists : BlockId → List ValueId} (hm : WellFormed m lists)
    (hl : Learns m m') : WellFormed m' lists := by
  have h := hl.skeleton_eq
  have hkind := kindOf_of_skeleton h
  refine ⟨?_, ?_, ?_, hl.steps.keep (fun h hs => hs.labelled h) hm.labelled,
    hl.steps.keep (fun h hs => hs.primed h) hm.primed, ?_⟩
  · exact hm.threads.congr (valueField_of_skeleton h fun _ _ => rfl)
      (blockField_of_skeleton h fun _ _ => rfl) fun hk => by rw [hkind]; exact hk
  · exact hm.mirrored.congr (operandsOf_of_skeleton h) (valueField_of_skeleton h fun _ _ => rfl)
  · exact hm.owned.congr (funcOf_of_skeleton h) (funcs_of_skeleton h)
      fun hk => by rw [hkind]; exact hk
  · rw [funcOf_of_skeleton h]
    intro b f hb
    obtain ⟨phis, body, term, hlist, hlaid⟩ := hm.laid hb
    exact ⟨phis, body, term, hlist, hlaid.of_skeleton h⟩

end Module

end SsaCodegen
