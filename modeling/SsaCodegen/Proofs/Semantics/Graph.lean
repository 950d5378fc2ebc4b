import SsaCodegen.Proofs.Semantics.Run

/-!
# The graph of a function

The blocks of a function, the instructions of a block and the blocks that it can go on to, read off
a module that is well-formed.

## Main definitions

* `Module.blocksOf`, `instsOf`, `succsOf` — the blocks of a function, and for each of them its
  instructions and its successors
* `Module.phisOf`, `bodyOf` — the phis of a block and the instructions after them
* `Module.exitsOf` — the blocks that a terminator can go to

## Main results

* `Module.WellFormed.successors` — the successors of a block are what its last instruction can go to
* `Module.WellFormed.layout` — what is in a block of a function
-/

namespace SsaCodegen

namespace Module

variable {m m' : Module} {lists : BlockId → List ValueId} {f : FuncId} {b : BlockId} {v : ValueId}

/-- The blocks of a function. -/
def blocksOf (m : Module) (f : FuncId) : List BlockId := (m.funcs[f.idx]?.map Func.blocks).getD []

theorem blocksOf_of_func {m : Module} {f : FuncId} {y : Func} (h : m.funcs[f.idx]? = some y) :
    m.blocksOf f = y.blocks := by
  rw [blocksOf, h]
  rfl

/-- A function with a block is there. -/
theorem exists_func_of_blocksOf {m : Module} {f : FuncId} (h : m.blocksOf f ≠ []) :
    ∃ y, m.funcs[f.idx]? = some y ∧ y.blocks ≠ [] := by
  cases hy : m.funcs[f.idx]? with
  | none =>
    rw [blocksOf, hy] at h
    exact absurd rfl h
  | some y => exact ⟨y, rfl, blocksOf_of_func hy ▸ h⟩

/-- The instructions of a block. -/
def instsOf (m : Module) (b : BlockId) : List ValueId := (m.insts b).toOption.getD []

/-- The successors of a block. -/
def succsOf (m : Module) (b : BlockId) : List BlockId := (m.successors b).toOption.getD []

/-- The phis of a block. -/
def phisOf (m : Module) (b : BlockId) : List ValueId := (m.instsOf b).takeWhile m.isPhi

/-- The instructions of a block after its phis. -/
def bodyOf (m : Module) (b : BlockId) : List ValueId := (m.instsOf b).dropWhile m.isPhi

/-- Whether an instruction has a result. -/
def yields (m : Module) (v : ValueId) : Bool :=
  match m.kindOf v with
  | some (.inst .store) | some (.inst .br) | some (.inst .ret) => false
  | some (.inst (.call _)) => m.tyOf v ≠ some .void
  | some (.inst _) => true
  | _ => false

/-- The blocks that a terminator can go to. -/
def exitsOf (m : Module) (v : ValueId) : List BlockId := (m.operandsOf v).filterMap m.blockOf?

/-! ## Operands and users -/

namespace WellFormed

/-- An operand is a value of the module. -/
theorem operand_lt (h : WellFormed m lists) {o : ValueId} (ho : o ∈ m.operandsOf v) :
    o.idx < m.values.size := by
  obtain ⟨i, hi⟩ := List.getElem?_of_mem ho
  exact lt_of_mem_usesOf (h.mirrored.mem.2 hi : ⟨v, i⟩ ∈ m.usesOf o)

/-- The operands of an instruction in a block fit it. -/
theorem fits (h : WellFormed m lists) (hb : m.funcOf b = some f) (hv : v ∈ lists b) {k : InstKind}
    (hk : m.kindOf v = some (.inst k)) : m.Fits f k (m.operandsOf v) := by
  obtain ⟨phis, body, term, hlist, hlaid⟩ := h.laid hb
  exact hlaid.fits (hlist ▸ hv) hk

/-- A block with instructions is one of the module. -/
theorem exists_funcOf_of_mem (h : WellFormed m lists) (hv : v ∈ lists b) :
    ∃ g, m.funcOf b = some g := by
  have hends := h.threads.ends b
  rw [endsOf, blockField] at hends
  cases hx : m.blocks[b.idx]? with
  | none =>
    rw [hx] at hends
    have hhead := (congrArg Prod.fst hends).symm
    rw [List.head?_eq_none_iff.1 hhead] at hv
    cases hv
  | some x => exact ⟨x.func, funcOf_eq_some.2 ⟨x, hx, rfl⟩⟩

/-- The users of a value are the values that have it as an operand. -/
theorem users (h : WellFormed m lists) (hv : v.idx < m.values.size) :
    ∃ us, m.users v = .ok us ∧ ∀ u, u ∈ us ↔ v ∈ m.operandsOf u := by
  obtain ⟨us, hus⟩ := exists_users hv
  exact ⟨us, hus, fun u => h.mirrored.mem_users hus⟩

/-! ## Successors -/

theorem labelledBlocks_eq {labels : List ValueId} (hlt : ∀ l ∈ labels, l.idx < m.values.size) :
    m.labelledBlocks labels = .ok (labels.filterMap m.blockOf?) := by
  induction labels with
  | nil => rfl
  | cons label rest ih =>
    obtain ⟨hl, hrest⟩ := List.forall_mem_cons.1 hlt
    have hx := Array.getElem?_eq_getElem hl
    have hk : m.kindOf label = some _ := kindOf_eq_some.2 ⟨_, hx, rfl⟩
    refine bind_eq_ok.2 ⟨_, kind_eq hk, ?_⟩
    have hb : m.blockOf? label = (m.values[label.idx]).kind.asBlock := by
      rw [blockOf?, hx]
      rfl
    cases hc : (m.values[label.idx]).kind.asBlock with
    | none => rw [List.filterMap_cons_none (hb.trans hc), ih hrest]
    | some c =>
      rw [List.filterMap_cons_some (hb.trans hc)]
      exact bind_eq_ok.2 ⟨_, ih hrest, rfl⟩

/-- The terminator of a block is its last instruction. -/
theorem terminator (h : WellFormed m lists) (hb : m.funcOf b = some f) {phis body : List ValueId}
    {term : ValueId} (hlist : lists b = phis ++ body ++ [term]) :
    m.terminator b = .ok (some term) := by
  obtain ⟨x, hx, -⟩ := funcOf_eq_some.1 hb
  have hlast : x.last = some term := by
    have hends := h.threads.ends b
    rw [endsOf, blockField_eq hx, hlist] at hends
    exact (congrArg Prod.snd hends).trans (by simp)
  obtain ⟨phis', body', term', hlist', hlaid⟩ := h.laid hb
  have hterm' : term' = term := by
    rw [hlist'] at hlist
    simpa using (List.append_inj' hlist rfl).2
  subst hterm'
  obtain ⟨k, hk, hterm⟩ := hlaid.isTerm
  refine bind_eq_ok.2 ⟨x, block_eq_ok.2 hx, ?_⟩
  rw [hlast]
  refine bind_eq_ok.2 ⟨_, instKind_eq hk, ?_⟩
  simp [ValueKind.asInst, hterm]
  rfl

/-- The successors of a block are the blocks that its last instruction can go to. -/
theorem successors (h : WellFormed m lists) (hb : m.funcOf b = some f) {phis body : List ValueId}
    {term : ValueId} (hlist : lists b = phis ++ body ++ [term]) :
    m.successors b = .ok (m.exitsOf term).eraseDups := by
  have hterm : term ∈ lists b := by simp [hlist]
  obtain ⟨k, hk⟩ := h.threads.inst hterm
  refine bind_eq_ok.2 ⟨_, h.terminator hb hlist,
    bind_eq_ok.2 ⟨_, operands_eq (lt_of_kindOf hk), ?_⟩⟩
  exact bind_eq_ok.2 ⟨_, labelledBlocks_eq fun l hl => h.operand_lt hl, rfl⟩

/-- What a terminator can go to are blocks of the module. -/
theorem exists_funcOf (h : WellFormed m lists) {c : BlockId} (hc : c ∈ m.exitsOf v) :
    ∃ g, m.funcOf c = some g := by
  obtain ⟨l, -, hl⟩ := List.mem_filterMap.1 hc
  exact ⟨_, funcOf_eq_some.2 ⟨_, Array.getElem?_eq_getElem (h.labelled l c hl), rfl⟩⟩

end WellFormed

/-! ## Instructions and blocks -/

theorem WellFormed.instsOf_eq (h : WellFormed m lists) {b : BlockId} (hb : m.funcOf b = some f) :
    m.instsOf b = lists b := by
  rw [instsOf, h.insts hb]
  rfl

/-- A block of a function: its phis, then others, then one terminator, which says where it can
go. -/
theorem WellFormed.layout (h : WellFormed m lists) (hb : m.funcOf b = some f) :
    ∃ body term, lists b = m.phisOf b ++ body ++ [term] ∧ m.bodyOf b = body ++ [term] ∧
      m.Laid f (m.phisOf b) body term ∧ m.succsOf b = (m.exitsOf term).eraseDups := by
  obtain ⟨phis, body, term, hlist, hlaid⟩ := h.laid hb
  have hphis : m.phisOf b = phis := by rw [phisOf, h.instsOf_eq hb, hlist, hlaid.takeWhile_isPhi]
  refine ⟨body, term, by rw [hphis, hlist], ?_, by rw [hphis]; exact hlaid, ?_⟩
  · rw [bodyOf, h.instsOf_eq hb, hlist, hlaid.dropWhile_isPhi]
  · rw [succsOf, h.successors hb hlist]
    rfl

theorem instsOf_eq_nil {b : BlockId} (hb : m.funcOf b = none) : m.instsOf b = [] := by
  cases hx : m.blocks[b.idx]? with
  | some x =>
    rw [funcOf, blockField_eq hx] at hb
    cases hb
  | none =>
    have hinsts : m.insts b = .error (.unknownBlock b) := by
      rw [insts, chain, block, hx]
      rfl
    rw [instsOf, hinsts]
    rfl

theorem Owned.mem_blocksOf (h : Owned m) {b : BlockId} : b ∈ m.blocksOf f ↔ m.funcOf b = some f := by
  rw [h.mem, blocksOf]
  cases m.funcs[f.idx]? with
  | none => simp
  | some y => simp

theorem Owned.nodup_blocksOf (h : Owned m) (f : FuncId) : (m.blocksOf f).Nodup := by
  rw [blocksOf]
  cases hy : m.funcs[f.idx]? with
  | none => exact List.nodup_nil
  | some y => exact h.nodup hy

/-- The parameters of a function are different values, as they have different numbers. -/
theorem Owned.params_nodup (h : Owned m) {y : Func} (hy : m.funcs[f.idx]? = some y) :
    y.params.Nodup := by
  rw [List.nodup_iff_getElem?_ne_getElem?]
  intro i j hij hj heq
  have hv := List.getElem?_eq_getElem hj
  have hk := h.param hy (heq.trans hv)
  rw [h.param hy hv] at hk
  cases hk
  exact Nat.lt_irrefl _ hij

theorem mem_of_mem_incomingPairs {operands : List ValueId} {i : ValueId × BlockId}
    (h : i ∈ m.incomingPairs operands) : i.1 ∈ operands := by
  fun_induction incomingPairs m operands with
  | case1 value label rest b hb ih =>
    rcases List.mem_cons.1 h with rfl | h
    · exact List.mem_cons_self
    · exact List.mem_cons_of_mem _ (List.mem_cons_of_mem _ (ih h))
  | case2 value label rest hb ih =>
    exact List.mem_cons_of_mem _ (List.mem_cons_of_mem _ (ih h))
  | case3 operands hne => cases h

/-- The blocks that a phi lists are blocks of the function that its labels belong to. -/
theorem PhiPairs.funcOf {operands : List ValueId} (h : m.PhiPairs f operands)
    {i : ValueId × BlockId} (hi : i ∈ m.incomingPairs operands) : m.funcOf i.2 = some f := by
  fun_induction incomingPairs m operands with
  | case1 value label rest b hb ih =>
    obtain ⟨-, ⟨c, hc, hf⟩, hrest⟩ := h
    rcases List.mem_cons.1 hi with rfl | hi
    · cases (blockOf?_eq_some.1 hb).symm.trans hc
      exact hf
    · exact ih hrest hi
  | case2 value label rest hb ih => exact ih h.2.2 hi
  | case3 operands hne => cases hi

theorem blocksOf_of_skeleton (h : m'.skeleton = m.skeleton) : m'.blocksOf = m.blocksOf := by
  funext f
  rw [blocksOf, funcs_of_skeleton h, blocksOf]

theorem instsOf_of_skeleton (h : m'.skeleton = m.skeleton) : m'.instsOf = m.instsOf := by
  funext b
  rw [instsOf, insts_of_skeleton h, instsOf]

theorem exitsOf_of_skeleton (h : m'.skeleton = m.skeleton) : m'.exitsOf = m.exitsOf := by
  funext v
  rw [exitsOf, operandsOf_of_skeleton h, blockOf?_of_skeleton h, exitsOf]

end Module

end SsaCodegen
