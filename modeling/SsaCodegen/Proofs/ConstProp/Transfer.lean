import SsaCodegen.Proofs.Semantics.Graph

/-!
# What the solver reads

The functions of the solver look up ids and check shapes as they go, and fault where something is
missing. In a well-formed module nothing is, and each of them is a plain function of kinds,
operands, lattice values and marks. These functions are written out here; all later proofs are
about them.

## Main definitions

* `Module.transferOf` — what the operands of an instruction tell about it
* `Module.headsOf` — the blocks that a branch can go to, by what is known of its condition

## Main results

* `Module.WellFormed.transfer`, `pushBlocks`, `instsWhile` — in a well-formed module the solver
  reads these
-/

namespace SsaCodegen

namespace Module

variable {m m' : Module} {lists : BlockId → List ValueId} {f : FuncId} {b : BlockId} {v : ValueId}

/-- What is known of a value. -/
def knownOf : Module → ValueId → Constness := valueField Value.known .top

/-- Whether a block has been found reachable. -/
def reachedOf : Module → BlockId → Bool := blockField Block.reachable false

/-- The incoming values of a phi whose blocks have been found reachable. -/
def reachedIncoming (m : Module) (phi : ValueId) : List ValueId :=
  ((m.incoming phi).filter fun i => m.reachedOf i.2).map (·.1)

/-- What the operands of an instruction tell about it. -/
def transferOf (m : Module) (v : ValueId) : Constness :=
  match m.kindOf v, m.operandsOf v with
  | some (.inst .phi), _ => (m.reachedIncoming v).foldl (fun acc u => acc.meet (m.knownOf u)) .top
  | some (.inst .sext), [o] | some (.inst .cast), [o] => m.knownOf o
  | some (.inst (.binary op)), [l, r] => .combine op.eval (m.knownOf l) (m.knownOf r)
  | some (.inst (.compare op)), [l, r] =>
    .combine (fun a b => some (if op.eval a b then 1 else 0)) (m.knownOf l) (m.knownOf r)
  | _, _ => .varying

/-- The labels that a branch can go to, by what is known of its condition. -/
def headLabels (m : Module) (v : ValueId) : List ValueId :=
  match m.operandsOf v with
  | [cond, thenLabel, elseLabel] =>
    match m.knownOf cond with
    | .top => []
    | .const n => if n ≠ 0 then [thenLabel] else [elseLabel]
    | .varying => [thenLabel, elseLabel]
  | operands => operands

/-- The blocks that a branch can go to, by what is known of its condition. -/
def headsOf (m : Module) (v : ValueId) : List BlockId := (m.headLabels v).filterMap m.blockOf?

/-! ## Looking up -/

theorem known_eq (h : v.idx < m.values.size) : m.known v = .ok (m.knownOf v) := by
  have hx := Array.getElem?_eq_getElem h
  exact bind_eq_ok.2 ⟨_, value_eq_ok.2 hx, congrArg Except.ok (valueField_eq hx).symm⟩

theorem block_eq (h : b.idx < m.blocks.size) : ∃ x, m.block b = .ok x ∧ m.reachedOf b = x.reachable ∧
    m.endsOf b = (x.first, x.last) := by
  have hx := Array.getElem?_eq_getElem h
  exact ⟨_, block_eq_ok.2 hx, blockField_eq hx, blockField_eq hx⟩

namespace WellFormed

/-! ## What the operands tell -/

theorem transferPhi_eq (phi : ValueId) :
    ∀ {operands : List ValueId} (acc : Constness), (∀ o ∈ operands, o.idx < m.values.size) →
      m.PhiPairs f operands → m.transferPhi phi acc operands =
        .ok ((((m.incomingPairs operands).filter fun i => m.reachedOf i.2).map (·.1)).foldl
          (fun acc u => acc.meet (m.knownOf u)) acc)
  | [], acc, _, _ => rfl
  | [_], acc, _, hpairs => nomatch hpairs
  | value :: label :: rest, acc, hlt, hpairs => by
    obtain ⟨-, ⟨p, hp, hf⟩, hrest⟩ := hpairs
    obtain ⟨hv, hlt⟩ := List.forall_mem_cons.1 hlt
    obtain ⟨-, hlt⟩ := List.forall_mem_cons.1 hlt
    obtain ⟨x, hx, hr, -⟩ := block_eq (lt_of_funcOf hf)
    have hpairs : m.incomingPairs (value :: label :: rest) =
        (value, p) :: m.incomingPairs rest := by
      rw [incomingPairs, blockOf?_eq_some.2 hp]
    rw [hpairs]
    refine bind_eq_ok.2 ⟨_, kind_eq hp, bind_eq_ok.2 ⟨x, hx, ?_⟩⟩
    by_cases hreached : x.reachable = true
    · rw [if_pos hreached]
      refine bind_eq_ok.2 ⟨_, known_eq hv, ?_⟩
      rw [transferPhi_eq phi _ hlt hrest, List.filter_cons_of_pos (by rw [hr, hreached])]
      rfl
    · rw [if_neg hreached, transferPhi_eq phi _ hlt hrest,
        List.filter_cons_of_neg (by rw [hr]; exact hreached)]

/-- In a well-formed module, the transfer function of an instruction in a block. -/
theorem transfer (h : WellFormed m lists) (hb : m.funcOf b = some f) (hv : v ∈ lists b) :
    m.transfer v = .ok (m.transferOf v) := by
  obtain ⟨k, hk⟩ := h.threads.inst hv
  have hfits := h.fits hb hv hk
  have hlt {i : Nat} {o : ValueId} (hi : (m.operandsOf v)[i]? = some o) : o.idx < m.values.size :=
    h.operand_lt (List.mem_of_getElem? hi)
  obtain ⟨x, hx, hxk⟩ := kindOf_eq_some.1 hk
  refine bind_eq_ok.2 ⟨x, value_eq_ok.2 hx, ?_⟩
  have hops : x.operands = m.operandsOf v := (valueField_eq hx).symm
  rw [transferOf, hk, hxk, hops]
  -- a two-operand instruction reads what is known of its operands
  have hpair {eval : Int64 → Int64 → Option Int64} {l r : ValueId}
      (ho : m.operandsOf v = [l, r]) : m.transferPair v eval =
        .ok (.combine eval (m.knownOf l) (m.knownOf r)) := by
    have hl : (m.operandsOf v)[0]? = some l := by rw [ho]; rfl
    have hr : (m.operandsOf v)[1]? = some r := by rw [ho]; rfl
    exact bind_eq_ok.2 ⟨l, operand_eq hl, bind_eq_ok.2 ⟨_, known_eq (hlt hl),
      bind_eq_ok.2 ⟨r, operand_eq hr, bind_eq_ok.2 ⟨_, known_eq (hlt hr), rfl⟩⟩⟩⟩
  cases k with
  | phi => exact transferPhi_eq v _ (fun o ho => h.operand_lt ho) hfits
  | sext | cast =>
    obtain ⟨o, ho⟩ := List.length_eq_one_iff.1 hfits
    have hi : (m.operandsOf v)[0]? = some o := by rw [ho]; rfl
    rw [ho]
    exact bind_eq_ok.2 ⟨o, operand_eq hi, known_eq (hlt hi)⟩
  | binary | compare =>
    obtain ⟨l, r, ho⟩ := List.length_eq_two.1 hfits
    rw [ho]
    exact hpair ho
  | br | gep | ret | load | store | call | alloca => rfl

/-! ## Where a branch can go -/

theorem pushBlocks_eq {labels : List ValueId} (hlabels : ∀ l ∈ labels, m.IsLabel f l)
    (blocks : List BlockId) : Solver.pushBlocks m blocks labels =
      .ok (((labels.filterMap m.blockOf?).filter fun c => !m.reachedOf c).reverse ++ blocks) := by
  induction labels generalizing blocks with
  | nil => rfl
  | cons label rest ih =>
    obtain ⟨⟨c, hc, hf⟩, hrest⟩ := List.forall_mem_cons.1 hlabels
    obtain ⟨x, hx, hr, -⟩ := block_eq (lt_of_funcOf hf)
    rw [List.filterMap_cons_some (blockOf?_eq_some.2 hc)]
    refine bind_eq_ok.2 ⟨_, kind_eq hc, bind_eq_ok.2 ⟨x, hx, ?_⟩⟩
    by_cases hreached : x.reachable = true
    · rw [if_pos hreached, ih hrest, List.filter_cons_of_neg (by simp [hr, hreached])]
    · rw [if_neg hreached, ih hrest, List.filter_cons_of_pos (by simp [hr, hreached])]
      simp

/-- A branch puts the blocks that it can go to on the stack, unless they are marked. -/
theorem pushBlocks (h : WellFormed m lists) (hb : m.funcOf b = some f) (hv : v ∈ lists b)
    (hk : m.kindOf v = some (.inst .br)) (blocks : List BlockId) :
    (do Solver.pushBlocks m blocks (← Solver.branchTargets m v)) =
      .ok (((m.headsOf v).filter fun c => !m.reachedOf c).reverse ++ blocks) := by
  have htargets : Solver.branchTargets m v = .ok (m.headLabels v) ∧
      ∀ l ∈ m.headLabels v, m.IsLabel f l := by
    have hops := operands_eq (lt_of_kindOf hk)
    rcases h.fits hb hv hk with ⟨dest, ho, hdest⟩ | ⟨cond, thenLabel, elseLabel, ho, -, ht, he⟩
    · rw [headLabels, ho]
      rw [ho] at hops
      exact ⟨bind_eq_ok.2 ⟨_, hops, rfl⟩, by simpa using hdest⟩
    · have hcond := known_eq (h.operand_lt (v := v) (o := cond) (by simp [ho]))
      rw [headLabels, ho]
      rw [ho] at hops
      refine ⟨bind_eq_ok.2 ⟨_, hops, bind_eq_ok.2 ⟨_, hcond, ?_⟩⟩, ?_⟩
      · dsimp only
        cases m.knownOf cond <;> rfl
      · dsimp only
        split
        · nofun
        · split <;> simpa
        · simp [ht, he]
  exact bind_eq_ok.2 ⟨_, htargets.1, pushBlocks_eq htargets.2 blocks⟩

/-- The heads of a branch are blocks of its function. -/
theorem headsOf_subset (h : WellFormed m lists) (hb : m.funcOf b = some f) (hv : v ∈ lists b)
    (hk : m.kindOf v = some (.inst .br)) {c : BlockId} (hc : c ∈ m.headsOf v) :
    m.funcOf c = some f := by
  obtain ⟨l, hl, hlc⟩ := List.mem_filterMap.1 hc
  have hlc := blockOf?_eq_some.1 hlc
  have hlabel : m.IsLabel f l := by
    rcases h.fits hb hv hk with ⟨dest, ho, hdest⟩ | ⟨cond, thenLabel, elseLabel, ho, -, ht, he⟩
    · rw [headLabels, ho] at hl
      exact List.mem_singleton.1 hl ▸ hdest
    · rw [headLabels, ho] at hl
      dsimp only at hl
      split at hl
      · cases hl
      · split at hl
        · exact List.mem_singleton.1 hl ▸ ht
        · exact List.mem_singleton.1 hl ▸ he
      · rcases List.mem_cons.1 hl with rfl | hl
        · exact ht
        · exact List.mem_singleton.1 hl ▸ he
  obtain ⟨c', hc', hf⟩ := hlabel
  cases hlc.symm.trans hc'
  exact hf

/-! ## Phis -/

/-- The phis of a block. -/
theorem instsWhile (h : WellFormed m lists) (hb : m.funcOf b = some f) :
    ∃ phis, m.instsWhile b (· = .phi) = .ok phis ∧
      ∀ v, v ∈ phis ↔ v ∈ lists b ∧ m.isPhi v = true := by
  obtain ⟨phis, body, term, hlist, hlaid⟩ := h.laid hb
  have hpasses (v : ValueId) :
      (m.values[v.idx]?.bind fun x => x.kind.asInst).any (fun k => k = .phi) = m.isPhi v := by
    rw [Module.isPhi, kindOf, valueField]
    cases m.values[v.idx]? with
    | none => rfl
    | some x =>
      cases hk : x.kind <;> simp [hk, ValueKind.asInst]
  obtain ⟨c, hc, hinsts⟩ := bind_eq_ok.1 (h.insts hb)
  obtain ⟨-, -, hinsts⟩ := bind_eq_ok.1 hinsts
  have hinsts : c.insts = lists b := Except.ok.inj hinsts
  have hfront : (lists b).takeWhile (fun v =>
      (m.values[v.idx]?.bind fun x => x.kind.asInst).any fun k => k = .phi) = phis := by
    rw [hlist, funext hpasses]
    exact hlaid.takeWhile_isPhi
  refine ⟨phis, bind_eq_ok.2 ⟨c, hc, ?_⟩, fun v => ?_⟩
  · simp only [hinsts, hfront]
    rw [if_neg (by simp [hlist])]
    rfl
  · rw [hlist, List.append_assoc, List.mem_append]
    constructor
    · exact fun hv => ⟨.inl hv, hlaid.isPhi_of_mem hv⟩
    · rintro ⟨hv | hv, hphi⟩
      · exact hv
      · rw [hlaid.not_isPhi_of_mem hv] at hphi
        cases hphi

end WellFormed

/-! ## What the functions depend on -/

section Skeleton

variable (h : m'.skeleton = m.skeleton)
include h

/-- The labels of a branch by what is known of its condition depend on its operands only. -/
theorem headsOf_congr (hknown : ∀ o ∈ m.operandsOf v, m'.knownOf o = m.knownOf o) :
    m'.headsOf v = m.headsOf v := by
  rw [headsOf, headsOf, blockOf?_of_skeleton h, headLabels, headLabels, operandsOf_of_skeleton h]
  split
  · rename_i cond thenLabel elseLabel ho
    rw [hknown cond (by simp [ho])]
  · rfl

/-- What the operands of an instruction tell depends on what is known of them and, for a phi, on the
marks of the blocks that it lists. -/
theorem transferOf_congr (hknown : ∀ o ∈ m.operandsOf v, m'.knownOf o = m.knownOf o)
    (hreached : m.isPhi v = true → ∀ i ∈ m.incoming v, m'.reachedOf i.2 = m.reachedOf i.2) :
    m'.transferOf v = m.transferOf v := by
  rw [transferOf, transferOf, kindOf_of_skeleton h, operandsOf_of_skeleton h]
  split
  · rename_i hk
    have hrec : m'.reachedIncoming v = m.reachedIncoming v := by
      rw [reachedIncoming, reachedIncoming, incoming_of_skeleton h]
      exact congrArg _ (List.filter_congr (hreached (decide_eq_true hk)))
    rw [hrec]
    refine List.foldl_ext _ _ _ fun acc u hu => ?_
    obtain ⟨i, hi, rfl⟩ := List.mem_map.1 hu
    rw [hknown i.1 (mem_of_mem_incomingPairs (List.mem_filter.1 hi).1)]
  · rename_i o hk ho
    exact hknown o (by simp [ho])
  · rename_i o hk ho
    exact hknown o (by simp [ho])
  · rename_i op l r hk ho
    rw [hknown l (by simp [ho]), hknown r (by simp [ho])]
  · rename_i op l r hk ho
    rw [hknown l (by simp [ho]), hknown r (by simp [ho])]
  · rfl

end Skeleton

end Module

end SsaCodegen
