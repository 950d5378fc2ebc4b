import SsaCodegen.Proofs.ConstProp.Soundness
import SsaCodegen.Proofs.Module.Replace

/-!
# What folding does to a module

Folding replaces instructions by constants, one at a time, wherever they are used, and takes them
out of their blocks. Its effect as a whole is a substitution of values: each instruction that is
gone stands for a new constant, every operand list is what it was with the substitution applied,
and every block is what it was without the instructions that are gone.

## Main definitions

* `Module.Grown` — a module with further values
* `Module.Folding` — a module under a substitution of constants for instructions

## Main results

* `Module.Folding.foldConstants` — folding a function is never refused, and leaves such a module
* `Module.Folding.wellFormed` — which is well-formed if the module was
-/

namespace SsaCodegen

namespace Module

variable {m m₁ m' : Module} {lists : BlockId → List ValueId} {f : FuncId} {b : BlockId}
  {v inst c : ValueId} {sub : ValueId → ValueId}

/-! ## Further values -/

/-- A module with further values, that differs otherwise in operands, uses and chains at most. -/
def Grown (m m' : Module) : Prop :=
  ∃ extra, m'.bare = { m.bare with values := m.bare.values ++ extra }

namespace Grown

theorem of_bare (h : m'.bare = m.bare) : Grown m m' := ⟨#[], by rw [h, Array.append_empty]⟩

theorem trans (h₁ : Grown m m₁) (h : Grown m₁ m') : Grown m m' := by
  obtain ⟨extra₁, h₁⟩ := h₁
  obtain ⟨extra, h⟩ := h
  refine ⟨extra₁ ++ extra, ?_⟩
  rw [h, h₁, Array.append_assoc]

theorem addConst (n : ConstValue) (ty : Ty) : Grown m (m.addConst n ty).2 := by
  refine ⟨#[Value.bare { ty, name := none, kind := .const n, known := (ValueKind.const n).initial }],
    ?_⟩
  simp [Module.addConst, addValue, bare]

theorem size_le (h : Grown m m') : m.values.size ≤ m'.values.size := by
  obtain ⟨extra, h⟩ := h
  have hsize := congrArg (fun m => m.values.size) h
  simp only [bare, Array.size_map, Array.size_append] at hsize
  omega

theorem valueField (h : Grown m m') {p : Value → α} {d : α} (hp : ∀ x, p x.bare = p x)
    (hv : v.idx < m.values.size) : m'.valueField p d v = m.valueField p d v := by
  obtain ⟨extra, h⟩ := h
  have hx := congrArg (fun m => m.values[v.idx]?) h
  rw [Array.getElem?_append_left (by simpa [bare] using hv)] at hx
  simp only [bare, Array.getElem?_map] at hx
  have key (x : Option Value) : ((x.map Value.bare).map p).getD d = (x.map p).getD d := by
    cases x with
    | none => rfl
    | some x => exact hp x
  rw [Module.valueField, ← key, hx, key]
  rfl

theorem blockField (h : Grown m m') {q : Block → α} {d : α} (hq : ∀ x, q x.bare = q x) :
    m'.blockField q d = m.blockField q d := by
  obtain ⟨extra, h⟩ := h
  exact blockField_of_bare (congrArg (fun m => m.blocks) h) hq

theorem kindOf (h : Grown m m') (hv : v.idx < m.values.size) : m'.kindOf v = m.kindOf v :=
  h.valueField (fun _ => rfl) hv

theorem knownOf (h : Grown m m') (hv : v.idx < m.values.size) : m'.knownOf v = m.knownOf v :=
  h.valueField (fun _ => rfl) hv

theorem funcOf (h : Grown m m') : m'.funcOf = m.funcOf := h.blockField fun _ => rfl

theorem reachedOf (h : Grown m m') : m'.reachedOf = m.reachedOf := h.blockField fun _ => rfl

theorem funcs (h : Grown m m') : m'.funcs = m.funcs := by
  obtain ⟨extra, h⟩ := h
  exact congrArg (fun m => m.funcs) h

end Grown

/-! ## One instruction -/

/-- An instruction is pure and known to be a number. -/
def Foldable (m : Module) (v : ValueId) (n : Int64) : Prop :=
  (∃ k, m.kindOf v = some (.inst k) ∧ k.isPure = true) ∧ m.knownOf v = .const n

/-- Folding an instruction puts a new constant in its place, if that can be done at all. -/
theorem foldInst_eq (ht : Threads m lists) (h : Mirrored m) (hv : inst ∈ lists b) :
    (m.foldInst inst = .ok (.ok 0, m) ∧ ∀ n, ¬ m.Foldable inst n) ∨
    ∃ n m', m.Foldable inst n ∧ m.foldInst inst = .ok (.ok 1, m') ∧ Grown m m' ∧
      Threads m' (fun b => (lists b).erase inst) ∧
      m'.kindOf m.nextValue = some (.const (.int n)) ∧ m'.tyOf m.nextValue = m.tyOf inst ∧
      ∀ w, m'.operandsOf w = if w = inst then [] else
        (m.operandsOf w).map fun o => if o = inst then m.nextValue else o := by
  obtain ⟨k, hk⟩ := ht.inst hv
  obtain ⟨x, hx, hxk⟩ := kindOf_eq_some.1 hk
  have hknown : m.knownOf inst = x.known := valueField_eq hx
  have hty : m.tyOf inst = some x.ty := valueField_eq hx
  cases hconst : x.known.asConst with
  | none =>
    refine .inl ⟨bind_eq_ok.2 ⟨x, value_eq_ok.2 hx, ?_⟩, fun n hfold => ?_⟩
    · simp only [hconst]
      rfl
    · rw [← hknown, hfold.2] at hconst
      cases hconst
  | some n =>
    by_cases hpure : k.isPure = true
    · refine .inr ⟨n, ?_⟩
      have hn : x.known = .const n := by
        cases hxn : x.known <;> rw [hxn] at hconst <;> cases hconst
        rfl
      have hlt := ht.lt_of_mem hv
      -- the constant is created
      have hgrown : Grown m (m.addConst (.int n) x.ty).2 := .addConst _ _
      have hkind {v : ValueId} {k : ValueKind} (hk : m.kindOf v = some k) :
          (m.addConst (.int n) x.ty).2.kindOf v = some k :=
        (hgrown.kindOf (lt_of_kindOf hk)).trans hk
      have ht₁ : Threads (m.addConst (.int n) x.ty).2 lists :=
        ht.congr (valueField_addValue _ _ _ rfl) rfl hkind
      have h₁ : Mirrored (m.addConst (.int n) x.ty).2 := Step.mirrored (.const m _ _) h
      have hops : (m.addConst (.int n) x.ty).2.operandsOf = m.operandsOf :=
        valueField_addValue _ _ _ rfl
      have hnew : (m.addConst (.int n) x.ty).2.values[m.nextValue.idx]? =
          some { ty := x.ty, name := none, kind := .const (.int n), known := .const n } := by
        simp [addConst, addValue, nextValue, ValueKind.initial, ConstValue.asInt]
      -- and takes the place of the instruction
      have hne : inst ≠ m.nextValue := by
        rintro rfl
        exact Nat.lt_irrefl _ hlt
      obtain ⟨m', hm', hbare, ht', hops'⟩ :=
        ht₁.replaceAllUses h₁ hv (Array.getElem?_eq_some_iff.1 hnew).1 hne
      refine ⟨m', ⟨⟨k, hk, hpure⟩, hknown.trans hn⟩, ?_, hgrown.trans (.of_bare hbare), ht', ?_, ?_,
        fun w => by rw [hops', hops]⟩
      · refine bind_eq_ok.2 ⟨x, value_eq_ok.2 hx, ?_⟩
        simp only [hconst, hxk]
        rw [if_pos (by exact hpure)]
        exact bind_eq_ok.2 ⟨_, hm', rfl⟩
      · rw [kindOf_of_bare hbare]
        exact valueField_eq hnew
      · rw [hty, tyOf, valueField_of_bare hbare fun _ => rfl, valueField_eq hnew]
    · refine .inl ⟨bind_eq_ok.2 ⟨x, value_eq_ok.2 hx, ?_⟩, fun n hfold => ?_⟩
      · simp only [hconst, hxk]
        rw [if_neg (by exact hpure)]
        rfl
      · obtain ⟨⟨k', hk', hpure'⟩, -⟩ := hfold
        cases hk.symm.trans hk'
        exact hpure hpure'

/-! ## One after the other -/

/-- A module under a substitution of constants for pure instructions in reachable blocks of a
function. -/
structure Folding (m : Module) (lists : BlockId → List ValueId) (f : FuncId)
    (sub : ValueId → ValueId) (m' : Module) : Prop where
  steps : Steps m m'
  grown : Grown m m'
  threads : Threads m' fun b => (lists b).filter fun v => sub v = v
  operands : ∀ {v}, sub v = v → m'.operandsOf v = (m.operandsOf v).map sub
  live : ∀ {v}, sub v ≠ v → m.Live lists f v
  gone : ∀ {v}, sub v ≠ v → ∃ n, m.Foldable v n ∧ m'.kindOf (sub v) = some (.const (.int n)) ∧
    m'.tyOf (sub v) = m.tyOf v

namespace Folding

theorem refl (ht : Threads m lists) : Folding m lists f id m where
  steps := .refl
  grown := .of_bare rfl
  threads := by simpa using ht
  operands _ := (List.map_id _).symm
  live h := absurd rfl h
  gone h := absurd rfl h

/-- A value that is substituted for another is no instruction. -/
theorem sub_ne (h : Folding m lists f sub m₁) {k : InstKind} {o : ValueId}
    (hk : m.kindOf inst = some (.inst k)) (ho : o ≠ inst) : sub o ≠ inst := by
  intro heq
  by_cases hkept : sub o = o
  · exact ho (hkept.symm.trans heq)
  · obtain ⟨n, -, hc, -⟩ := h.gone hkept
    rw [heq, h.grown.kindOf (lt_of_kindOf hk), hk] at hc
    cases hc

/-- One more instruction is folded. -/
theorem foldInst (h : Folding m lists f sub m₁) (hm : WellFormed m lists)
    (hlive : m.Live lists f inst) (hkept : sub inst = inst) :
    ∃ n sub' m', m₁.foldInst inst = .ok (.ok n, m') ∧ Folding m lists f sub' m' ∧
      (∀ v, v ≠ inst → sub' v = sub v) ∧ ∀ n, m.Foldable inst n → sub' inst ≠ inst := by
  obtain ⟨b, -, -, hmem⟩ := id hlive
  have hmem₁ : inst ∈ (lists b).filter fun v => sub v = v :=
    List.mem_filter.2 ⟨hmem, decide_eq_true hkept⟩
  have hmir₁ : Mirrored m₁ := h.steps.keep (fun h hs => hs.mirrored h) hm.mirrored
  have hlt := hm.threads.lt_of_mem hmem
  rcases foldInst_eq h.threads hmir₁ hmem₁ with
    ⟨heq, hnone⟩ | ⟨n, m', hfold, heq, hgrown, ht, hkind, hty, hops⟩
  · refine ⟨0, sub, m₁, heq, h, fun _ _ => rfl, fun n hfold => absurd ?_ (hnone n)⟩
    rw [Foldable, h.grown.kindOf hlt, h.grown.knownOf hlt]
    exact hfold
  obtain ⟨⟨k, hk, hpure⟩, hn⟩ := hfold
  rw [h.grown.kindOf hlt] at hk
  rw [h.grown.knownOf hlt] at hn
  have hnext {v : ValueId} (hv : v.idx < m₁.values.size) : m₁.nextValue ≠ v := by
    rintro rfl
    exact Nat.lt_irrefl _ hv
  have hlt₁ := Nat.lt_of_lt_of_le hlt h.grown.size_le
  have hother {v : ValueId} (hv : v ≠ inst) : Function.update sub inst m₁.nextValue v = sub v :=
    Function.update_of_ne hv _ _
  have hself : Function.update sub inst m₁.nextValue inst = m₁.nextValue :=
    Function.update_self ..
  refine ⟨1, Function.update sub inst m₁.nextValue, m', heq, ?_, fun v => hother,
    fun _ _ => by rw [hself]; exact hnext hlt₁⟩
  refine ⟨h.steps.trans (foldInst_steps heq), h.grown.trans hgrown, ?_, fun {v} hv => ?_,
    fun {v} hv => ?_, fun {v} hv => ?_⟩
  · have hlists : (fun b => (lists b).filter fun v => Function.update sub inst m₁.nextValue v = v) =
        fun b => ((lists b).filter fun v => sub v = v).erase inst := by
      funext b
      rw [((hm.threads.nodup b).filter _).erase_eq_filter, List.filter_filter]
      refine List.filter_congr fun v _ => ?_
      by_cases hv : v = inst
      · rw [hv, hself, decide_eq_false (hnext hlt₁)]
        simp
      · rw [hother hv]
        simp [hv]
    rw [hlists]
    exact ht
  · have hne : v ≠ inst := by
      rintro rfl
      exact hnext hlt₁ (hself.symm.trans hv)
    rw [hops, if_neg hne, h.operands ((hother hne).symm.trans hv), List.map_map]
    refine List.map_congr_left fun o _ => ?_
    by_cases ho : o = inst
    · rw [ho, hself, Function.comp_apply, hkept, if_pos rfl]
    · rw [hother ho, Function.comp_apply, if_neg (h.sub_ne hk ho)]
  · by_cases hne : v = inst
    · rw [hne]
      exact hlive
    · exact h.live (by rwa [hother hne] at hv)
  · by_cases hne : v = inst
    · rw [hne, hself]
      refine ⟨n, ⟨⟨k, hk, hpure⟩, hn⟩, hkind, hty.trans (h.grown.valueField (fun _ => rfl) hlt)⟩
    · rw [hother hne] at hv ⊢
      obtain ⟨n', hfold', hkind', hty'⟩ := h.gone hv
      have hc := lt_of_kindOf hkind'
      refine ⟨n', hfold', (hgrown.kindOf hc).trans hkind', ?_⟩
      exact (hgrown.valueField (fun _ => rfl) hc).trans hty'

/-- One substitution goes on from another: what is gone stays so, and of some more instructions all
that can be folded are gone. -/
structure Extends (m : Module) (sub sub' : ValueId → ValueId) (insts : ValueId → Prop) : Prop where
  gone : ∀ {v}, sub v ≠ v → sub' v ≠ v
  folded : ∀ {v n}, insts v → m.Foldable v n → sub' v ≠ v

/-- A list of instructions is folded. -/
theorem foldInsts {l : List ValueId} (acc : Nat) (h : Folding m lists f sub m₁)
    (hm : WellFormed m lists) (hl : ∀ v ∈ l, m.Live lists f v ∧ sub v = v) (hnodup : l.Nodup) :
    ∃ n sub' m', editFold Module.foldInst (· + ·) acc m₁ l = .ok (.ok n, m') ∧
      Folding m lists f sub' m' ∧ Extends m sub sub' (· ∈ l) := by
  induction l generalizing acc sub m₁ with
  | nil => exact ⟨acc, sub, m₁, rfl, h, id, fun hv => absurd hv List.not_mem_nil⟩
  | cons v rest ih =>
    obtain ⟨⟨hlive, hkept⟩, hrest⟩ := List.forall_mem_cons.1 hl
    obtain ⟨hnotin, hnodup⟩ := List.nodup_cons.1 hnodup
    obtain ⟨n, sub₁, m₂, hfold, h₁, hsame, hgone⟩ := h.foldInst hm hlive hkept
    have hrest₁ : ∀ w ∈ rest, m.Live lists f w ∧ sub₁ w = w := by
      intro w hw
      have hne : w ≠ v := by
        rintro rfl
        exact hnotin hw
      exact ⟨(hrest w hw).1, (hsame w hne).trans (hrest w hw).2⟩
    obtain ⟨n', sub', m', hfolds, h', hext⟩ := ih (acc + n) h₁ hrest₁ hnodup
    refine ⟨n', sub', m', bind_eq_ok.2 ⟨_, hfold, hfolds⟩, h', fun {w} hw => hext.gone ?_,
      fun {w k} hw hk => ?_⟩
    · rw [hsame w fun heq => hw (heq ▸ hkept)]
      exact hw
    · rcases List.mem_cons.1 hw with rfl | hw
      · exact hext.gone (hgone k hk)
      · exact hext.folded hw hk

/-- A block is folded, if it has been found reachable. -/
theorem foldBlock (h : Folding m lists f sub m₁) (hm : WellFormed m lists)
    (hb : m.funcOf b = some f) :
    ∃ n sub' m', m₁.foldBlock b = .ok (.ok n, m') ∧ Folding m lists f sub' m' ∧
      Extends m sub sub' fun v => m.reachedOf b = true ∧ v ∈ lists b := by
  have hb₁ : m₁.funcOf b = some f := by rw [h.grown.funcOf]; exact hb
  obtain ⟨x, hx, -⟩ := funcOf_eq_some.1 hb₁
  have hreached : m.reachedOf b = x.reachable := by
    rw [← h.grown.reachedOf]
    exact blockField_eq hx
  by_cases hr : x.reachable = true
  · obtain ⟨n, sub', m', hfolds, h', hext⟩ := foldInsts 0 h hm
      (l := (lists b).filter fun v => sub v = v) (fun v hv => by
        obtain ⟨hmem, hkept⟩ := List.mem_filter.1 hv
        exact ⟨⟨b, hb, hreached.trans hr, hmem⟩, of_decide_eq_true hkept⟩)
      ((hm.threads.nodup b).filter _)
    refine ⟨n, sub', m', bind_eq_ok.2 ⟨x, block_eq_ok.2 hx, ?_⟩, h', hext.gone,
      fun {v k} hv hk => ?_⟩
    · rw [if_pos hr]
      exact bind_eq_ok.2 ⟨_, h.threads.insts hx, hfolds⟩
    · by_cases hkept : sub v = v
      · exact hext.folded (List.mem_filter.2 ⟨hv.2, decide_eq_true hkept⟩) hk
      · exact hext.gone hkept
  · refine ⟨0, sub, m₁, bind_eq_ok.2 ⟨x, block_eq_ok.2 hx, ?_⟩, h, id, fun hv => ?_⟩
    · rw [if_neg hr]
      rfl
    · exact absurd (hreached.symm.trans hv.1) hr

/-- A list of blocks is folded. -/
theorem foldBlocks {bs : List BlockId} (acc : Nat) (h : Folding m lists f sub m₁)
    (hm : WellFormed m lists) (hbs : ∀ b ∈ bs, m.funcOf b = some f) :
    ∃ n sub' m', editFold Module.foldBlock (· + ·) acc m₁ bs = .ok (.ok n, m') ∧
      Folding m lists f sub' m' ∧
      Extends m sub sub' fun v => ∃ b ∈ bs, m.reachedOf b = true ∧ v ∈ lists b := by
  induction bs generalizing acc sub m₁ with
  | nil => exact ⟨acc, sub, m₁, rfl, h, id, fun hv => by simp at hv⟩
  | cons b rest ih =>
    obtain ⟨hb, hrest⟩ := List.forall_mem_cons.1 hbs
    obtain ⟨n, sub₁, m₂, hfold, h₁, hext₁⟩ := h.foldBlock hm hb
    obtain ⟨n', sub', m', hfolds, h', hext⟩ := ih (acc + n) h₁ hrest
    refine ⟨n', sub', m', bind_eq_ok.2 ⟨_, hfold, hfolds⟩, h', fun hv => hext.gone (hext₁.gone hv),
      fun {v k} hv hk => ?_⟩
    obtain ⟨c, hc, hv⟩ := hv
    rcases List.mem_cons.1 hc with rfl | hc
    · exact hext.gone (hext₁.folded hv hk)
    · exact hext.folded ⟨c, hc, hv⟩ hk

end Folding

/-- Folding a function of a well-formed module is never refused, and what it leaves is the module
under a substitution for all instructions in reachable blocks that can be folded. -/
theorem WellFormed.foldConstants_all {y : Func} (hm : WellFormed m lists)
    (hy : m.funcs[f.idx]? = some y) :
    ∃ n sub m', m.foldConstants f = .ok (.ok n, m') ∧ Folding m lists f sub m' ∧
      ∀ {v k}, m.Live lists f v → m.Foldable v k → sub v ≠ v := by
  obtain ⟨n, sub, m', hfolds, h, hext⟩ := Folding.foldBlocks 0 (.refl hm.threads) hm
    fun b hb => hm.owned.mem.2 ⟨y, hy, hb⟩
  refine ⟨n, sub, m', bind_eq_ok.2 ⟨y, lookupOr_eq_ok.2 hy, hfolds⟩, h, fun {v k} hv hk => ?_⟩
  obtain ⟨b, hb, hr, hmem⟩ := hv
  obtain ⟨y', hy', hby⟩ := hm.owned.mem.1 hb
  cases hy.symm.trans hy'
  exact hext.folded ⟨b, hby, hr, hmem⟩ hk

theorem WellFormed.foldConstants {y : Func} (hm : WellFormed m lists)
    (hy : m.funcs[f.idx]? = some y) :
    ∃ n sub m', m.foldConstants f = .ok (.ok n, m') ∧ Folding m lists f sub m' := by
  obtain ⟨n, sub, m', hfold, h, -⟩ := hm.foldConstants_all hy
  exact ⟨n, sub, m', hfold, h⟩

/-! ## The module afterwards -/

namespace Folding

/-- Only instructions are substituted for. -/
theorem sub_eq (h : Folding m lists f sub m') (hk : ∀ k, m.kindOf v ≠ some (.inst k)) :
    sub v = v := by
  by_contra hne
  obtain ⟨n, ⟨⟨k, hk', -⟩, -⟩, -⟩ := h.gone hne
  exact hk k hk'

/-- An instruction that is not pure stays. -/
theorem sub_eq_of_not_pure (h : Folding m lists f sub m') {k : InstKind}
    (hk : m.kindOf v = some (.inst k)) (hpure : k.isPure = false) : sub v = v := by
  by_contra hne
  obtain ⟨n, ⟨⟨k', hk', hpure'⟩, -⟩, -⟩ := h.gone hne
  cases hk.symm.trans hk'
  cases hpure.symm.trans hpure'

theorem isLabel (h : Folding m lists f sub m') {g : FuncId} (hv : m.IsLabel g v) :
    m'.IsLabel g (sub v) := by
  obtain ⟨b, hk, hb⟩ := hv
  rw [h.sub_eq (by rw [hk]; nofun)]
  exact ⟨b, (h.grown.kindOf (lt_of_kindOf hk)).trans hk, by rw [h.grown.funcOf]; exact hb⟩

theorem isData (h : Folding m lists f sub m') (hlt : v.idx < m.values.size) (hv : m.IsData v) :
    m'.IsData (sub v) := by
  intro b
  by_cases hkept : sub v = v
  · rw [hkept, h.grown.kindOf hlt]
    exact hv b
  · obtain ⟨n, -, hk, -⟩ := h.gone hkept
    rw [hk]
    nofun

theorem phiPairs (h : Folding m lists f sub m') {g : FuncId} {operands : List ValueId}
    (hlt : ∀ o ∈ operands, o.idx < m.values.size) (hp : m.PhiPairs g operands) :
    m'.PhiPairs g (operands.map sub) := by
  fun_induction PhiPairs m g operands with
  | case1 => trivial
  | case2 => exact hp
  | case3 value label rest ih =>
    obtain ⟨hv, hl, hrest⟩ := hp
    obtain ⟨hlv, hlt⟩ := List.forall_mem_cons.1 hlt
    exact ⟨h.isData hlv hv, h.isLabel hl, ih (List.forall_mem_cons.1 hlt).2 hrest⟩

theorem fits (h : Folding m lists f sub m') {g : FuncId} {k : InstKind} {operands : List ValueId}
    (hlt : ∀ o ∈ operands, o.idx < m.values.size) (hf : m.Fits g k operands) :
    m'.Fits g k (operands.map sub) := by
  cases k with
  | phi => exact h.phiPairs hlt hf
  | br =>
    rcases hf with ⟨dest, rfl, hd⟩ | ⟨cond, thenLabel, elseLabel, rfl, hc, ht, he⟩
    · exact .inl ⟨_, rfl, h.isLabel hd⟩
    · exact .inr ⟨_, _, _, rfl, h.isData (hlt _ List.mem_cons_self) hc, h.isLabel ht, h.isLabel he⟩
  | ret | call =>
    simp only [Fits, h.grown.funcs, List.length_map]
    exact hf
  | alloca => exact List.map_eq_nil_iff.2 hf
  | binary | compare | gep | store | load | sext | cast =>
    simp only [Fits, List.length_map]
    exact hf

/-- The phis, the others and the terminator of a block, without the instructions that are gone. -/
theorem laid (h : Folding m lists f sub m') (hm : WellFormed m lists) {g : FuncId}
    {phis body : List ValueId} {term : ValueId} (hlaid : m.Laid g phis body term) :
    (phis ++ body ++ [term]).filter (fun v => sub v = v) =
        phis.filter (fun v => sub v = v) ++ body.filter (fun v => sub v = v) ++ [term] ∧
      m'.Laid g (phis.filter fun v => sub v = v) (body.filter fun v => sub v = v) term := by
  have hkind {v : ValueId} {k : ValueKind} (hk : m.kindOf v = some k) : m'.kindOf v = some k :=
    (h.grown.kindOf (lt_of_kindOf hk)).trans hk
  obtain ⟨k, hk, hterm⟩ := hlaid.isTerm
  have hkept : sub term = term := h.sub_eq_of_not_pure hk (InstKind.isPure_of_isTerminator hterm)
  have hlists : (phis ++ body ++ [term]).filter (fun v => sub v = v) =
      phis.filter (fun v => sub v = v) ++ body.filter (fun v => sub v = v) ++ [term] := by
    rw [List.filter_append, List.filter_append]
    simp [hkept]
  refine ⟨hlists, fun hv => hkind (hlaid.isPhi (List.mem_filter.1 hv).1), fun hv => ?_,
    ⟨k, hkind hk, hterm⟩, fun {v k} hv hk' => ?_⟩
  · obtain ⟨k, hk, hphi, hterm⟩ := hlaid.isBody (List.mem_filter.1 hv).1
    exact ⟨k, hkind hk, hphi, hterm⟩
  · rw [← hlists] at hv
    obtain ⟨hmem, hkept⟩ := List.mem_filter.1 hv
    obtain ⟨k', hk''⟩ := hlaid.exists_inst hmem
    cases (hkind hk'').symm.trans hk'
    rw [h.operands (of_decide_eq_true hkept)]
    exact h.fits (fun o ho => hm.operand_lt ho) (hlaid.fits hmem hk'')

/-- A well-formed module stays so. -/
theorem wellFormed (h : Folding m lists f sub m') (hm : WellFormed m lists) :
    WellFormed m' fun b => (lists b).filter fun v => sub v = v where
  threads := h.threads
  mirrored := h.steps.keep (fun h hs => hs.mirrored h) hm.mirrored
  owned := h.steps.keep (fun h hs => hs.owned h) hm.owned
  labelled := h.steps.keep (fun h hs => hs.labelled h) hm.labelled
  primed := h.steps.keep (fun h hs => hs.primed h) hm.primed
  laid {b g} hb := by
    rw [h.grown.funcOf] at hb
    obtain ⟨phis, body, term, hlist, hlaid⟩ := hm.laid hb
    obtain ⟨hfilter, hlaid'⟩ := h.laid hm hlaid
    exact ⟨_, _, term, by rw [hlist, hfilter], hlaid'⟩

end Folding

end Module

end SsaCodegen
