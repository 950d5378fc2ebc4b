import Mathlib.Data.List.Nodup
import SsaCodegen.Module.Verify
import SsaCodegen.Proofs.Module.Built
import SsaCodegen.Proofs.Module.Fields

/-!
# Blocks, parameters and constants keep their meaning

A block is listed by the function that it names, once, and by no other. A parameter says of which
function it is and at which position. A label names a block of the module. Of a value that is no
instruction nothing is ever learnt beyond what its kind says.

## Main definitions

* `Module.Owned` — blocks and parameters and their functions say the same of each other
* `Module.Labelled` — labels name blocks
* `Module.Primed` — what is known of values that are no instructions

## Main results

* `Module.Built.owned`, `Module.Built.labelled`, `Module.Built.primed` — all of them hold of every
  module that was built
-/

namespace SsaCodegen

namespace Module

variable {m m' : Module} {b c : BlockId} {f g : FuncId} {v : ValueId}

/-! ## Blocks and parameters -/

/-- The function that a block names. -/
def funcOf : Module → BlockId → Option FuncId := blockField (fun x => some x.func) none

theorem funcOf_eq_some : m.funcOf b = some f ↔ ∃ x, m.blocks[b.idx]? = some x ∧ x.func = f := by
  rw [funcOf, blockField]
  cases m.blocks[b.idx]? with
  | none => simp
  | some x => simp

theorem lt_of_funcOf (h : m.funcOf b = some f) : b.idx < m.blocks.size := by
  obtain ⟨x, hx, -⟩ := funcOf_eq_some.1 h
  exact (Array.getElem?_eq_some_iff.1 hx).1

/-- Functions list the blocks that name them, each once, and number their parameters. -/
structure Owned (m : Module) : Prop where
  mem : ∀ {b : BlockId} {f : FuncId},
    m.funcOf b = some f ↔ ∃ y : Func, m.funcs[f.idx]? = some y ∧ b ∈ y.blocks
  nodup : ∀ {f : FuncId} {y : Func}, m.funcs[f.idx]? = some y → y.blocks.Nodup
  param : ∀ {f : FuncId} {y : Func}, m.funcs[f.idx]? = some y →
    ∀ {i : Nat} {v : ValueId}, y.params[i]? = some v → m.kindOf v = some (.param f i)

theorem Owned.congr (h : Owned m) (hfunc : m'.funcOf = m.funcOf) (hfuncs : m'.funcs = m.funcs)
    (hkind : ∀ {v k}, m.kindOf v = some k → m'.kindOf v = some k) : Owned m' where
  mem := by
    rw [hfunc, hfuncs]
    exact h.mem
  nodup := by
    rw [hfuncs]
    exact h.nodup
  param := by
    rw [hfuncs]
    exact fun hy _ _ hv => hkind (h.param hy hv)

theorem kindOf_addValue_self (ty : Ty) (name : Option String) (kind : ValueKind) :
    (m.addValue ty name kind).kindOf m.nextValue = some kind := by
  simp [kindOf, valueField, addValue, nextValue]

theorem kindOf_addParams {index i : Nat} {params : List (String × Ty)}
    (h : (m.addParams f index params).1[i]? = some v) :
    (m.addParams f index params).2.kindOf v = some (.param f (index + i)) := by
  induction params generalizing m index i with
  | nil => cases h
  | cons q rest ih =>
    cases i with
    | zero =>
      cases h
      refine (valueField_addParams_of_lt f _ rest ?_).trans (kindOf_addValue_self _ _ _)
      simp [addValue, nextValue]
    | succ i =>
      have hstep : index + (i + 1) = index + 1 + i := by omega
      rw [hstep]
      exact ih h

theorem Owned.addFunction (h : Owned m) (name : String) (ret : Ty) (params : List (String × Ty)) :
    Owned (m.addFunction name ret params).2 := by
  have hcode := SameCode.addParams (m := m) ⟨m.funcs.size⟩ 0 params
  have hfuncs (g : FuncId) : (m.addFunction name ret params).2.funcs[g.idx]? =
      if g.idx = m.funcs.size then
        some { name, ret, params := (m.addParams ⟨m.funcs.size⟩ 0 params).1 }
      else m.funcs[g.idx]? := by
    simp only [Module.addFunction, Array.getElem?_push, hcode.funcs]
  have hfunc : (m.addFunction name ret params).2.funcOf = m.funcOf := hcode.blockField
  have hnew {g : FuncId} (hg : g.idx = m.funcs.size) (b : BlockId) : m.funcOf b ≠ some g := by
    intro hb
    obtain ⟨y, hy, -⟩ := h.mem.1 hb
    rw [hg, Array.getElem?_eq_none (Nat.le_refl _)] at hy
    cases hy
  refine ⟨fun {b g} => ?_, fun {g y} hy => ?_, fun {g y} hy {i v} hv => ?_⟩
  · rw [hfuncs, hfunc]
    split
    · rename_i hg
      simp [hnew hg]
    · exact h.mem
  · rw [hfuncs] at hy
    split at hy
    · cases hy
      exact List.nodup_nil
    · exact h.nodup hy
  · rw [hfuncs] at hy
    split at hy
    · rename_i hg
      cases hy
      have hv := kindOf_addParams hv
      rw [Nat.zero_add] at hv
      obtain ⟨g⟩ := g
      cases hg
      exact hv
    · have hv := h.param hy hv
      exact (valueField_addParams_of_lt _ _ _ (lt_of_valueField_ne hv nofun)).trans hv

theorem Owned.addBlock (h : Owned m) {name : String} (hm : m.addBlock f name = .ok (b, m')) :
    Owned m' := by
  have hkind {v : ValueId} {k : ValueKind} (hk : m.kindOf v = some k) : m'.kindOf v = some k :=
    (Step.block hm).kindOf_eq_some hk
  obtain ⟨x, hx, rfl, rfl⟩ := addBlock_eq_ok hm
  clear hm
  have hold {c : BlockId} {g : FuncId} (hc : m.funcOf c = some g) : c.idx < m.blocks.size := by
    obtain ⟨y, hy, -⟩ := funcOf_eq_some.1 hc
    exact (Array.getElem?_eq_some_iff.1 hy).1
  have hlisted {g : FuncId} {y : Func} (hy : m.funcs[g.idx]? = some y) :
      (⟨m.blocks.size⟩ : BlockId) ∉ y.blocks := fun hmem =>
    Nat.lt_irrefl _ (hold (h.mem.2 ⟨y, hy, hmem⟩))
  have hflt := (Array.getElem?_eq_some_iff.1 hx).1
  have hfunc (c : BlockId) : ∀ {k : Module} (_ : k.blocks = m.blocks.push
      { name, func := f, label := m.nextValue }), k.funcOf c =
      if c = ⟨m.blocks.size⟩ then some f else m.funcOf c := by
    intro k hk
    rw [funcOf, blockField, hk, Array.getElem?_push]
    by_cases hc : c = ⟨m.blocks.size⟩
    · subst hc
      rw [if_pos rfl, if_pos rfl]
      rfl
    · rw [if_neg fun hi => hc (BlockId.ext hi), if_neg hc]
      rfl
  have hfuncs (g : FuncId) : (m.funcs.setIfInBounds f.idx
      { x with blocks := x.blocks ++ [⟨m.blocks.size⟩] })[g.idx]? =
      if g = f then some { x with blocks := x.blocks ++ [⟨m.blocks.size⟩] }
      else m.funcs[g.idx]? := by
    rw [Array.getElem?_setIfInBounds]
    by_cases hg : g = f
    · subst hg
      rw [if_pos rfl, if_pos hflt, if_pos rfl]
    · rw [if_neg fun hi => hg (FuncId.ext hi.symm), if_neg hg]
  refine ⟨fun {c g} => ?_, fun {g y} hy => ?_, fun {g y} hy {i v} hv => ?_⟩
  · rw [hfunc c rfl]
    dsimp only
    rw [hfuncs]
    by_cases hc : c = ⟨m.blocks.size⟩
    · rw [if_pos hc]
      constructor
      · rintro ⟨rfl⟩
        exact ⟨_, if_pos rfl, by simp [hc]⟩
      · rintro ⟨y, hy, hmem⟩
        by_cases hg : g = f
        · rw [hg]
        · rw [if_neg hg] at hy
          exact absurd (hc ▸ hmem) (hlisted hy)
    · rw [if_neg hc, h.mem]
      by_cases hg : g = f
      · rw [if_pos hg, hg, hx]
        simp [hc]
      · rw [if_neg hg]
  · dsimp only at hy
    rw [hfuncs] at hy
    split at hy
    · cases hy
      dsimp only
      rw [← List.concat_eq_append]
      exact (h.nodup hx).concat (hlisted hx)
    · exact h.nodup hy
  · dsimp only at hy
    rw [hfuncs] at hy
    split at hy
    · rename_i hg
      cases hy
      exact hkind (hg ▸ h.param hx hv)
    · exact hkind (h.param hy hv)

section Link

variable {prev next : Option ValueId} {inst : ValueId}

theorem code_setNext (h : m.setNext b prev next = .ok m') :
    m'.funcOf = m.funcOf ∧ m'.funcs = m.funcs := by
  cases prev with
  | some p => exact ⟨(SameCode.modifyValue h).blockField, (SameCode.modifyValue h).funcs⟩
  | none =>
    refine ⟨blockField_modifyBlock (by exact fun _ => rfl) h, ?_⟩
    obtain ⟨x, -, rfl⟩ := modifyBlock_eq_ok.1 h
    rfl

theorem code_setPrev (h : m.setPrev b next prev = .ok m') :
    m'.funcOf = m.funcOf ∧ m'.funcs = m.funcs := by
  cases next with
  | some p => exact ⟨(SameCode.modifyValue h).blockField, (SameCode.modifyValue h).funcs⟩
  | none =>
    refine ⟨blockField_modifyBlock (by exact fun _ => rfl) h, ?_⟩
    obtain ⟨x, -, rfl⟩ := modifyBlock_eq_ok.1 h
    rfl

theorem code_linkBetween (h : m.linkBetween b inst prev next = .ok m') :
    m'.funcOf = m.funcOf ∧ m'.funcs = m.funcs := by
  obtain ⟨m₁, h₁, h⟩ := bind_eq_ok.1 h
  obtain ⟨m₂, h₂, h⟩ := bind_eq_ok.1 h
  have h₁ := SameCode.modifyValue h₁
  exact ⟨(code_setPrev h).1.trans ((code_setNext h₂).1.trans h₁.blockField),
    (code_setPrev h).2.trans ((code_setNext h₂).2.trans h₁.funcs)⟩

theorem code_unlink (h : m.unlink inst = .ok m') :
    m'.funcOf = m.funcOf ∧ m'.funcs = m.funcs := by
  obtain ⟨x, -, ⟨-, rfl⟩ | ⟨b, m₁, m₂, -, h₁, h₂, h⟩⟩ := unlink_cases h
  · exact ⟨rfl, rfl⟩
  · have h := SameCode.modifyValue h
    exact ⟨h.blockField.trans ((code_setPrev h₂).1.trans (code_setNext h₁).1),
      h.funcs.trans ((code_setPrev h₂).2.trans (code_setNext h₁).2)⟩

end Link

theorem SameCode.owned (hc : SameCode m m') (h : Owned m)
    (hkind : ∀ {v k}, m.kindOf v = some k → m'.kindOf v = some k) : Owned m' :=
  h.congr hc.blockField hc.funcs hkind

theorem Step.owned (hm : Step m m') (h : Owned m) : Owned m' := by
  have hkind {v : ValueId} {k : ValueKind} (hk : m.kindOf v = some k) : m'.kindOf v = some k :=
    hm.kindOf_eq_some hk
  cases hm with
  | types t => exact h.congr rfl rfl hkind
  | func name ret params => exact h.addFunction name ret params
  | block hm => exact h.addBlock hm
  | global name elem init => exact h.congr rfl rfl hkind
  | const c ty => exact h.congr rfl rfl hkind
  | inst ty name kind => exact h.congr rfl rfl hkind
  | name hm => exact (SameCode.modifyValue hm).owned h hkind
  | operand hm => exact (SameCode.addOperand hm).owned h hkind
  | replace hm => exact (SameCode.replaceOperand hm).owned h hkind
  | sever hm => exact (SameCode.severOperands hm).owned h hkind
  | unlink hm => exact h.congr (code_unlink hm).1 (code_unlink hm).2 hkind
  | append hm =>
    obtain ⟨-, -, hm⟩ := bind_eq_ok.1 hm
    obtain ⟨x, -, hm⟩ := bind_eq_ok.1 hm
    exact h.congr (code_linkBetween hm).1 (code_linkBetween hm).2 hkind
  | insert hm =>
    obtain ⟨-, -, hm⟩ := bind_eq_ok.1 hm
    obtain ⟨x, -, hm⟩ := bind_eq_ok.1 hm
    dsimp only at hm
    split at hm
    · cases hm
    · exact h.congr (code_linkBetween hm).1 (code_linkBetween hm).2 hkind
  | reach hm =>
    refine h.congr (blockField_modifyBlock (by exact fun _ => rfl) hm) ?_ hkind
    obtain ⟨x, -, rfl⟩ := modifyBlock_eq_ok.1 hm
    rfl
  | learn hm => exact (SameCode.propagate hm).owned h hkind

theorem Built.owned (h : m.Built) : Owned m := by
  refine h.keep ⟨fun {b f} => ?_, nofun, nofun⟩ fun h hm => hm.owned h
  simp [funcOf, blockField]

/-! ## Labels -/

/-- Every label names a block of the module. -/
def Labelled (m : Module) : Prop := ∀ v b, m.blockOf? v = some b → b.idx < m.blocks.size

theorem blockOf?_eq_valueField : m.blockOf? = m.valueField (fun x => x.kind.asBlock) none := by
  funext v
  rw [blockOf?, valueField]
  cases m.values[v.idx]? <;> rfl

theorem Labelled.congr (h : Labelled m) (hsize : m.blocks.size ≤ m'.blocks.size)
    (hfield : m'.valueField (fun x => x.kind.asBlock) none =
      m.valueField (fun x => x.kind.asBlock) none) : Labelled m' := by
  intro v b hb
  rw [blockOf?_eq_valueField, hfield, ← blockOf?_eq_valueField] at hb
  exact Nat.lt_of_lt_of_le (h v b hb) hsize

theorem SameCode.labelled (hc : SameCode m m') (h : Labelled m)
    (hfield : m'.valueField (fun x => x.kind.asBlock) none =
      m.valueField (fun x => x.kind.asBlock) none) : Labelled m' :=
  h.congr (Nat.le_of_eq (by rw [hc.blocks])) hfield

theorem Labelled.addBlock (h : Labelled m) {name : String}
    (hm : m.addBlock f name = .ok (b, m')) : Labelled m' := by
  obtain ⟨x, -, rfl, rfl⟩ := addBlock_eq_ok hm
  intro v c hc
  dsimp only
  rw [Array.size_push]
  rw [blockOf?, addValue, Array.getElem?_push] at hc
  split at hc
  · cases hc
    exact Nat.lt_succ_self _
  · exact Nat.lt_succ_of_lt (h v c hc)

theorem size_setNext {prev next : Option ValueId} (h : m.setNext b prev next = .ok m') :
    m'.blocks.size = m.blocks.size := by
  cases prev with
  | some p => rw [(SameCode.modifyValue h).blocks]
  | none =>
    obtain ⟨x, -, rfl⟩ := modifyBlock_eq_ok.1 h
    exact Array.size_setIfInBounds

theorem size_setPrev {prev next : Option ValueId} (h : m.setPrev b next prev = .ok m') :
    m'.blocks.size = m.blocks.size := by
  cases next with
  | some p => rw [(SameCode.modifyValue h).blocks]
  | none =>
    obtain ⟨x, -, rfl⟩ := modifyBlock_eq_ok.1 h
    exact Array.size_setIfInBounds

theorem size_linkBetween {prev next : Option ValueId} {inst : ValueId}
    (h : m.linkBetween b inst prev next = .ok m') : m'.blocks.size = m.blocks.size := by
  obtain ⟨m₁, h₁, h⟩ := bind_eq_ok.1 h
  obtain ⟨m₂, h₂, h⟩ := bind_eq_ok.1 h
  rw [size_setPrev h, size_setNext h₂, (SameCode.modifyValue h₁).blocks]

theorem size_unlink {inst : ValueId} (h : m.unlink inst = .ok m') :
    m'.blocks.size = m.blocks.size := by
  obtain ⟨x, -, ⟨-, rfl⟩ | ⟨b, m₁, m₂, -, h₁, h₂, h⟩⟩ := unlink_cases h
  · rfl
  · rw [(SameCode.modifyValue h).blocks, size_setPrev h₂, size_setNext h₁]

theorem Step.labelled (hm : Step m m') (h : Labelled m) : Labelled m' := by
  cases hm with
  | types t => exact h
  | func name ret params =>
    refine h.congr ?_ (valueField_addParams _ _ _ fun _ _ _ _ => rfl)
    exact Nat.le_of_eq (congrArg _ (SameCode.addParams _ _ _).blocks).symm
  | block hm => exact h.addBlock hm
  | global name elem init =>
    exact h.congr (Nat.le_refl _) (valueField_addValue (m := m.mention _) _ _ _ rfl)
  | const c ty => exact h.congr (Nat.le_refl _) (valueField_addValue _ _ _ rfl)
  | inst ty name kind => exact h.congr (Nat.le_refl _) (valueField_addValue _ _ _ rfl)
  | name hm =>
    exact (SameCode.modifyValue hm).labelled h (valueField_modifyValue (by exact fun _ => rfl) hm)
  | operand hm =>
    exact (SameCode.addOperand hm).labelled h
      (valueField_addOperand (fun _ _ => rfl) (fun _ _ => rfl) hm)
  | replace hm =>
    exact (SameCode.replaceOperand hm).labelled h
      (valueField_replaceOperand (fun _ _ => rfl) (fun _ _ => rfl) hm)
  | sever hm =>
    exact (SameCode.severOperands hm).labelled h
      (valueField_severOperands (fun _ _ => rfl) (fun _ _ => rfl) hm)
  | unlink hm =>
    exact h.congr (Nat.le_of_eq (size_unlink hm).symm) (valueField_unlink (fun _ _ => rfl) hm)
  | append hm =>
    refine h.congr ?_ (valueField_append (fun _ _ => rfl) hm)
    obtain ⟨-, -, hm⟩ := bind_eq_ok.1 hm
    obtain ⟨x, -, hm⟩ := bind_eq_ok.1 hm
    exact Nat.le_of_eq (size_linkBetween hm).symm
  | insert hm =>
    refine h.congr ?_ (valueField_insertBefore (fun _ _ => rfl) hm)
    obtain ⟨-, -, hm⟩ := bind_eq_ok.1 hm
    obtain ⟨x, -, hm⟩ := bind_eq_ok.1 hm
    dsimp only at hm
    split at hm
    · cases hm
    · exact Nat.le_of_eq (size_linkBetween hm).symm
  | reach hm =>
    refine h.congr ?_ (valueField_modifyBlock hm)
    obtain ⟨x, -, rfl⟩ := modifyBlock_eq_ok.1 hm
    exact Nat.le_of_eq Array.size_setIfInBounds.symm
  | learn hm =>
    exact (SameCode.propagate hm).labelled h (valueField_propagate (fun _ _ => rfl) hm)

theorem Built.labelled (h : m.Built) : Labelled m :=
  h.keep (P := Labelled) (fun _ _ hb => by cases hb) fun h hm => hm.labelled h

/-! ## Values that are no instructions -/

/-- Of a value that is no instruction its kind says all that is known. -/
def IsPrimed (x : Value) : Prop := x.kind.asInst = none → x.known = x.kind.initial

/-- Of the values of a module that are no instructions their kinds say all that is known. -/
def Primed (m : Module) : Prop := ∀ v, m.valueField IsPrimed True v

theorem Primed.congr (h : Primed m)
    (hm : m'.valueField IsPrimed True = m.valueField IsPrimed True) : Primed m' := by
  intro v
  rw [hm]
  exact h v

theorem Primed.known (h : Primed m) {x : Value} (hx : m.values[v.idx]? = some x)
    (hk : x.kind.asInst = none) : x.known = x.kind.initial := by
  have hv := h v
  rw [valueField_eq hx] at hv
  exact hv hk

theorem Primed.addValue (h : Primed m) (ty : Ty) (name : Option String) (kind : ValueKind) :
    Primed (m.addValue ty name kind) :=
  h.congr (valueField_addValue _ _ _ (eq_true fun _ => rfl))

/-- What the operands tell of a value that is no instruction is what is known already. -/
theorem Primed.propagate (h : Primed m) {changed : Bool}
    (hm : m.propagate v = .ok (changed, m')) : Primed m' := by
  obtain ⟨x, t, hx, ht, ⟨-, -, rfl⟩ | ⟨hne, -, rfl⟩⟩ := propagate_cases hm
  · exact h
  · intro w
    rw [valueField_setValue hx]
    split
    · intro hk
      obtain ⟨y, hy, ht⟩ := bind_eq_ok.1 ht
      cases hx.symm.trans (value_eq_ok.1 hy)
      rw [show x.kind.asInst = none from hk] at ht
      cases ht
      exact absurd (by cases x.known <;> simp [Constness.meet]) hne
    · exact h w

theorem Step.primed (hm : Step m m') (h : Primed m) : Primed m' := by
  cases hm with
  | types t => exact h.congr rfl
  | func name ret params =>
    exact h.congr (valueField_addParams _ _ _ fun _ _ _ _ => eq_true fun _ => rfl)
  | block hm =>
    obtain ⟨x, -, -, rfl⟩ := addBlock_eq_ok hm
    exact h.congr (valueField_addValue (m := m.mention _) _ _ _ (eq_true fun _ => rfl))
  | global name elem init => exact Primed.addValue (m := m.mention _) h _ _ _
  | const c ty => exact h.addValue _ _ _
  | inst ty name kind => exact h.addValue _ _ _
  | name hm => exact h.congr (valueField_modifyValue (by exact fun _ => rfl) hm)
  | operand hm => exact h.congr (valueField_addOperand (fun _ _ => rfl) (fun _ _ => rfl) hm)
  | replace hm => exact h.congr (valueField_replaceOperand (fun _ _ => rfl) (fun _ _ => rfl) hm)
  | sever hm => exact h.congr (valueField_severOperands (fun _ _ => rfl) (fun _ _ => rfl) hm)
  | unlink hm => exact h.congr (valueField_unlink (fun _ _ => rfl) hm)
  | append hm => exact h.congr (valueField_append (fun _ _ => rfl) hm)
  | insert hm => exact h.congr (valueField_insertBefore (fun _ _ => rfl) hm)
  | reach hm => exact h.congr (valueField_modifyBlock hm)
  | learn hm => exact h.propagate hm

theorem Built.primed (h : m.Built) : Primed m :=
  h.keep (P := Primed) (fun _ => trivial) fun h hm => hm.primed h

end Module

end SsaCodegen
