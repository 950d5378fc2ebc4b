import SsaCodegen.Proofs.Module.Owners
import SsaCodegen.Proofs.Module.Replace

/-!
# Labels and addresses

A value that is a label has the type of labels, and a value that is the address of a global variable
is that of one of the module. No operation changes the kind or the type of a value, and no global
variable is ever taken away.

## Main definitions

* `Module.Declared` — labels and addresses are what they should be

## Main results

* `Module.Built.declared` — they are, in every module that was built
-/

namespace SsaCodegen

namespace Module

variable {m m' : Module} {v : ValueId} {n n' : Nat}

/-- A label has the type of labels, and an address is that of one of the first `n` global
variables. -/
def IsDeclared (n : Nat) (x : Value) : Prop :=
  (∀ b, x.kind = .block b → x.ty = .label) ∧ ∀ g, x.kind = .global g → g.idx < n

/-- Labels have the type of labels, and addresses are those of global variables of the module. -/
def Declared (m : Module) : Prop := ∀ v, m.valueField (IsDeclared m.globals.size) True v

theorem Declared.global (h : Declared m) {g : GlobalId} (hk : m.kindOf v = some (.global g)) :
    g.idx < m.globals.size := by
  obtain ⟨x, hx, hk⟩ := kindOf_eq_some.1 hk
  have hv := h v
  rw [valueField_eq hx] at hv
  exact hv.2 g hk

theorem Declared.label (h : Declared m) {b : BlockId} (hk : m.kindOf v = some (.block b)) {x : Value}
    (hx : m.values[v.idx]? = some x) : x.ty = .label := by
  obtain ⟨x', hx', hk⟩ := kindOf_eq_some.1 hk
  cases hx.symm.trans hx'
  have hv := h v
  rw [valueField_eq hx] at hv
  exact hv.1 b hk

theorem isDeclared_of {x : Value} (hblock : x.kind.asBlock = none)
    (hglobal : x.kind.asGlobal = none) : IsDeclared n x := by
  refine ⟨fun b hk => ?_, fun g hk => ?_⟩
  · rw [hk] at hblock
    cases hblock
  · rw [hk] at hglobal
    cases hglobal

theorem Declared.congr (h : Declared m) (hglobals : m'.globals = m.globals)
    (hm : m'.valueField (IsDeclared m.globals.size) True =
      m.valueField (IsDeclared m.globals.size) True) : Declared m' := by
  intro v
  rw [hglobals, hm]
  exact h v

/-- With more global variables an address stays one of them. -/
theorem valueField_isDeclared_mono (hle : n ≤ n') (h : m.valueField (IsDeclared n) True v) :
    m.valueField (IsDeclared n') True v := by
  cases hx : m.values[v.idx]? with
  | none =>
    rw [valueField, hx]
    trivial
  | some x =>
    rw [valueField_eq hx] at h ⊢
    exact ⟨h.1, fun g hg => Nat.lt_of_lt_of_le (h.2 g hg) hle⟩

theorem globals_of_bare (h : m'.bare = m.bare) : m'.globals = m.globals := by
  show m'.bare.globals = m.bare.globals
  rw [h]

theorem globals_modifyValue {f : Value → Value} (h : m.modifyValue v f = .ok m') :
    m'.globals = m.globals := by
  obtain ⟨x, -, rfl⟩ := modifyValue_eq_ok.1 h
  rfl

theorem globals_addOperand {user value : ValueId} (h : m.addOperand user value = .ok m') :
    m'.globals = m.globals := by
  obtain ⟨x, -, h⟩ := bind_eq_ok.1 h
  obtain ⟨m₁, h₁, h⟩ := bind_eq_ok.1 h
  rw [globals_modifyValue h, globals_modifyValue h₁]

theorem globals_linkBetween {b : BlockId} {inst : ValueId} {prev next : Option ValueId}
    (h : m.linkBetween b inst prev next = .ok m') : m'.globals = m.globals := by
  obtain ⟨m₁, h₁, h⟩ := bind_eq_ok.1 h
  obtain ⟨m₂, h₂, h⟩ := bind_eq_ok.1 h
  rw [globals_of_bare (bare_setPrev h), globals_of_bare (bare_setNext h₂), globals_modifyValue h₁]

theorem globals_append {b : BlockId} {inst : ValueId} (h : m.append b inst = .ok m') :
    m'.globals = m.globals := by
  obtain ⟨-, -, h⟩ := bind_eq_ok.1 h
  obtain ⟨x, -, h⟩ := bind_eq_ok.1 h
  exact globals_linkBetween h

theorem globals_insertBefore {anchor inst : ValueId} (h : m.insertBefore anchor inst = .ok m') :
    m'.globals = m.globals := by
  obtain ⟨-, -, h⟩ := bind_eq_ok.1 h
  obtain ⟨x, -, h⟩ := bind_eq_ok.1 h
  dsimp only at h
  split at h
  · cases h
  · exact globals_linkBetween h

theorem globals_addParams (f : FuncId) (index : Nat) (params : List (String × Ty)) :
    (m.addParams f index params).2.globals = m.globals := by
  induction params generalizing m index with
  | nil => rfl
  | cons q rest ih => exact ih (index + 1)

theorem globals_propagate {changed : Bool} (h : m.propagate v = .ok (changed, m')) :
    m'.globals = m.globals := by
  obtain ⟨x, t, -, -, ⟨-, -, rfl⟩ | ⟨-, -, rfl⟩⟩ := propagate_cases h
  · rfl
  · rfl

theorem Step.declared (hm : Step m m') (h : Declared m) : Declared m' := by
  cases hm with
  | types t => exact h
  | func name ret params =>
    refine h.congr (globals_addParams _ _ _) (valueField_addParams _ _ _ fun _ _ _ _ => ?_)
    exact eq_true (isDeclared_of rfl rfl)
  | block hm =>
    obtain ⟨x, -, -, rfl⟩ := addBlock_eq_ok hm
    refine h.congr rfl (valueField_addValue (m := m.mention .label) _ _ _ ?_)
    refine eq_true ⟨fun _ _ => rfl, fun g hk => ?_⟩
    cases hk
  | global name elem init =>
    intro v
    have hsize : (m.addGlobal name elem init).2.globals.size = m.globals.size + 1 :=
      Array.size_push _
    have hfield : (m.addGlobal name elem init).2.valueField
        (IsDeclared (m.globals.size + 1)) True =
          m.valueField (IsDeclared (m.globals.size + 1)) True := by
      refine valueField_addValue (m := m.mention (.ptr elem)) _ _ _ (eq_true ⟨?_, ?_⟩)
      · intro b hk
        cases hk
      · intro g hk
        cases hk
        exact Nat.lt_succ_self _
    rw [hsize, hfield]
    exact valueField_isDeclared_mono (Nat.le_succ _) (h v)
  | const c ty =>
    refine h.congr rfl (valueField_addValue _ _ _ ?_)
    exact eq_true (isDeclared_of rfl rfl)
  | inst ty name kind =>
    refine h.congr rfl (valueField_addValue _ _ _ ?_)
    exact eq_true (isDeclared_of rfl rfl)
  | name hm =>
    exact h.congr (globals_modifyValue hm) (valueField_modifyValue (by exact fun _ => rfl) hm)
  | operand hm =>
    exact h.congr (globals_addOperand hm)
      (valueField_addOperand (fun _ _ => rfl) (fun _ _ => rfl) hm)
  | replace hm =>
    exact h.congr (globals_of_bare (bare_replaceOperand hm))
      (valueField_replaceOperand (fun _ _ => rfl) (fun _ _ => rfl) hm)
  | sever hm =>
    exact h.congr (globals_of_bare (bare_severOperands hm))
      (valueField_severOperands (fun _ _ => rfl) (fun _ _ => rfl) hm)
  | unlink hm =>
    exact h.congr (globals_of_bare (bare_unlink hm)) (valueField_unlink (fun _ _ => rfl) hm)
  | append hm => exact h.congr (globals_append hm) (valueField_append (fun _ _ => rfl) hm)
  | insert hm =>
    exact h.congr (globals_insertBefore hm) (valueField_insertBefore (fun _ _ => rfl) hm)
  | reach hm =>
    refine h.congr ?_ (valueField_modifyBlock hm)
    obtain ⟨x, -, rfl⟩ := modifyBlock_eq_ok.1 hm
    rfl
  | learn hm => exact h.congr (globals_propagate hm) (valueField_propagate (fun _ _ => rfl) hm)

theorem Built.declared (h : m.Built) : Declared m :=
  h.keep (P := Declared) (fun _ => trivial) fun h hm => hm.declared h

end Module

end SsaCodegen
