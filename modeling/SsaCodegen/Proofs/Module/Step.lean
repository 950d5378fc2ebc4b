import SsaCodegen.Pass
import SsaCodegen.Proofs.ConstProp.Learning

/-!
# What one step can do to a module

Every operation of the library that changes a module, however long it runs, is a sequence of the
few steps listed here: an entity is created, one operand or one link changes, a flag is set or a
lattice value comes down. An invariant of modules is therefore proved once, one case a step, and
holds after all operations.

The steps are finer than what a caller can ask for. Taking an instruction off its block, say, is a
step, while `disconnect` also looks at the uses first. That costs nothing: an invariant that holds
after every step holds after every operation.

## Main definitions

* `Module.Step` — one change
* `Module.Steps` — any number of them

## Main results

* `Module.disconnect_steps`, `Module.replaceAllUses_steps` — the edits of the use-def graph
* `Module.solve_steps`, `Module.foldConstants_steps` — constant propagation and folding
-/

namespace SsaCodegen

namespace Module

/-- One change of a module. -/
inductive Step : Module → Module → Prop
  | types (m : Module) (t : TypeTable) : Step m { m with types := t }
  | func (m : Module) (name : String) (ret : Ty) (params : List (String × Ty)) :
      Step m (m.addFunction name ret params).2
  | block {m m' : Module} {f : FuncId} {name : String} {b : BlockId}
      (h : m.addBlock f name = .ok (b, m')) : Step m m'
  | global (m : Module) (name : String) (elem : Ty) (init : Option ConstValue) :
      Step m (m.addGlobal name elem init).2
  | const (m : Module) (c : ConstValue) (ty : Ty) : Step m (m.addConst c ty).2
  | inst (m : Module) (ty : Ty) (name : Option String) (kind : InstKind) :
      Step m (m.addValue ty name (.inst kind))
  | name {m m' : Module} {v : ValueId} {name : String} (h : m.setName v name = .ok m') : Step m m'
  | operand {m m' : Module} {user value : ValueId} (h : m.addOperand user value = .ok m') :
      Step m m'
  | replace {m m' : Module} {user value : ValueId} {index : Nat} {r : Except GraphError Unit}
      (h : m.replaceOperand user index value = .ok (r, m')) : Step m m'
  | sever {m m' : Module} {user : ValueId} (h : m.severOperands user = .ok m') : Step m m'
  | unlink {m m' : Module} {inst : ValueId} (h : m.unlink inst = .ok m') : Step m m'
  | append {m m' : Module} {b : BlockId} {inst : ValueId} (h : m.append b inst = .ok m') :
      Step m m'
  | insert {m m' : Module} {anchor inst : ValueId} (h : m.insertBefore anchor inst = .ok m') :
      Step m m'
  | reach {m m' : Module} {b : BlockId} {r : Bool} (h : m.setReachable b r = .ok m') : Step m m'
  | learn {m m' : Module} {inst : ValueId} {changed : Bool}
      (h : m.propagate inst = .ok (changed, m')) : Step m m'

/-- Any number of changes. -/
abbrev Steps : Module → Module → Prop := Relation.ReflTransGen Step

/-- What holds of a module and is kept by every step holds after any number of them. -/
theorem Steps.keep {P : Module → Prop} (hP : ∀ {m m' : Module}, P m → Step m m' → P m')
    {m m' : Module} (hs : Steps m m') (h : P m) : P m' := by
  induction hs with
  | refl => exact h
  | tail _ hstep ih => exact hP ih hstep

/-! ## Loops of edits -/

section Loops

variable {R : Module → Module → Prop} (hrefl : ∀ m, R m m)
  (htrans : ∀ {m m₁ m' : Module}, R m m₁ → R m₁ m' → R m m')
include hrefl htrans

/-- What relates a module to the one after the body of a loop, and can be chained, relates it to the
one after the loop. -/
theorem foldlM_chain {step : Module → α → Except Fault Module}
    (hstep : ∀ {m m' : Module} {a : α}, step m a = .ok m' → R m m') {items : List α}
    {m m' : Module} (h : items.foldlM step m = .ok m') : R m m' := by
  induction items generalizing m with
  | nil =>
    cases h
    exact hrefl _
  | cons a rest ih =>
    rw [List.foldlM_cons] at h
    obtain ⟨m₁, h₁, h⟩ := bind_eq_ok.1 h
    exact htrans (hstep h₁) (ih h)

/-- The same for a loop of edits, also when it ends early. -/
theorem editFold_chain {edit : Module → α → Except Fault (Edited β)} {gather : γ → β → γ}
    (hedit : ∀ {m m' : Module} {a : α} {r : Except GraphError β},
      edit m a = .ok (r, m') → R m m')
    {items : List α} {acc : γ} {m m' : Module} {r : Except GraphError γ}
    (h : editFold edit gather acc m items = .ok (r, m')) : R m m' := by
  induction items generalizing m acc with
  | nil =>
    cases h
    exact hrefl _
  | cons a rest ih =>
    obtain ⟨⟨r₁, m₁⟩, h₁, h⟩ := bind_eq_ok.1 h
    cases r₁ with
    | error e =>
      cases h
      exact hedit h₁
    | ok b => exact htrans (hedit h₁) (ih h)

end Loops

/-- A loop whose body takes steps takes steps. -/
theorem foldlM_steps {step : Module → α → Except Fault Module}
    (hstep : ∀ {m m' : Module} {a : α}, step m a = .ok m' → Steps m m') {items : List α}
    {m m' : Module} (h : items.foldlM step m = .ok m') : Steps m m' :=
  foldlM_chain (R := Steps) (fun _ => .refl) .trans hstep h

/-- A loop whose body takes steps takes steps, also when it ends early. -/
theorem editFold_steps {edit : Module → α → Except Fault (Edited β)} {gather : γ → β → γ}
    (hedit : ∀ {m m' : Module} {a : α} {r : Except GraphError β},
      edit m a = .ok (r, m') → Steps m m')
    {items : List α} {acc : γ} {m m' : Module} {r : Except GraphError γ}
    (h : editFold edit gather acc m items = .ok (r, m')) : Steps m m' :=
  editFold_chain (R := Steps) (fun _ => .refl) .trans hedit h

theorem createInst_steps {m m' : Module} {kind : InstKind} {ty : Ty} {operands : List ValueId}
    {name : Option String} {inst : ValueId}
    (h : m.createInst kind ty operands name = .ok (inst, m')) : Steps m m' := by
  obtain ⟨m₁, h₁, h⟩ := bind_eq_ok.1 h
  cases h
  exact (Relation.ReflTransGen.single (.inst m ty name kind)).trans
    (foldlM_steps (fun h => .single (.operand h)) h₁)

theorem moveToEnd_steps {m m' : Module} {inst : ValueId} {b : BlockId}
    (h : m.moveToEnd inst b = .ok m') : Steps m m' := by
  obtain ⟨m₁, h₁, h⟩ := bind_eq_ok.1 h
  exact (Relation.ReflTransGen.single (.unlink h₁)).tail (.append h)

theorem resetReachability_steps {m m' : Module} {f : FuncId}
    (h : m.resetReachability f = .ok m') : Steps m m' := by
  obtain ⟨x, -, h⟩ := bind_eq_ok.1 h
  exact foldlM_steps (fun h => .single (.reach h)) h

/-! ## Edits of the use-def graph -/

/-- What relates a module to the one after an instruction has left its block or lost its operands, and
can be chained, relates it to the one after a removal. -/
theorem disconnectWithin_chain {R : Module → Module → Prop} (hrefl : ∀ m, R m m)
    (htrans : ∀ {m m₁ m' : Module}, R m m₁ → R m₁ m' → R m m')
    (hunlink : ∀ {m m' : Module} {inst : ValueId}, m.unlink inst = .ok m' → R m m')
    (hsever : ∀ {m m' : Module} {inst : ValueId}, m.severOperands inst = .ok m' → R m m')
    {depth : Nat} {m m' : Module} {inst : ValueId} {operands users : Bool}
    {r : Except GraphError Unit}
    (h : disconnectWithin depth m inst operands users = .ok (r, m')) : R m m' := by
  induction depth generalizing m m' inst operands users r with
  | zero => cases h
  | succ depth ih =>
    obtain ⟨k, -, h⟩ := bind_eq_ok.1 h
    split at h
    · cases h
      exact hrefl _
    obtain ⟨uses, -, h⟩ := bind_eq_ok.1 h
    split at h
    · cases h
      exact hrefl _
    obtain ⟨m₁, h₁, h⟩ := bind_eq_ok.1 h
    -- the operands are dropped or not; either way the users of the resulting module come next
    obtain ⟨m₂, hm₂, h⟩ : ∃ m₂, R m₁ m₂ ∧ (if users = true then do
        m₂.editEach (fun m user => disconnectWithin depth m user true true) (← m₂.users inst)
        else pure (.ok (), m₂)) = Except.ok (r, m') := by
      dsimp only at h
      split at h <;> obtain ⟨m₂, h₂, h⟩ := bind_eq_ok.1 h
      · exact ⟨m₂, hsever h₂, h⟩
      · cases h₂
        exact ⟨m₁, hrefl _, h⟩
    refine htrans (hunlink h₁) (htrans hm₂ ?_)
    split at h
    · obtain ⟨us, -, h⟩ := bind_eq_ok.1 h
      exact editFold_chain hrefl htrans ih h
    · cases h
      exact hrefl _

theorem disconnect_steps {m m' : Module} {inst : ValueId} {operands users : Bool}
    {r : Except GraphError Unit} (h : m.disconnect inst operands users = .ok (r, m')) :
    Steps m m' :=
  disconnectWithin_chain (R := Steps) (fun _ => .refl) .trans (fun h => .single (.unlink h))
    (fun h => .single (.sever h)) h

theorem replaceAllUses_steps {m m' : Module} {old new : ValueId} {r : Except GraphError Unit}
    (h : m.replaceAllUses old new = .ok (r, m')) : Steps m m' := by
  rw [replaceAllUses] at h
  split at h
  · cases h
    exact .refl
  obtain ⟨uses, -, h⟩ := bind_eq_ok.1 h
  obtain ⟨⟨r₁, m₁⟩, h₁, h⟩ := bind_eq_ok.1 h
  have hreplace : Steps m m₁ := editFold_steps (fun h => .single (.replace h)) h₁
  cases r₁ with
  | error e =>
    cases h
    exact hreplace
  | ok _ =>
    obtain ⟨left, -, h⟩ := bind_eq_ok.1 h
    dsimp only at h
    split at h
    · obtain ⟨k, -, h⟩ := bind_eq_ok.1 h
      split at h
      · exact hreplace.trans (disconnect_steps h)
      · cases h
        exact hreplace
    · cases h

/-! ## Constant propagation -/

theorem Learns.steps {m m' : Module} (h : Learns m m') : Steps m m' := by
  refine Relation.ReflTransGen.mono (fun m m' hl => ?_) m m' h
  cases hl with
  | reach h => exact .reach h
  | value h => exact .learn h

theorem solve_steps {m m' : Module} {f : FuncId} {n : Nat} (h : m.solve f = .ok (n, m')) :
    Steps m m' :=
  (solve_learns h).steps

theorem foldInst_steps {m m' : Module} {inst : ValueId} {r : Except GraphError Nat}
    (h : m.foldInst inst = .ok (r, m')) : Steps m m' := by
  obtain ⟨x, -, h⟩ := bind_eq_ok.1 h
  split at h
  · cases h
    exact .refl
  · rename_i n _
    split at h
    · have hconst : Steps m (m.addConst (.int n) x.ty).2 := .single (.const m _ _)
      obtain ⟨⟨r₁, m₁⟩, h₁, h⟩ := bind_eq_ok.1 h
      have hrest := hconst.trans (replaceAllUses_steps h₁)
      cases r₁ <;> cases h <;> exact hrest
    · cases h
      exact .refl

theorem foldBlock_steps {m m' : Module} {b : BlockId} {r : Except GraphError Nat}
    (h : m.foldBlock b = .ok (r, m')) : Steps m m' := by
  obtain ⟨x, -, h⟩ := bind_eq_ok.1 h
  split at h
  · obtain ⟨insts, -, h⟩ := bind_eq_ok.1 h
    exact editFold_steps foldInst_steps h
  · cases h
    exact .refl

theorem foldConstants_steps {m m' : Module} {f : FuncId} {r : Except GraphError Nat}
    (h : m.foldConstants f = .ok (r, m')) : Steps m m' := by
  obtain ⟨x, -, h⟩ := bind_eq_ok.1 h
  exact editFold_steps foldBlock_steps h

end Module

end SsaCodegen
