import SsaCodegen.Module.Builder
import SsaCodegen.Proofs.Module.Step

/-!
# Modules that were built

A module has no other origin than the empty module and the operations of this library. `Action`
lists the operations that a caller can ask for, with their arguments; a module is *built* when a
list of actions, none of which meets a fault, leads to it. An edit that is refused counts as well:
the module goes on with whatever the edit changed before.

## Main definitions

* `Builder.Method`, `Module.Action` — what a caller can ask for
* `Module.Built` — the modules that come out
* `Builder.Prepares`, `Builder.Pushes` — what a builder does before and when it appends an instruction

## Main results

* `Module.Built.keep` — an invariant of the empty module that every step keeps holds of every
  module that was built
-/

namespace SsaCodegen

/-- A method of a builder with its arguments. -/
inductive Builder.Method where
  | const (n : Int64) (ty : Ty)
  | i32 (n : Int64)
  | binary (op : BinOp) (l r : ValueId)
  | compare (op : CmpOp) (l r : ValueId)
  | sext (v : ValueId) (ty : Ty)
  | cast (v : ValueId) (ty : Ty)
  | br (dest : BlockId)
  | condBr (cond : ValueId) (thenBlock elseBlock : BlockId)
  | ret (v : Option ValueId)
  | load (ptr : ValueId)
  | store (v ptr : ValueId)
  | elementAddr (base index : ValueId)
  | fieldAddr (base : ValueId) (index : Nat)
  | call (callee : FuncId) (args : List ValueId)
  | alloca (slot : Ty)
  | phi (ty : Ty)
  | addIncoming (inst value : ValueId) (pred : BlockId)

/-- What a method does. Its result, the id of a new value, can be told from the module. -/
def Builder.Method.run : Builder.Method → BuildM Unit
  | const n ty => do let _ ← Builder.const n ty
  | i32 n => do let _ ← Builder.i32 n
  | binary op l r => do let _ ← Builder.binary op l r
  | compare op l r => do let _ ← Builder.compare op l r
  | sext v ty => do let _ ← Builder.sext v ty
  | cast v ty => do let _ ← Builder.cast v ty
  | br dest => do let _ ← Builder.br dest
  | condBr cond thenBlock elseBlock => do let _ ← Builder.condBr cond thenBlock elseBlock
  | ret v => do let _ ← Builder.ret v
  | load ptr => do let _ ← Builder.load ptr
  | store v ptr => do let _ ← Builder.store v ptr
  | elementAddr base index => do let _ ← Builder.elementAddr base index
  | fieldAddr base index => do let _ ← Builder.fieldAddr base index
  | call callee args => do let _ ← Builder.call callee args
  | alloca slot => do let _ ← Builder.alloca slot
  | phi ty => do let _ ← Builder.phi ty
  | addIncoming inst value pred => Builder.addIncoming inst value pred

namespace Module

/-- What a caller can ask of a module. Four fields of a block are open to direct writes as well: of
these, the mark has an action, and writes of its name, function and label are left out. -/
inductive Action where
  | mention (ty : Ty)
  | declareClass (name : String) (fields : List (String × Ty))
  | addFunction (name : String) (ret : Ty) (params : List (String × Ty))
  | addBlock (f : FuncId) (name : String)
  | addGlobal (name : String) (elem : Ty) (init : Option ConstValue)
  | addConst (c : ConstValue) (ty : Ty)
  | setName (v : ValueId) (name : String)
  | createInst (kind : InstKind) (ty : Ty) (operands : List ValueId) (name : Option String)
  | addOperand (user value : ValueId)
  | replaceOperand (user : ValueId) (index : Nat) (value : ValueId)
  | disconnect (inst : ValueId) (operands users : Bool)
  | replaceAllUses (old new : ValueId)
  | append (b : BlockId) (inst : ValueId)
  | insertBefore (anchor inst : ValueId)
  | moveToEnd (inst : ValueId) (b : BlockId)
  | build (b : BlockId) (method : Builder.Method)
  | setReachable (b : BlockId) (reachable : Bool)
  | resetReachability (f : FuncId)
  | propagate (v : ValueId)
  | solve (f : FuncId)
  | foldConstants (f : FuncId)

/-- The module after an action, unless it meets a fault. -/
def Action.run (m : Module) : Action → Except Fault Module
  | mention ty => return m.mention ty
  | declareClass name fields => return { m with types := ← m.types.declare name fields }
  | addFunction name ret params => return (m.addFunction name ret params).2
  | addBlock f name => return (← m.addBlock f name).2
  | addGlobal name elem init => return (m.addGlobal name elem init).2
  | addConst c ty => return (m.addConst c ty).2
  | setName v name => m.setName v name
  | createInst kind ty operands name => return (← m.createInst kind ty operands name).2
  | addOperand user value => m.addOperand user value
  | replaceOperand user index value => return (← m.replaceOperand user index value).2
  | disconnect inst operands users => return (← m.disconnect inst operands users).2
  | replaceAllUses old new => return (← m.replaceAllUses old new).2
  | append b inst => m.append b inst
  | insertBefore anchor inst => m.insertBefore anchor inst
  | moveToEnd inst b => m.moveToEnd inst b
  | build b method => return (← method.run ⟨m, b⟩).2.module
  | setReachable b reachable => m.setReachable b reachable
  | resetReachability f => m.resetReachability f
  | propagate v => return (← m.propagate v).2
  | solve f => return (← m.solve f).2
  | foldConstants f => return (← m.foldConstants f).2

/-- The modules that actions lead to from the empty module. -/
def Built (m : Module) : Prop := ∃ actions : List Action, actions.foldlM Action.run {} = .ok m

end Module

/-! ## Building takes steps -/

namespace Builder

open SsaCodegen.Module Relation

/-- What a method can do to the module before it appends an instruction. -/
inductive Prepares : Builder → Builder → Prop
  | mention (s : Builder) (ty : Ty) : Prepares s { s with module := s.module.mention ty }
  | const (s : Builder) (c : ConstValue) (ty : Ty) :
      Prepares s { s with module := (s.module.addConst c ty).2 }
  | operand {s : Builder} {m : Module} {user value : ValueId}
      (h : s.module.addOperand user value = .ok m) : Prepares s { s with module := m }

/-- A computation that appends no instruction. -/
def Prepared (x : BuildM α) : Prop :=
  ∀ (s s' : Builder) (a : α), x s = .ok (a, s') → ReflTransGen Prepares s s'

/-- A computation that appends an instruction in the end. -/
def Pushes (x : BuildM α) : Prop :=
  ∀ (s s' : Builder) (a : α), x s = .ok (a, s') → ∃ s₁ kind ty operands v,
    ReflTransGen Prepares s s₁ ∧ push kind ty operands s₁ = .ok (v, s')

theorem Prepared.bind {x : BuildM α} {f : α → BuildM β} (hx : Prepared x)
    (hf : ∀ a, Prepared (f a)) : Prepared (x >>= f) := by
  intro s s' b h
  obtain ⟨⟨a, s₁⟩, h₁, h⟩ := bind_eq_ok.1 h
  exact (hx _ _ _ h₁).trans (hf a _ _ _ h)

theorem Prepared.bind_pushes {x : BuildM α} {f : α → BuildM β} (hx : Prepared x)
    (hf : ∀ a, Pushes (f a)) : Pushes (x >>= f) := by
  intro s s' b h
  obtain ⟨⟨a, s₁⟩, h₁, h⟩ := bind_eq_ok.1 h
  obtain ⟨s₂, kind, ty, operands, v, hs, hpush⟩ := hf a _ _ _ h
  exact ⟨s₂, kind, ty, operands, v, (hx _ _ _ h₁).trans hs, hpush⟩

/-- The result of a computation does not matter. -/
theorem Pushes.discard {x : BuildM α} (hx : Pushes x) : Pushes (do let _ ← x) := by
  intro s s' u h
  obtain ⟨⟨a, s₁⟩, h₁, h⟩ := bind_eq_ok.1 h
  cases h
  exact hx _ _ _ h₁

theorem prepared_pure (a : α) : Prepared (pure a : BuildM α) := by
  intro s s' b h
  cases h
  exact .refl

theorem prepared_query (f : Module → Except Fault α) : Prepared (query f) := by
  intro s s' a h
  obtain ⟨b, -, h⟩ := bind_eq_ok.1 h
  cases h
  exact .refl

theorem prepared_mention (ty : Ty) : Prepared (mention ty) := by
  intro s s' a h
  cases h
  exact .single (.mention s ty)

theorem prepared_const (n : Int64) (ty : Ty) : Prepared (const n ty) := by
  intro s s' a h
  cases h
  exact .single (.const s _ ty)

theorem prepared_addIncoming (phi value : ValueId) (pred : BlockId) :
    Prepared (addIncoming phi value pred) := by
  refine (prepared_query _).bind fun label => ?_
  intro s s' u h
  obtain ⟨⟨⟨u', m⟩, s₁⟩, hm, h⟩ := bind_eq_ok.1 h
  obtain ⟨c, hc, hm⟩ := bind_eq_ok.1 hm
  obtain ⟨m₁, h₁, hc⟩ := bind_eq_ok.1 hc
  obtain ⟨m₂, h₂, hc⟩ := bind_eq_ok.1 hc
  cases hc
  cases hm
  cases h
  exact .tail (.single (.operand h₁)) (.operand (s := { s with module := m₁ }) h₂)

theorem pushes_push (kind : InstKind) (ty : Ty) (operands : List ValueId) :
    Pushes (push kind ty operands) :=
  fun s _ v h => ⟨s, kind, ty, operands, v, .refl, h⟩

theorem pushes_load (ptr : ValueId) : Pushes (load ptr) := by
  refine (prepared_query _).bind_pushes fun ty => ?_
  split
  · exact pushes_push _ _ _
  · intro s s' a h
    cases h

/-- Whether a method appends an instruction. -/
def Method.pushes : Method → Bool
  | const .. | i32 .. | addIncoming .. => false
  | _ => true

/-- What a method does. -/
theorem Method.cases_run (method : Method) :
    if method.pushes then Pushes method.run else Prepared method.run := by
  have hi32 (n : Int64) : Prepared (Builder.i32 n) :=
    (prepared_mention _).bind fun _ => prepared_const _ _
  cases method with
  | const n ty => exact (prepared_const n ty).bind fun _ => prepared_pure _
  | i32 n => exact (hi32 n).bind fun _ => prepared_pure _
  | addIncoming inst value pred => exact prepared_addIncoming inst value pred
  | binary op l r => exact ((prepared_query _).bind_pushes fun _ => pushes_push _ _ _).discard
  | compare op l r => exact ((prepared_mention _).bind_pushes fun _ => pushes_push _ _ _).discard
  | sext v ty => exact (pushes_push _ _ _).discard
  | cast v ty => exact (pushes_push _ _ _).discard
  | br dest =>
    exact ((prepared_query _).bind_pushes fun _ => (prepared_mention _).bind_pushes fun _ =>
      pushes_push _ _ _).discard
  | condBr cond thenBlock elseBlock =>
    exact ((prepared_query _).bind_pushes fun _ => (prepared_query _).bind_pushes fun _ =>
      (prepared_mention _).bind_pushes fun _ => pushes_push _ _ _).discard
  | ret v => exact ((prepared_mention _).bind_pushes fun _ => pushes_push _ _ _).discard
  | load ptr => exact (pushes_load ptr).discard
  | store v ptr => exact ((prepared_mention _).bind_pushes fun _ => pushes_push _ _ _).discard
  | elementAddr base index =>
    exact ((prepared_query _).bind_pushes fun _ => pushes_push _ _ _).discard
  | fieldAddr base index =>
    exact ((prepared_query _).bind_pushes fun _ => (prepared_query _).bind_pushes fun _ =>
      (prepared_mention _).bind_pushes fun _ => (hi32 _).bind_pushes fun _ =>
      pushes_push _ _ _).discard
  | call callee args => exact ((prepared_query _).bind_pushes fun _ => pushes_push _ _ _).discard
  | alloca slot => exact ((prepared_mention _).bind_pushes fun _ => pushes_push _ _ _).discard
  | phi ty => exact (pushes_push _ _ _).discard

/-- The new instruction is outside every block until it is appended to the current one. -/
theorem push_eq_ok {s s' : Builder} {kind : InstKind} {ty : Ty} {operands : List ValueId}
    {v : ValueId} (h : push kind ty operands s = .ok (v, s')) :
    ∃ m, s.module.createInst kind ty operands none = .ok (v, m) ∧
      m.append s.block v = .ok s'.module := by
  obtain ⟨⟨⟨v', m'⟩, s₁⟩, hm, h⟩ := bind_eq_ok.1 h
  obtain ⟨c, hc, hm⟩ := bind_eq_ok.1 hm
  obtain ⟨⟨inst, m⟩, h₁, hc⟩ := bind_eq_ok.1 hc
  obtain ⟨m₂, h₂, hc⟩ := bind_eq_ok.1 hc
  cases hc
  cases hm
  cases h
  exact ⟨m, h₁, h₂⟩

theorem Prepares.steps {s s' : Builder} (h : ReflTransGen Prepares s s') :
    Steps s.module s'.module := by
  induction h with
  | refl => exact .refl
  | tail _ hstep ih =>
    cases hstep with
    | mention => exact ih.tail (.types _ _)
    | const => exact ih.tail (.const _ _ _)
    | operand h => exact ih.tail (.operand h)

/-- A computation that builds takes steps on its module. -/
def Takes (x : BuildM α) : Prop :=
  ∀ (s s' : Builder) (a : α), x s = .ok (a, s') → Steps s.module s'.module

theorem Method.takes (method : Method) : Takes method.run := by
  intro s s' u h
  have hrun := method.cases_run
  split at hrun
  · obtain ⟨s₁, kind, ty, operands, v, hs, hpush⟩ := hrun s s' u h
    obtain ⟨m, h₁, h₂⟩ := push_eq_ok hpush
    exact ((Prepares.steps hs).trans (createInst_steps h₁)).tail (.append h₂)
  · exact Prepares.steps (hrun s s' u h)

end Builder

namespace Module

theorem Action.run_steps {a : Action} {m m' : Module} (h : a.run m = .ok m') : Steps m m' := by
  cases a with
  | mention ty =>
    cases h
    exact .single (.types m _)
  | declareClass name fields =>
    obtain ⟨t, -, h⟩ := bind_eq_ok.1 h
    cases h
    exact .single (.types m _)
  | addFunction name ret params =>
    cases h
    exact .single (.func m _ _ _)
  | addBlock f name =>
    obtain ⟨⟨b, m₁⟩, h₁, h⟩ := bind_eq_ok.1 h
    cases h
    exact .single (.block h₁)
  | addGlobal name elem init =>
    cases h
    exact .single (.global m _ _ _)
  | addConst c ty =>
    cases h
    exact .single (.const m _ _)
  | setName v name => exact .single (.name h)
  | createInst kind ty operands name =>
    obtain ⟨⟨v, m₁⟩, h₁, h⟩ := bind_eq_ok.1 h
    cases h
    exact createInst_steps h₁
  | addOperand user value => exact .single (.operand h)
  | replaceOperand user index value =>
    obtain ⟨⟨r, m₁⟩, h₁, h⟩ := bind_eq_ok.1 h
    cases h
    exact .single (.replace h₁)
  | disconnect inst operands users =>
    obtain ⟨⟨r, m₁⟩, h₁, h⟩ := bind_eq_ok.1 h
    cases h
    exact disconnect_steps h₁
  | replaceAllUses old new =>
    obtain ⟨⟨r, m₁⟩, h₁, h⟩ := bind_eq_ok.1 h
    cases h
    exact replaceAllUses_steps h₁
  | append b inst => exact .single (.append h)
  | insertBefore anchor inst => exact .single (.insert h)
  | moveToEnd inst b => exact moveToEnd_steps h
  | build b method =>
    obtain ⟨⟨a, s⟩, h₁, h⟩ := bind_eq_ok.1 h
    cases h
    exact method.takes ⟨m, b⟩ _ _ h₁
  | setReachable b reachable => exact .single (.reach h)
  | resetReachability f => exact resetReachability_steps h
  | propagate v =>
    obtain ⟨⟨c, m₁⟩, h₁, h⟩ := bind_eq_ok.1 h
    cases h
    exact .single (.learn h₁)
  | solve f =>
    obtain ⟨⟨n, m₁⟩, h₁, h⟩ := bind_eq_ok.1 h
    cases h
    exact solve_steps h₁
  | foldConstants f =>
    obtain ⟨⟨r, m₁⟩, h₁, h⟩ := bind_eq_ok.1 h
    cases h
    exact foldConstants_steps h₁

/-- What holds of the empty module and is kept by every step holds of every module that was
built. -/
theorem Built.keep {P : Module → Prop} (hempty : P {})
    (hP : ∀ {m m' : Module}, P m → Step m m' → P m') {m : Module} (h : m.Built) : P m := by
  obtain ⟨actions, h⟩ := h
  exact (foldlM_steps Action.run_steps h).keep hP hempty

end Module

end SsaCodegen
