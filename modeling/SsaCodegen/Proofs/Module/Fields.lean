import SsaCodegen.Proofs.Module.Step

/-!
# Reading a module field by field

A module is changed one value or one block at a time, and most changes touch one field of it. The
functions here read one field of all values or of all blocks, with a default where there is no such
value or block. The default is what a new value or block has in that field, so that creating one
shows in none of these functions.

## Main definitions

* `Module.valueField`, `Module.blockField` — one field of all values, of all blocks
* `Module.operandsOf`, `usesOf`, `linkOf`, `endsOf` — the fields that invariants are about
* `Module.kindOf`, `Module.tyOf` — the kind and the type of a value, which never change

## Main results

* `Module.Step.kindOf_eq_some` — kinds stay
-/

namespace SsaCodegen

attribute [ext] ValueId BlockId FuncId GlobalId

namespace Module

variable {m m' : Module} {v w : ValueId} {b : BlockId}

/-! ## Looking up -/

theorem value_eq_ok {x : Value} : m.value v = .ok x ↔ m.values[v.idx]? = some x := lookupOr_eq_ok

theorem valueSlot_eq_ok {x : Value} : m.valueSlot v = .ok x ↔ m.values[v.idx]? = some x :=
  lookupOr_eq_ok

theorem block_eq_ok {x : Block} : m.block b = .ok x ↔ m.blocks[b.idx]? = some x := lookupOr_eq_ok

theorem blockSlot_eq_ok {x : Block} : m.blockSlot b = .ok x ↔ m.blocks[b.idx]? = some x :=
  lookupOr_eq_ok

theorem modifyValue_eq_ok {f : Value → Value} :
    m.modifyValue v f = .ok m' ↔
      ∃ x, m.values[v.idx]? = some x ∧ m' = m.setValue v (f x) := by
  constructor
  · intro h
    obtain ⟨x, hx, h⟩ := bind_eq_ok.1 h
    cases h
    exact ⟨x, valueSlot_eq_ok.1 hx, rfl⟩
  · rintro ⟨x, hx, rfl⟩
    exact bind_eq_ok.2 ⟨x, valueSlot_eq_ok.2 hx, rfl⟩

theorem modifyBlock_eq_ok {f : Block → Block} :
    m.modifyBlock b f = .ok m' ↔
      ∃ x, m.blocks[b.idx]? = some x ∧ m' = m.setBlock b (f x) := by
  constructor
  · intro h
    obtain ⟨x, hx, h⟩ := bind_eq_ok.1 h
    cases h
    exact ⟨x, blockSlot_eq_ok.1 hx, rfl⟩
  · rintro ⟨x, hx, rfl⟩
    exact bind_eq_ok.2 ⟨x, blockSlot_eq_ok.2 hx, rfl⟩

theorem values_setValue (x : Value) :
    (m.setValue v x).values[w.idx]? =
      if w = v then m.values[v.idx]?.map fun _ => x else m.values[w.idx]? := by
  rw [setValue, Array.getElem?_setIfInBounds]
  by_cases h : w = v
  · subst h
    rw [if_pos rfl, if_pos rfl]
    split
    · rename_i hlt
      rw [Array.getElem?_eq_getElem hlt]
      rfl
    · rename_i hlt
      rw [Array.getElem?_eq_none (Nat.le_of_not_lt hlt)]
      rfl
  · rw [if_neg fun hi => h (ValueId.ext_iff.2 hi.symm), if_neg h]

theorem blocks_setBlock {c : BlockId} (x : Block) :
    (m.setBlock b x).blocks[c.idx]? =
      if c = b then m.blocks[b.idx]?.map fun _ => x else m.blocks[c.idx]? := by
  rw [setBlock, Array.getElem?_setIfInBounds]
  by_cases h : c = b
  · subst h
    rw [if_pos rfl, if_pos rfl]
    split
    · rename_i hlt
      rw [Array.getElem?_eq_getElem hlt]
      rfl
    · rename_i hlt
      rw [Array.getElem?_eq_none (Nat.le_of_not_lt hlt)]
      rfl
  · rw [if_neg fun hi => h (BlockId.ext_iff.2 hi.symm), if_neg h]

/-! ## Fields of values -/

/-- A field of a value, or `d` if the module has no such value. -/
def valueField (p : Value → α) (d : α) (m : Module) (v : ValueId) : α :=
  (m.values[v.idx]?.map p).getD d

variable {p : Value → α} {d : α}

theorem valueField_eq {x : Value} (h : m.values[v.idx]? = some x) : m.valueField p d v = p x := by
  rw [valueField, h]
  rfl

theorem valueField_setValue {x : Value} (h : m.values[v.idx]? = some x) (y : Value) :
    (m.setValue v y).valueField p d w = if w = v then p y else m.valueField p d w := by
  rw [valueField, values_setValue, h]
  by_cases hw : w = v
  · rw [if_pos hw, if_pos hw]
    rfl
  · rw [if_neg hw, if_neg hw]
    rfl

theorem valueField_modifyValue_of {f : Value → Value} (h : m.modifyValue v f = .ok m') {g : α → α}
    (hp : ∀ x, p (f x) = g (p x)) :
    m'.valueField p d w = if w = v then g (m.valueField p d w) else m.valueField p d w := by
  obtain ⟨x, hx, rfl⟩ := modifyValue_eq_ok.1 h
  rw [valueField_setValue hx, hp]
  by_cases hw : w = v
  · rw [if_pos hw, if_pos hw, hw, valueField_eq hx]
  · rw [if_neg hw, if_neg hw]

theorem valueField_modifyValue {f : Value → Value} (hp : ∀ x, p (f x) = p x)
    (h : m.modifyValue v f = .ok m') : m'.valueField p d = m.valueField p d := by
  funext w
  rw [valueField_modifyValue_of h (g := id) hp, id, ite_self]

theorem valueField_modifyBlock {f : Block → Block} (h : m.modifyBlock b f = .ok m') :
    m'.valueField p d = m.valueField p d := by
  obtain ⟨x, -, rfl⟩ := modifyBlock_eq_ok.1 h
  rfl

theorem valueField_addValue (ty : Ty) (name : Option String) (kind : ValueKind)
    (hp : p { ty, name, kind, known := kind.initial } = d) :
    (m.addValue ty name kind).valueField p d = m.valueField p d := by
  funext w
  rw [valueField, addValue, Array.getElem?_push]
  split
  · rename_i hw
    rw [valueField, hw, Array.getElem?_eq_none (Nat.le_refl _)]
    exact hp
  · rfl

theorem valueField_addParams (f : FuncId) (index : Nat) (params : List (String × Ty))
    (hp : ∀ ty name f i, p { ty, name, kind := .param f i, known := .varying } = d) :
    (m.addParams f index params).2.valueField p d = m.valueField p d := by
  induction params generalizing m index with
  | nil => rfl
  | cons q rest ih => exact (ih _).trans (valueField_addValue _ _ _ (hp _ _ _ _))

/-! ## Fields of blocks -/

/-- A field of a block, or `d` if the module has no such block. -/
def blockField (p : Block → α) (d : α) (m : Module) (b : BlockId) : α :=
  (m.blocks[b.idx]?.map p).getD d

variable {q : Block → α}

theorem blockField_eq {x : Block} (h : m.blocks[b.idx]? = some x) : m.blockField q d b = q x := by
  rw [blockField, h]
  rfl

theorem blockField_setBlock {x : Block} (h : m.blocks[b.idx]? = some x) (y : Block) (c : BlockId) :
    (m.setBlock b y).blockField q d c = if c = b then q y else m.blockField q d c := by
  rw [blockField, blocks_setBlock, h]
  by_cases hc : c = b
  · rw [if_pos hc, if_pos hc]
    rfl
  · rw [if_neg hc, if_neg hc]
    rfl

theorem blockField_modifyBlock_of {f : Block → Block} (h : m.modifyBlock b f = .ok m') {g : α → α}
    (hq : ∀ x, q (f x) = g (q x)) (c : BlockId) :
    m'.blockField q d c = if c = b then g (m.blockField q d c) else m.blockField q d c := by
  obtain ⟨x, hx, rfl⟩ := modifyBlock_eq_ok.1 h
  rw [blockField_setBlock hx, hq]
  by_cases hc : c = b
  · rw [if_pos hc, if_pos hc, hc, blockField_eq hx]
  · rw [if_neg hc, if_neg hc]

theorem blockField_modifyBlock {f : Block → Block} (hq : ∀ x, q (f x) = q x)
    (h : m.modifyBlock b f = .ok m') : m'.blockField q d = m.blockField q d := by
  funext c
  rw [blockField_modifyBlock_of h (g := id) hq, id, ite_self]

/-! ## The operations, field by field -/

theorem unlink_cases {inst : ValueId} (h : m.unlink inst = .ok m') :
    ∃ x, m.values[inst.idx]? = some x ∧ (x.link.block = none ∧ m' = m ∨
      ∃ b m₁ m₂, x.link.block = some b ∧ m.setNext b x.link.prev x.link.next = .ok m₁ ∧
        m₁.setPrev b x.link.next x.link.prev = .ok m₂ ∧
        m₂.modifyValue inst (fun x => { x with link := {} }) = .ok m') := by
  obtain ⟨x, hx, h⟩ := bind_eq_ok.1 h
  refine ⟨x, valueSlot_eq_ok.1 hx, ?_⟩
  dsimp only at h
  split at h
  · rename_i hnone
    exact .inl ⟨hnone, (Except.ok.inj h).symm⟩
  · rename_i b hb
    obtain ⟨m₁, h₁, h⟩ := bind_eq_ok.1 h
    obtain ⟨m₂, h₂, h⟩ := bind_eq_ok.1 h
    exact .inr ⟨b, m₁, m₂, hb, h₁, h₂, h⟩

section Link

variable (hp : ∀ x link, p { x with link } = p x) {prev next : Option ValueId} {inst : ValueId}
include hp

theorem valueField_setNext (h : m.setNext b prev next = .ok m') :
    m'.valueField p d = m.valueField p d := by
  cases prev with
  | some v => exact valueField_modifyValue (fun _ => hp _ _) h
  | none => exact valueField_modifyBlock h

theorem valueField_setPrev (h : m.setPrev b next prev = .ok m') :
    m'.valueField p d = m.valueField p d := by
  cases next with
  | some v => exact valueField_modifyValue (fun _ => hp _ _) h
  | none => exact valueField_modifyBlock h

theorem valueField_linkBetween (h : m.linkBetween b inst prev next = .ok m') :
    m'.valueField p d = m.valueField p d := by
  obtain ⟨m₁, h₁, h⟩ := bind_eq_ok.1 h
  obtain ⟨m₂, h₂, h⟩ := bind_eq_ok.1 h
  exact (valueField_setPrev hp h).trans
    ((valueField_setNext hp h₂).trans (valueField_modifyValue (fun _ => hp _ _) h₁))

theorem valueField_append (h : m.append b inst = .ok m') :
    m'.valueField p d = m.valueField p d := by
  obtain ⟨-, -, h⟩ := bind_eq_ok.1 h
  obtain ⟨x, -, h⟩ := bind_eq_ok.1 h
  exact valueField_linkBetween hp h

theorem valueField_insertBefore {anchor : ValueId} (h : m.insertBefore anchor inst = .ok m') :
    m'.valueField p d = m.valueField p d := by
  obtain ⟨-, -, h⟩ := bind_eq_ok.1 h
  obtain ⟨x, -, h⟩ := bind_eq_ok.1 h
  dsimp only at h
  split at h
  · cases h
  · exact valueField_linkBetween hp h

theorem valueField_unlink (h : m.unlink inst = .ok m') :
    m'.valueField p d = m.valueField p d := by
  obtain ⟨x, -, ⟨-, rfl⟩ | ⟨b, m₁, m₂, -, h₁, h₂, h⟩⟩ := unlink_cases h
  · rfl
  · exact (valueField_modifyValue (fun _ => hp _ _) h).trans
      ((valueField_setPrev hp h₂).trans (valueField_setNext hp h₁))

end Link

section UseDef

variable {user value : ValueId} {index : Nat}

theorem removeUse_eq_ok {use : Use} : m.removeUse value use = .ok m' ↔
    ∃ x, m.values[value.idx]? = some x ∧ use ∈ x.uses ∧
      m' = m.setValue value { x with uses := x.uses.erase use } := by
  constructor
  · intro h
    obtain ⟨x, hx, h⟩ := bind_eq_ok.1 h
    split at h
    · rename_i hu
      cases h
      exact ⟨x, valueSlot_eq_ok.1 hx, List.contains_iff_mem.1 hu, rfl⟩
    · cases h
  · rintro ⟨x, hx, hu, rfl⟩
    refine bind_eq_ok.2 ⟨x, valueSlot_eq_ok.2 hx, ?_⟩
    rw [if_pos (List.contains_iff_mem.2 hu)]
    rfl

theorem replaceOperand_cases {r : Except GraphError Unit}
    (h : m.replaceOperand user index value = .ok (r, m')) :
    ∃ x, m.values[user.idx]? = some x ∧
      (x.operands[index]? = none ∧
          r = .error (.operandOutOfRange user index x.operands.length) ∧ m' = m ∨
        x.operands[index]? = some value ∧ r = .ok () ∧ m' = m ∨
        ∃ old m₁ m₂, x.operands[index]? = some old ∧ old ≠ value ∧ r = .ok () ∧
          m.removeUse old ⟨user, index⟩ = .ok m₁ ∧
          m₁.modifyValue user (fun x => { x with operands := x.operands.set index value }) =
            .ok m₂ ∧
          m₂.modifyValue value (fun x => { x with uses := x.uses ++ [⟨user, index⟩] }) =
            .ok m') := by
  obtain ⟨x, hx, h⟩ := bind_eq_ok.1 h
  refine ⟨x, valueSlot_eq_ok.1 hx, ?_⟩
  dsimp only at h
  split at h
  · rename_i hnone
    cases h
    exact .inl ⟨hnone, rfl, rfl⟩
  · rename_i old hold
    split at h
    · rename_i heq
      cases h
      exact .inr (.inl ⟨heq ▸ hold, rfl, rfl⟩)
    · rename_i hne
      obtain ⟨m₁, h₁, h⟩ := bind_eq_ok.1 h
      obtain ⟨m₂, h₂, h⟩ := bind_eq_ok.1 h
      obtain ⟨m₃, h₃, h⟩ := bind_eq_ok.1 h
      cases h
      exact .inr (.inr ⟨old, m₁, m₂, hold, hne, rfl, h₁, h₂, h₃⟩)

variable (hu : ∀ x uses, p { x with uses } = p x)
include hu

theorem valueField_removeUse {use : Use} (h : m.removeUse value use = .ok m') :
    m'.valueField p d = m.valueField p d := by
  obtain ⟨x, hx, -, rfl⟩ := removeUse_eq_ok.1 h
  exact valueField_modifyValue (fun y => hu y (y.uses.erase use))
    (modifyValue_eq_ok.2 ⟨x, hx, rfl⟩)

theorem valueField_removeUsesFrom {operands : List ValueId}
    (h : m.removeUsesFrom user index operands = .ok m') :
    m'.valueField p d = m.valueField p d := by
  induction operands generalizing m index with
  | nil =>
    cases h
    rfl
  | cons v rest ih =>
    obtain ⟨m₁, h₁, h⟩ := bind_eq_ok.1 h
    exact (ih h).trans (valueField_removeUse hu h₁)

variable (ho : ∀ x operands, p { x with operands } = p x)
include ho

theorem valueField_addOperand (h : m.addOperand user value = .ok m') :
    m'.valueField p d = m.valueField p d := by
  obtain ⟨x, -, h⟩ := bind_eq_ok.1 h
  obtain ⟨m₁, h₁, h⟩ := bind_eq_ok.1 h
  exact (valueField_modifyValue (fun _ => hu _ _) h).trans
    (valueField_modifyValue (fun _ => ho _ _) h₁)

theorem valueField_severOperands (h : m.severOperands user = .ok m') :
    m'.valueField p d = m.valueField p d := by
  obtain ⟨x, hx, h⟩ := bind_eq_ok.1 h
  exact (valueField_removeUsesFrom hu h).trans
    (valueField_modifyValue (f := fun x => { x with operands := [] }) (fun _ => ho _ _)
      (modifyValue_eq_ok.2 ⟨x, valueSlot_eq_ok.1 hx, rfl⟩))

theorem valueField_replaceOperand {r : Except GraphError Unit}
    (h : m.replaceOperand user index value = .ok (r, m')) :
    m'.valueField p d = m.valueField p d := by
  obtain ⟨x, -, ⟨-, -, rfl⟩ | ⟨-, -, rfl⟩ | ⟨old, m₁, m₂, -, -, -, h₁, h₂, h₃⟩⟩ :=
    replaceOperand_cases h
  · rfl
  · rfl
  · exact (valueField_modifyValue (fun _ => hu _ _) h₃).trans
      ((valueField_modifyValue (fun _ => ho _ _) h₂).trans (valueField_removeUse hu h₁))

end UseDef

theorem valueField_propagate (hp : ∀ x known, p { x with known } = p x) {changed : Bool}
    (h : m.propagate v = .ok (changed, m')) : m'.valueField p d = m.valueField p d := by
  obtain ⟨x, t, hx, -, ⟨-, -, rfl⟩ | ⟨-, -, rfl⟩⟩ := propagate_cases h
  · rfl
  · exact valueField_modifyValue (f := fun y => { y with known := x.known.meet t })
      (fun _ => hp _ _) (modifyValue_eq_ok.2 ⟨x, hx, rfl⟩)

theorem addBlock_eq_ok {f : FuncId} {name : String} (h : m.addBlock f name = .ok (b, m')) :
    ∃ x, m.funcs[f.idx]? = some x ∧ b = ⟨m.blocks.size⟩ ∧
      m' = { (m.mention .label).addValue .label (some name) (.block b) with
        blocks := m.blocks.push { name, func := f, label := m.nextValue }
        funcs := m.funcs.setIfInBounds f.idx { x with blocks := x.blocks ++ [b] } } := by
  obtain ⟨x, hx, h⟩ := bind_eq_ok.1 h
  cases h
  exact ⟨x, lookupOr_eq_ok.1 hx, rfl, rfl⟩

/-! ## Operations on values only -/

/-- Two modules with the same blocks and functions. -/
structure SameCode (m m' : Module) : Prop where
  blocks : m'.blocks = m.blocks
  funcs : m'.funcs = m.funcs

namespace SameCode

theorem trans {m₁ : Module} (h : SameCode m m₁) (h' : SameCode m₁ m') : SameCode m m' :=
  ⟨h'.blocks.trans h.blocks, h'.funcs.trans h.funcs⟩

theorem blockField (h : SameCode m m') : m'.blockField q d = m.blockField q d := by
  funext b
  rw [Module.blockField, h.blocks]
  rfl

theorem modifyValue {f : Value → Value} (h : m.modifyValue v f = .ok m') : SameCode m m' := by
  obtain ⟨x, -, rfl⟩ := modifyValue_eq_ok.1 h
  exact ⟨rfl, rfl⟩

theorem addParams (f : FuncId) (index : Nat) (params : List (String × Ty)) :
    SameCode m (m.addParams f index params).2 := by
  induction params generalizing m index with
  | nil => exact ⟨rfl, rfl⟩
  | cons q rest ih => exact ⟨(ih (index + 1)).blocks, (ih (index + 1)).funcs⟩

theorem addOperand {user value : ValueId} (h : m.addOperand user value = .ok m') :
    SameCode m m' := by
  obtain ⟨x, -, h⟩ := bind_eq_ok.1 h
  obtain ⟨m₁, h₁, h⟩ := bind_eq_ok.1 h
  exact (modifyValue h₁).trans (modifyValue h)

theorem removeUse {value : ValueId} {use : Use} (h : m.removeUse value use = .ok m') :
    SameCode m m' := by
  obtain ⟨x, -, -, rfl⟩ := removeUse_eq_ok.1 h
  exact ⟨rfl, rfl⟩

theorem removeUsesFrom {user : ValueId} {index : Nat} {operands : List ValueId}
    (h : m.removeUsesFrom user index operands = .ok m') : SameCode m m' := by
  induction operands generalizing m index with
  | nil =>
    cases h
    exact ⟨rfl, rfl⟩
  | cons v rest ih =>
    obtain ⟨m₁, h₁, h⟩ := bind_eq_ok.1 h
    exact (removeUse h₁).trans (ih h)

theorem severOperands {user : ValueId} (h : m.severOperands user = .ok m') : SameCode m m' := by
  obtain ⟨x, -, h⟩ := bind_eq_ok.1 h
  exact ⟨(removeUsesFrom h).blocks, (removeUsesFrom h).funcs⟩

theorem replaceOperand {user value : ValueId} {index : Nat} {r : Except GraphError Unit}
    (h : m.replaceOperand user index value = .ok (r, m')) : SameCode m m' := by
  obtain ⟨x, -, ⟨-, -, rfl⟩ | ⟨-, -, rfl⟩ | ⟨old, m₁, m₂, -, -, -, h₁, h₂, h₃⟩⟩ :=
    replaceOperand_cases h
  · exact ⟨rfl, rfl⟩
  · exact ⟨rfl, rfl⟩
  · exact ((removeUse h₁).trans (modifyValue h₂)).trans (modifyValue h₃)

theorem propagate {changed : Bool} (h : m.propagate v = .ok (changed, m')) : SameCode m m' := by
  obtain ⟨x, t, -, -, ⟨-, -, rfl⟩ | ⟨-, -, rfl⟩⟩ := propagate_cases h
  · exact ⟨rfl, rfl⟩
  · exact ⟨rfl, rfl⟩

end SameCode

/-! ## The fields -/

/-- The operands of a value. -/
def operandsOf : Module → ValueId → List ValueId := valueField Value.operands []

/-- The use list of a value. -/
def usesOf : Module → ValueId → List Use := valueField Value.uses []

/-- The place of a value. -/
def linkOf : Module → ValueId → Link := valueField Value.link {}

/-- The kind of a value. -/
def kindOf : Module → ValueId → Option ValueKind := valueField (fun x => some x.kind) none

/-- The type of a value. -/
def tyOf : Module → ValueId → Option Ty := valueField (fun x => some x.ty) none

/-- The first and the last instruction of a block. -/
def endsOf : Module → BlockId → Option ValueId × Option ValueId :=
  blockField (fun x => (x.first, x.last)) (none, none)

theorem kindOf_eq_some {k : ValueKind} :
    m.kindOf v = some k ↔ ∃ x, m.values[v.idx]? = some x ∧ x.kind = k := by
  rw [kindOf, valueField]
  cases m.values[v.idx]? with
  | none => simp
  | some x => simp

/-! ## What stays -/

/-- A field that no step writes once the value is there. -/
structure Lasting (p : Value → α) : Prop where
  name : ∀ x name, p { x with name } = p x
  operands : ∀ x operands, p { x with operands } = p x
  uses : ∀ x uses, p { x with uses } = p x
  link : ∀ x link, p { x with link } = p x
  known : ∀ x known, p { x with known } = p x

theorem valueField_addValue_of_lt (ty : Ty) (name : Option String) (kind : ValueKind)
    (h : v.idx < m.values.size) :
    (m.addValue ty name kind).valueField p d v = m.valueField p d v := by
  rw [valueField, addValue, Array.getElem?_push, if_neg (Nat.ne_of_lt h)]
  rfl

theorem lt_of_valueField_ne {a : α} (h : m.valueField p d v = a) (hd : a ≠ d) :
    v.idx < m.values.size := by
  refine Nat.lt_of_not_le fun hle => hd ?_
  rw [← h, valueField, Array.getElem?_eq_none hle]
  rfl

theorem valueField_addParams_of_lt (f : FuncId) (index : Nat) (params : List (String × Ty))
    (h : v.idx < m.values.size) :
    (m.addParams f index params).2.valueField p d v = m.valueField p d v := by
  induction params generalizing m index with
  | nil => rfl
  | cons q rest ih =>
    refine (ih _ ?_).trans (valueField_addValue_of_lt _ _ _ h)
    simp only [addValue, Array.size_push]
    exact Nat.lt_succ_of_lt h

theorem Lasting.step {p : Value → α} (hp : Lasting p) (h : Step m m') {d : α}
    (hv : v.idx < m.values.size) : m'.valueField p d v = m.valueField p d v := by
  cases h with
  | types t => rfl
  | func name ret params => exact valueField_addParams_of_lt _ _ _ hv
  | block h =>
    obtain ⟨x, -, -, rfl⟩ := addBlock_eq_ok h
    exact valueField_addValue_of_lt (m := m.mention .label) _ _ _ hv
  | global name elem init => exact valueField_addValue_of_lt (m := m.mention _) _ _ _ hv
  | const c ty => exact valueField_addValue_of_lt _ _ _ hv
  | inst ty name kind => exact valueField_addValue_of_lt _ _ _ hv
  | name h => rw [valueField_modifyValue (fun _ => hp.name _ _) h]
  | operand h => rw [valueField_addOperand hp.uses hp.operands h]
  | replace h => rw [valueField_replaceOperand hp.uses hp.operands h]
  | sever h => rw [valueField_severOperands hp.uses hp.operands h]
  | unlink h => rw [valueField_unlink hp.link h]
  | append h => rw [valueField_append hp.link h]
  | insert h => rw [valueField_insertBefore hp.link h]
  | reach h => rw [valueField_modifyBlock h]
  | learn h => rw [valueField_propagate hp.known h]

theorem lasting_kind : Lasting fun x => some x.kind :=
  ⟨fun _ _ => rfl, fun _ _ => rfl, fun _ _ => rfl, fun _ _ => rfl, fun _ _ => rfl⟩

theorem Step.kindOf_eq_some (h : Step m m') {k : ValueKind} (hk : m.kindOf v = some k) :
    m'.kindOf v = some k :=
  (lasting_kind.step h (lt_of_valueField_ne hk nofun)).trans hk

/-! ## Looking up what is there -/

theorem lt_of_kindOf {k : ValueKind} (h : m.kindOf v = some k) : v.idx < m.values.size :=
  lt_of_valueField_ne h nofun

theorem exists_kindOf (h : v.idx < m.values.size) : ∃ k, m.kindOf v = some k :=
  ⟨_, kindOf_eq_some.2 ⟨_, Array.getElem?_eq_getElem h, rfl⟩⟩

/-- A value with operands is one of the module. -/
theorem lt_of_mem_operandsOf {o : ValueId} (h : o ∈ m.operandsOf v) : v.idx < m.values.size := by
  refine lt_of_valueField_ne (a := m.operandsOf v) rfl fun hnil => ?_
  rw [hnil] at h
  cases h

theorem lt_of_mem_usesOf {u : Use} (h : u ∈ m.usesOf v) : v.idx < m.values.size :=
  lt_of_valueField_ne (p := Value.uses) rfl (List.ne_nil_of_mem h)

theorem operands_eq (h : v.idx < m.values.size) : m.operands v = .ok (m.operandsOf v) := by
  have hx := Array.getElem?_eq_getElem h
  exact bind_eq_ok.2 ⟨_, value_eq_ok.2 hx, congrArg Except.ok (valueField_eq hx).symm⟩

theorem operand_eq {i : Nat} {o : ValueId} (h : (m.operandsOf v)[i]? = some o) :
    m.operand v i = .ok o :=
  bind_eq_ok.2 ⟨_, operands_eq (lt_of_mem_operandsOf (List.mem_of_getElem? h)),
    lookupOr_eq_ok.2 h⟩

theorem kind_eq {k : ValueKind} (h : m.kindOf v = some k) : m.kind v = .ok k := by
  obtain ⟨x, hx, rfl⟩ := kindOf_eq_some.1 h
  exact bind_eq_ok.2 ⟨x, value_eq_ok.2 hx, rfl⟩

theorem instKind_eq {k : ValueKind} (h : m.kindOf v = some k) : m.instKind v = .ok k.asInst :=
  bind_eq_ok.2 ⟨k, kind_eq h, rfl⟩

theorem uses_eq (h : v.idx < m.values.size) : m.uses v = .ok (m.usesOf v) := by
  have hx := Array.getElem?_eq_getElem h
  exact bind_eq_ok.2 ⟨_, valueSlot_eq_ok.2 hx, congrArg Except.ok (valueField_eq hx).symm⟩

/-! ## What was found -/

theorem usesOf_of_uses {us : List Use} (h : m.uses v = .ok us) : m.usesOf v = us := by
  obtain ⟨x, hx, h⟩ := bind_eq_ok.1 h
  rw [usesOf, valueField_eq (valueSlot_eq_ok.1 hx), Except.ok.inj h]

theorem kindOf_of_kind {k : ValueKind} (h : m.kind v = .ok k) : m.kindOf v = some k := by
  obtain ⟨x, hx, h⟩ := bind_eq_ok.1 h
  exact kindOf_eq_some.2 ⟨x, value_eq_ok.1 hx, Except.ok.inj h⟩

theorem kindOf_of_instKind {k : Option InstKind} (h : m.instKind v = .ok k) :
    ∃ kind, m.kindOf v = some kind ∧ kind.asInst = k := by
  obtain ⟨kind, hkind, h⟩ := bind_eq_ok.1 h
  exact ⟨kind, kindOf_of_kind hkind, Except.ok.inj h⟩

theorem tyOf_of_ty {ty : Ty} (h : m.ty v = .ok ty) : m.tyOf v = some ty := by
  obtain ⟨x, hx, h⟩ := bind_eq_ok.1 h
  rw [tyOf, valueField_eq (value_eq_ok.1 hx), Except.ok.inj h]

theorem operandsOf_of_operands {l : List ValueId} (h : m.operands v = .ok l) :
    m.operandsOf v = l := by
  obtain ⟨x, hx, h⟩ := bind_eq_ok.1 h
  rw [operandsOf, valueField_eq (value_eq_ok.1 hx), Except.ok.inj h]

theorem operandsOf_of_operand {i : Nat} {o : ValueId} (h : m.operand v i = .ok o) :
    (m.operandsOf v)[i]? = some o := by
  obtain ⟨l, hl, h⟩ := bind_eq_ok.1 h
  rw [operandsOf_of_operands hl]
  exact lookupOr_eq_ok.1 h

end Module

end SsaCodegen
