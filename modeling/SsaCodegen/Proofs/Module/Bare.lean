import SsaCodegen.Proofs.Module.Lists
import SsaCodegen.Proofs.Module.Uses

/-!
# What edits leave alone

An edit of the use-def graph writes operands, use lists and links, and nothing else. In a module
whose use lists mirror its operands and whose chains stand for lists it meets no fault: the entry
that is to be taken off a use list is there, and so are the neighbours of an instruction.

## Main definitions

* `Module.bare` — a module without operands, uses and chains

## Main results

* `Module.Mirrored.exists_replaceOperand`, `Module.Mirrored.exists_severOperands`,
  `Module.Threads.exists_unlink` — the parts of which edits are made meet no fault
-/

namespace SsaCodegen

/-- A value without operands, uses and a place. -/
def Value.bare (x : Value) : Value := { x with operands := [], uses := [], link := {} }

/-- A block without its ends. -/
def Block.bare (x : Block) : Block := { x with first := none, last := none }

namespace Module

variable {m m' : Module} {b : BlockId} {v w inst user value old new : ValueId} {index : Nat}

/-! ## What edits leave alone -/

/-- A module without the operands, uses and places of its values and the ends of its blocks. -/
def bare (m : Module) : Module :=
  { m with values := m.values.map Value.bare, blocks := m.blocks.map Block.bare }

theorem bare_modifyValue {f : Value → Value} (h : m.modifyValue v f = .ok m')
    (hf : ∀ x, (f x).bare = x.bare) : m'.bare = m.bare := by
  obtain ⟨x, hx, rfl⟩ := modifyValue_eq_ok.1 h
  have hvalues : (m.setValue v (f x)).bare.values = m.bare.values := by
    refine Array.ext_getElem? fun i => ?_
    simp only [bare, Array.getElem?_map, setValue, Array.getElem?_setIfInBounds]
    split
    · rename_i hi
      rw [← hi, hx, if_pos (Array.getElem?_eq_some_iff.1 hx).1]
      exact congrArg some (hf x)
    · rfl
  calc (m.setValue v (f x)).bare
      = { m.bare with values := (m.setValue v (f x)).bare.values } := rfl
    _ = m.bare := by rw [hvalues]

theorem bare_modifyBlock {f : Block → Block} (h : m.modifyBlock b f = .ok m')
    (hf : ∀ x, (f x).bare = x.bare) : m'.bare = m.bare := by
  obtain ⟨x, hx, rfl⟩ := modifyBlock_eq_ok.1 h
  have hblocks : (m.setBlock b (f x)).bare.blocks = m.bare.blocks := by
    refine Array.ext_getElem? fun i => ?_
    simp only [bare, Array.getElem?_map, setBlock, Array.getElem?_setIfInBounds]
    split
    · rename_i hi
      rw [← hi, hx, if_pos (Array.getElem?_eq_some_iff.1 hx).1]
      exact congrArg some (hf x)
    · rfl
  calc (m.setBlock b (f x)).bare
      = { m.bare with blocks := (m.setBlock b (f x)).bare.blocks } := rfl
    _ = m.bare := by rw [hblocks]

theorem bare_setNext {prev next : Option ValueId} (h : m.setNext b prev next = .ok m') :
    m'.bare = m.bare := by
  cases prev with
  | some v => exact bare_modifyValue h fun _ => rfl
  | none => exact bare_modifyBlock h fun _ => rfl

theorem bare_setPrev {prev next : Option ValueId} (h : m.setPrev b next prev = .ok m') :
    m'.bare = m.bare := by
  cases next with
  | some v => exact bare_modifyValue h fun _ => rfl
  | none => exact bare_modifyBlock h fun _ => rfl

theorem bare_unlink (h : m.unlink inst = .ok m') : m'.bare = m.bare := by
  obtain ⟨x, -, ⟨-, rfl⟩ | ⟨b, m₁, m₂, -, h₁, h₂, h⟩⟩ := unlink_cases h
  · rfl
  · exact (bare_modifyValue h fun _ => rfl).trans ((bare_setPrev h₂).trans (bare_setNext h₁))

theorem bare_removeUse {use : Use} (h : m.removeUse value use = .ok m') : m'.bare = m.bare := by
  obtain ⟨x, hx, -, rfl⟩ := removeUse_eq_ok.1 h
  exact bare_modifyValue (f := fun y => { y with uses := y.uses.erase use })
    (modifyValue_eq_ok.2 ⟨x, hx, rfl⟩) fun _ => rfl

theorem bare_removeUsesFrom {operands : List ValueId}
    (h : m.removeUsesFrom user index operands = .ok m') : m'.bare = m.bare := by
  induction operands generalizing m index with
  | nil =>
    cases h
    rfl
  | cons v rest ih =>
    obtain ⟨m₁, h₁, h⟩ := bind_eq_ok.1 h
    exact (ih h).trans (bare_removeUse h₁)

theorem bare_severOperands (h : m.severOperands user = .ok m') : m'.bare = m.bare := by
  obtain ⟨x, hx, h⟩ := bind_eq_ok.1 h
  exact (bare_removeUsesFrom h).trans
    (bare_modifyValue (f := fun x => { x with operands := [] })
      (modifyValue_eq_ok.2 ⟨x, valueSlot_eq_ok.1 hx, rfl⟩) fun _ => rfl)

theorem bare_replaceOperand {r : Except GraphError Unit}
    (h : m.replaceOperand user index value = .ok (r, m')) : m'.bare = m.bare := by
  obtain ⟨x, -, ⟨-, -, rfl⟩ | ⟨-, -, rfl⟩ | ⟨old, m₁, m₂, -, -, -, h₁, h₂, h₃⟩⟩ :=
    replaceOperand_cases h
  · rfl
  · rfl
  · exact (bare_modifyValue h₃ fun _ => rfl).trans
      ((bare_modifyValue h₂ fun _ => rfl).trans (bare_removeUse h₁))

theorem blockField_of_bare (h : m'.bare.blocks = m.bare.blocks) {q : Block → α} {d : α}
    (hq : ∀ x, q x.bare = q x) : m'.blockField q d = m.blockField q d := by
  funext b
  have hb := congrArg (fun blocks => blocks[b.idx]?) h
  simp only [bare, Array.getElem?_map] at hb
  have key (x : Option Block) : ((x.map Block.bare).map q).getD d = (x.map q).getD d := by
    cases x with
    | none => rfl
    | some x => exact hq x
  rw [blockField, ← key, hb, key]
  rfl

section Bare

variable (h : m'.bare = m.bare)
include h

theorem size_of_bare : m'.values.size = m.values.size := by
  have hsize := congrArg (fun m => m.values.size) h
  simpa [bare] using hsize

theorem valueField_of_bare {p : Value → α} {d : α} (hp : ∀ x, p x.bare = p x) :
    m'.valueField p d = m.valueField p d := by
  funext v
  have hv := congrArg (fun m => m.values[v.idx]?) h
  simp only [bare, Array.getElem?_map] at hv
  have key (x : Option Value) : ((x.map Value.bare).map p).getD d = (x.map p).getD d := by
    cases x with
    | none => rfl
    | some x => exact hp x
  rw [valueField, ← key, hv, key]
  rfl

theorem kindOf_of_bare : m'.kindOf = m.kindOf := valueField_of_bare h fun _ => rfl

end Bare

/-! ## No edit is refused -/

theorem exists_modifyValue (f : Value → Value) (hv : v.idx < m.values.size) :
    ∃ m', m.modifyValue v f = .ok m' :=
  ⟨_, modifyValue_eq_ok.2 ⟨_, Array.getElem?_eq_getElem hv, rfl⟩⟩

theorem exists_modifyBlock (f : Block → Block) (hb : b.idx < m.blocks.size) :
    ∃ m', m.modifyBlock b f = .ok m' :=
  ⟨_, modifyBlock_eq_ok.2 ⟨_, Array.getElem?_eq_getElem hb, rfl⟩⟩

theorem exists_removeUse {use : Use} (hu : use ∈ m.usesOf value) :
    ∃ m', m.removeUse value use = .ok m' := by
  have hx := Array.getElem?_eq_getElem (lt_of_mem_usesOf hu)
  rw [usesOf, valueField_eq hx] at hu
  exact ⟨_, removeUse_eq_ok.2 ⟨_, hx, hu, rfl⟩⟩

theorem Mirrored.exists_replaceOperand (h : Mirrored m) (hu : ⟨user, index⟩ ∈ m.usesOf old)
    (hnew : new.idx < m.values.size) (hne : old ≠ new) :
    ∃ m', m.replaceOperand user index new = .ok (.ok (), m') := by
  have hold : (m.operandsOf user)[index]? = some old := h.mem.1 hu
  have huser := lt_of_mem_operandsOf (List.mem_of_getElem? hold)
  have hx := Array.getElem?_eq_getElem huser
  obtain ⟨m₁, h₁⟩ := exists_removeUse hu
  have hsize₁ := size_of_bare (bare_removeUse h₁)
  obtain ⟨m₂, h₂⟩ := exists_modifyValue (m := m₁) (v := user)
    (fun x => { x with operands := x.operands.set index new })
    (hsize₁ ▸ huser)
  have hsize₂ := size_of_bare (bare_modifyValue h₂ fun _ => rfl)
  obtain ⟨m₃, h₃⟩ := exists_modifyValue (m := m₂) (v := new)
    (fun x => { x with uses := x.uses ++ [⟨user, index⟩] }) (hsize₂ ▸ hsize₁ ▸ hnew)
  rw [operandsOf, valueField_eq hx] at hold
  refine ⟨m₃, bind_eq_ok.2 ⟨_, valueSlot_eq_ok.2 hx, ?_⟩⟩
  simp only [hold, if_neg hne]
  exact bind_eq_ok.2 ⟨m₁, h₁, bind_eq_ok.2 ⟨m₂, h₂, bind_eq_ok.2 ⟨m₃, h₃, rfl⟩⟩⟩

theorem exists_removeUsesFrom {operands : List ValueId}
    (hu : ∀ {i w}, operands[i]? = some w → ⟨user, index + i⟩ ∈ m.usesOf w) :
    ∃ m', m.removeUsesFrom user index operands = .ok m' := by
  induction operands generalizing m index with
  | nil => exact ⟨m, rfl⟩
  | cons v rest ih =>
    obtain ⟨m₁, h₁⟩ := exists_removeUse (hu (i := 0) rfl)
    have hrest {i : Nat} {w : ValueId} (hw : rest[i]? = some w) :
        ⟨user, index + 1 + i⟩ ∈ m₁.usesOf w := by
      have hmem : ⟨user, index + 1 + i⟩ ∈ m.usesOf w := by
        have hmem := hu (i := i + 1) hw
        rwa [← Nat.add_assoc, Nat.add_right_comm] at hmem
      rw [(usesOf_removeUse h₁).2]
      split
      · exact (List.mem_erase_of_ne fun heq => by simp at heq; omega).2 hmem
      · exact hmem
    obtain ⟨m', hm'⟩ := ih hrest
    exact ⟨m', bind_eq_ok.2 ⟨m₁, h₁, hm'⟩⟩

theorem Mirrored.exists_severOperands (h : Mirrored m) (hv : user.idx < m.values.size) :
    ∃ m', m.severOperands user = .ok m' := by
  obtain ⟨x, hx⟩ : ∃ x, m.values[user.idx]? = some x := ⟨_, Array.getElem?_eq_getElem hv⟩
  have huses {i : Nat} {w : ValueId} (hw : x.operands[i]? = some w) :
      ⟨user, 0 + i⟩ ∈ (m.setValue user { x with operands := [] }).usesOf w := by
    rw [usesOf_setOperands hx, h.mem, Nat.zero_add, operandsOf, valueField_eq hx]
    exact hw
  obtain ⟨m', hm'⟩ := exists_removeUsesFrom huses
  exact ⟨m', bind_eq_ok.2 ⟨x, valueSlot_eq_ok.2 hx, hm'⟩⟩

theorem Threads.lt_of_mem {lists : BlockId → List ValueId} (h : Threads m lists)
    (hv : v ∈ lists b) : v.idx < m.values.size := by
  obtain ⟨k, hk⟩ := h.inst hv
  exact lt_of_valueField_ne hk nofun

theorem Threads.block_lt_of_mem {lists : BlockId → List ValueId} (h : Threads m lists)
    (hv : v ∈ lists b) : b.idx < m.blocks.size := by
  refine Nat.lt_of_not_le fun hle => ?_
  have hends := h.ends b
  rw [endsOf, blockField, Array.getElem?_eq_none hle] at hends
  have hhead := congrArg Prod.fst hends
  rw [List.head?_eq_none_iff.1 hhead.symm] at hv
  cases hv

theorem blocks_size_of_bare (h : m'.bare = m.bare) : m'.blocks.size = m.blocks.size := by
  have hsize := congrArg (fun m => m.blocks.size) h
  simpa [bare] using hsize

theorem exists_setNext {prev next : Option ValueId}
    (hprev : ∀ {w}, prev = some w → w.idx < m.values.size) (hb : b.idx < m.blocks.size) :
    ∃ m', m.setNext b prev next = .ok m' := by
  cases prev with
  | none => exact exists_modifyBlock _ hb
  | some w => exact exists_modifyValue _ (hprev rfl)

theorem exists_setPrev {prev next : Option ValueId}
    (hnext : ∀ {w}, next = some w → w.idx < m.values.size) (hb : b.idx < m.blocks.size) :
    ∃ m', m.setPrev b next prev = .ok m' := by
  cases next with
  | none => exact exists_modifyBlock _ hb
  | some w => exact exists_modifyValue _ (hnext rfl)

theorem Threads.exists_unlink {lists : BlockId → List ValueId} (h : Threads m lists)
    (hv : inst ∈ lists b) : ∃ m', m.unlink inst = .ok m' := by
  obtain ⟨p, s, hb⟩ := List.append_of_mem hv
  obtain ⟨x, hx⟩ : ∃ x, m.values[inst.idx]? = some x :=
    ⟨_, Array.getElem?_eq_getElem (h.lt_of_mem hv)⟩
  have hlink : x.link = ⟨some b, p.getLast?, s.head?⟩ := by
    rw [← h.link hb, linkOf, valueField_eq hx]
  have hblock := h.block_lt_of_mem hv
  obtain ⟨m₁, h₁⟩ : ∃ m₁, m.setNext b p.getLast? s.head? = .ok m₁ := by
    refine exists_setNext (fun {w} hw => ?_) hblock
    exact h.lt_of_mem (b := b) (by simp [hb, List.mem_of_getLast? hw])
  have hbare₁ := bare_setNext h₁
  obtain ⟨m₂, h₂⟩ : ∃ m₂, m₁.setPrev b s.head? p.getLast? = .ok m₂ := by
    refine exists_setPrev (fun {w} hw => ?_) (by rw [blocks_size_of_bare hbare₁]; exact hblock)
    rw [size_of_bare hbare₁]
    exact h.lt_of_mem (b := b) (by simp [hb, List.mem_of_head? hw])
  obtain ⟨m', hm'⟩ := exists_modifyValue (m := m₂) (v := inst) (fun x => { x with link := {} })
    (by rw [size_of_bare (bare_setPrev h₂), size_of_bare hbare₁]; exact h.lt_of_mem hv)
  refine ⟨m', bind_eq_ok.2 ⟨_, valueSlot_eq_ok.2 hx, ?_⟩⟩
  simp only [hlink]
  exact bind_eq_ok.2 ⟨m₁, h₁, bind_eq_ok.2 ⟨m₂, h₂, hm'⟩⟩

end Module

end SsaCodegen
