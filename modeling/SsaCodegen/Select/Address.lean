import SsaCodegen.Select.Scope

/-!
# Loads, stores and addresses

A load or store has the width of what its pointer points to. A field address adds the field's offset
in its class; an element address adds the index times the size of an element.
-/

namespace SsaCodegen.Scope

open SelectM

/-- The load of a width in bytes. -/
def loadOp? : Nat → Option Target.Opcode
  | 1 => some .lb
  | 2 => some .lh
  | 4 => some .lw
  | _ => none

/-- The store of a width in bytes. -/
def storeOp? : Nat → Option Target.Opcode
  | 1 => some .sb
  | 2 => some .sh
  | 4 => some .sw
  | _ => none

/-- The load of a width in bytes, for `inst`. -/
def loadOp (inst : ValueId) (size : Nat) : SelectM Target.Opcode :=
  match loadOp? size with
  | some op => return op
  | none => refuse (.unsupportedWidth inst size)

/-- The store of a width in bytes, for `inst`. -/
def storeOp (inst : ValueId) (size : Nat) : SelectM Target.Opcode :=
  match storeOp? size with
  | some op => return op
  | none => refuse (.unsupportedWidth inst size)

/-- What a pointer operand of `inst` points to. -/
def pointee (sc : Scope) (inst ptr : ValueId) : SelectM Ty := do
  match (← sc.module.ty ptr).pointee with
  | some ty => return ty
  | none => refuse (.unsupportedOperand inst ptr)

/-- The memory operand for what a pointer points to. A global variable is reached by the two parts
of its address. -/
def address (sc : Scope) (inst ptr : ValueId) : SelectM (Target.Mem × Code) := do
  match (← sc.module.kind ptr).asGlobal with
  | some g =>
    let g ← sc.globalNumber g
    let hi ← fresh
    return (⟨hi, .globalLo g⟩, [⟨.lui, some hi, [.globalHi g]⟩])
  | none =>
    let (base, code) ← sc.regOf inst ptr
    return (⟨base, .imm 0⟩, code)

/-- A load. -/
def lowerLoad (sc : Scope) (inst : ValueId) : SelectM Code := do
  let ptr ← sc.module.operand inst 0
  let op ← loadOp inst (sc.module.types.size (← sc.pointee inst ptr))
  let (mem, code) ← sc.address inst ptr
  let dst ← sc.valueReg inst
  return code ++ [⟨op, some dst, [.mem mem]⟩]

/-- A store. -/
def lowerStore (sc : Scope) (inst : ValueId) : SelectM Code := do
  let value ← sc.module.operand inst 0
  let ptr ← sc.module.operand inst 1
  let op ← storeOp inst (sc.module.types.size (← sc.pointee inst ptr))
  let (src, valueCode) ← sc.regOf inst value
  let (mem, ptrCode) ← sc.address inst ptr
  return valueCode ++ ptrCode ++ [⟨op, none, [.reg src, .mem mem]⟩]

/-- The offset of the field of a class that a constant numbers. -/
def fieldOffset (sc : Scope) (inst : ValueId) (ty : Ty) (index : ValueId) : SelectM Nat := do
  match ty.className.bind sc.module.types.layout? with
  | none => refuse (.unknownClass inst)
  | some layout =>
    match (← sc.module.kind index).asConstInt with
    | none => refuse (.nonConstantFieldIndex inst)
    | some n =>
      match if n < 0 then none else layout.offset n.toInt.toNat with
      | none => refuse (.unknownClass inst)
      | some offset => return offset

/-- The address of a field. -/
def lowerField (sc : Scope) (inst index : ValueId) (ty : Ty) (dst base : Target.Reg) :
    SelectM Code := do
  sc.target.addOffset dst base (Int64.ofNat (← sc.fieldOffset inst ty index))

/-- The address of an element. -/
def lowerElement (sc : Scope) (inst index : ValueId) (ty : Ty) (dst base : Target.Reg) :
    SelectM Code := do
  let size := Int64.ofNat (sc.module.types.size ty)
  match (← sc.module.kind index).asConstInt with
  | some n => sc.target.addOffset dst base (n * size)
  | none =>
    let (index, indexCode) ← sc.regOf inst index
    let (scale, scaleCode) ← sc.target.loadImm size
    let offset ← fresh
    return indexCode ++ scaleCode ++
      [.onRegs .mul offset [index, scale], .onRegs .add dst [base, offset]]

/-- The address of a field or an element of what a pointer points to. -/
def lowerGep (sc : Scope) (inst : ValueId) (needsZero : Bool) : SelectM Code := do
  let base ← sc.module.operand inst 0
  let index ← sc.module.operand inst 1
  let ty ← sc.pointee inst base
  let (baseReg, code) ← sc.regOf inst base
  let dst ← sc.valueReg inst
  if needsZero then return code ++ (← sc.lowerField inst index ty dst baseReg)
  else return code ++ (← sc.lowerElement inst index ty dst baseReg)

end SsaCodegen.Scope
