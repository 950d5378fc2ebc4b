/-!
# Types

The types of the intermediate language. A type is a base type with a number of pointer layers around
it, so `i32**` is two layers around `i32`. A class is named, and its fields are declared apart from
it (`Ty/Table.lean`), so that a class may hold pointers to itself.

## Main definitions

* `Ty` — a type
* `Ty.ptr`, `Ty.pointee` — put a layer around a type, and take it off
-/

namespace SsaCodegen

/-- The bytes of a machine word, and of every pointer. -/
def wordBytes : Nat := 4

/-- A type that is no pointer. -/
inductive BaseTy where
  | void
  /-- An integer of a width in bits, which is below 256. -/
  | int (bits : UInt8)
  | cls (name : String)
  | label
deriving DecidableEq

/-- A base type in program text. -/
def BaseTy.render : BaseTy → String
  | void => "void"
  | int bits => s!"i{bits}"
  | cls name => s!"%class.{name}"
  | label => "label"

/-- A type of the intermediate language: a base type inside a number of pointer layers. -/
structure Ty where
  layers : Nat
  base : BaseTy
deriving DecidableEq

namespace Ty

/-- The type of what has no value. -/
def void : Ty := ⟨0, .void⟩

/-- An integer of a width in bits. -/
def int (bits : UInt8) : Ty := ⟨0, .int bits⟩

/-- A class. -/
def cls (name : String) : Ty := ⟨0, .cls name⟩

/-- The type of block labels. -/
def label : Ty := ⟨0, .label⟩

/-- A pointer to a type. -/
def ptr (elem : Ty) : Ty := { elem with layers := elem.layers + 1 }

/-- The type of truth values. -/
def bool : Ty := int 1

/-- The type of machine words. -/
def i32 : Ty := int 32

/-- What a pointer points to. -/
def pointee : Ty → Option Ty
  | ⟨0, _⟩ => none
  | ⟨layers + 1, base⟩ => some ⟨layers, base⟩

@[simp] theorem pointee_ptr (ty : Ty) : ty.ptr.pointee = some ty := rfl

theorem pointee_eq_some_iff {ty elem : Ty} : ty.pointee = some elem ↔ ty = elem.ptr := by
  obtain ⟨_ | layers, base⟩ := ty <;> cases elem <;> simp [pointee, ptr]

/-- The class of a class type. -/
def className : Ty → Option String
  | ⟨0, .cls name⟩ => some name
  | _ => none

/-- A type in program text: its base type with a star for every layer. -/
def render (ty : Ty) : String := ty.base.render ++ String.ofList (List.replicate ty.layers '*')

end Ty

end SsaCodegen
