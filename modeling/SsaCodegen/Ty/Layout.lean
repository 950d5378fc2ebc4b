import SsaCodegen.Size
import SsaCodegen.Ty.Basic

/-!
# Class layout

Fields are laid out in declaration order. Each starts at the next multiple of its alignment, which
is its size but at least one byte and at most a word, and the whole is padded to the largest
alignment among the fields.

## Main definitions

* `Layout` — the fields of a class with their offsets, and its size
* `Layout.compute` — the layout of a list of fields
-/

namespace SsaCodegen

/-- A field of a class and the offset at which it starts. -/
structure Field where
  name : String
  ty : Ty
  offset : Nat
deriving DecidableEq

/-- The fields of a class in declaration order, and the bytes that an instance takes. -/
structure Layout where
  name : String
  fields : List Field
  size : Nat
deriving DecidableEq

namespace Layout

/-- The alignment of a field of `size` bytes: its size, but at least a byte and at most a word. -/
def alignment (size : Nat) : Nat := max 1 (min size wordBytes)

/-- The fields placed one after the other from `offset` on, and the offset after the last. -/
def place (sizeOf : Ty → Nat) (offset : Nat) :
    List (String × Ty) → Except Fault (List Field × Nat)
  | [] => .ok ([], offset)
  | (name, ty) :: rest => do
    let start ← Size.alignTo offset (alignment (sizeOf ty))
    let stop ← Size.fit (start + sizeOf ty)
    let (fields, stop) ← place sizeOf stop rest
    return (⟨name, ty, start⟩ :: fields, stop)

/-- The largest alignment among the fields, and one for a class without fields. -/
def maxAlignment (sizeOf : Ty → Nat) (fields : List (String × Ty)) : Nat :=
  fields.foldl (fun a (_, ty) => max a (alignment (sizeOf ty))) 1

/-- The layout of a class, given the sizes of the types of its fields. -/
def compute (sizeOf : Ty → Nat) (name : String) (fields : List (String × Ty)) :
    Except Fault Layout := do
  let (placed, stop) ← place sizeOf 0 fields
  let size ← Size.alignTo stop (maxAlignment sizeOf fields)
  return ⟨name, placed, size⟩

/-- The offset of the field at a position, in declaration order. -/
def offset (layout : Layout) (index : Nat) : Option Nat :=
  layout.fields[index]?.map Field.offset

end Layout

end SsaCodegen
