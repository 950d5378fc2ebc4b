import SsaCodegen.Ty.Layout

/-!
# The type table

A module numbers its types in the order in which they are first mentioned and keeps the layouts of
the classes that were declared. Redeclaring a class replaces its layout and keeps its place among
the classes.

## Main definitions

* `TypeTable.intern` — mention a type
* `TypeTable.declare` — lay out a class
* `TypeTable.size` — the bytes that a value of a type takes in memory
-/

namespace SsaCodegen

/-- The types mentioned so far, in order, and the layouts of the declared classes. -/
structure TypeTable where
  types : Array Ty := #[]
  classes : List Layout := []

namespace TypeTable

/-- The number of a type. A type that was not mentioned has the number it would get next. -/
def idOf (t : TypeTable) (ty : Ty) : TypeId := ⟨t.types.idxOf ty⟩

/-- The type with a number. -/
def ty (t : TypeTable) (id : TypeId) : Except Fault Ty :=
  lookupOr (.unknownType id) t.types[id.idx]?

/-- Mention a type: it gets the next number unless it has one. -/
def intern (t : TypeTable) (ty : Ty) : TypeTable :=
  if t.types.contains ty then t else { t with types := t.types.push ty }

/-- The layout of a declared class. -/
def layout? (t : TypeTable) (name : String) : Option Layout :=
  t.classes.find? fun c => c.name = name

/-- The bytes that a value of a base type takes in memory. Integers take whole bytes; a class that
was not declared takes none. -/
def baseSize (t : TypeTable) : BaseTy → Nat
  | .void | .label => 0
  | .int bits => (bits.toNat + 7) / 8
  | .cls name => ((t.layout? name).map Layout.size).getD 0

/-- The bytes that a value of a type takes in memory. A pointer takes a word. -/
def size (t : TypeTable) (ty : Ty) : Nat :=
  if ty.layers = 0 then t.baseSize ty.base else wordBytes

/-- The layouts with one put in: in place of an earlier layout of the same class, or last. -/
def putLayout (l : Layout) : List Layout → List Layout
  | [] => [l]
  | c :: rest => if c.name = l.name then l :: rest else c :: putLayout l rest

/-- Declare a class, laying out its fields with the sizes known so far. -/
def declare (t : TypeTable) (name : String) (fields : List (String × Ty)) :
    Except Fault TypeTable := do
  let layout ← Layout.compute t.size name fields
  return { t with classes := putLayout layout t.classes }.intern (.cls name)

/-- The layout of the class that a pointer type points to. -/
def pointeeLayout (t : TypeTable) (ty : Ty) : Option Layout := do
  t.layout? (← (← ty.pointee).className)

end TypeTable

end SsaCodegen
