/-!
# Identifiers

Every entity of a module is named by its position in the module's table for that kind of entity.
The five kinds get five types, so that a block's number cannot be taken for a value's. Each prints
as its kind followed by the position in parentheses, which is how ids appear in messages.
-/

namespace SsaCodegen

/-- The position of a value in its module. -/
structure ValueId where
  idx : Nat
deriving DecidableEq

/-- The position of a basic block in its module. -/
structure BlockId where
  idx : Nat
deriving DecidableEq

/-- The position of a function in its module. -/
structure FuncId where
  idx : Nat
deriving DecidableEq

/-- The position of a global variable in its module. -/
structure GlobalId where
  idx : Nat
deriving DecidableEq

/-- The position of a type in the order in which types were first mentioned. -/
structure TypeId where
  idx : Nat
deriving DecidableEq

/-- One consuming edge: the operand of `user` at position `index`. -/
structure Use where
  user : ValueId
  index : Nat
deriving DecidableEq

instance : ToString ValueId := ⟨fun v => s!"ValueId({v.idx})"⟩
instance : ToString BlockId := ⟨fun b => s!"BlockId({b.idx})"⟩
instance : ToString FuncId := ⟨fun f => s!"FuncId({f.idx})"⟩
instance : ToString GlobalId := ⟨fun g => s!"GlobalId({g.idx})"⟩
instance : ToString TypeId := ⟨fun t => s!"IrTypeId({t.idx})"⟩
instance : ToString Use := ⟨fun u => s!"Use \x7b user: {u.user}, index: {u.index} \x7d"⟩

end SsaCodegen
