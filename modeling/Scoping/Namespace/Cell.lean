/-! Cells. A cell is the place of one name in one namespace. It holds a value or none; a cell without a
    value is still there, and differs from a name that has no cell. -/

namespace Scoping

/-- A place for a value. -/
structure Cell (ν : Type) where
  value : Option ν
  deriving DecidableEq

namespace Cell

variable {ν : Type}

/-- The cell without a value. -/
def unbound : Cell ν := ⟨none⟩

/-- The cell that holds a value. -/
def bound (v : ν) : Cell ν := ⟨some v⟩

instance : Inhabited (Cell ν) := ⟨unbound⟩

/-- Whether the cell holds a value. -/
def isBound (c : Cell ν) : Bool := c.value.isSome

/-- Puts a value into the cell, and tells the one that was there. -/
def bind (c : Cell ν) (v : ν) : Option ν × Cell ν := (c.value, bound v)

/-- Takes the value out of the cell, and tells what it was. -/
def unbind (c : Cell ν) : Option ν × Cell ν := (c.value, unbound)

end Cell

end Scoping
