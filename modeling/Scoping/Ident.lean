import Std.Data.ExtTreeMap

/-! Identifiers. An identifier is a position in a table of spellings, so two identifiers of one table
    are equal exactly when they are spelled alike, and comparing them never looks at text. They are
    ordered by position, that is, by the order in which the table first saw their spellings. -/

namespace Scoping

/-- An identifier, known by its position in a table of spellings. -/
structure Ident where
  index : Nat
  deriving DecidableEq, Inhabited

namespace Ident

/-- The identifier every table spells as the empty string. -/
def empty : Ident := ⟨0⟩

/-- An identifier as messages write it when its spelling is not at hand. -/
def display (n : Ident) : String := "Name(" ++ toString n.index ++ ")"

instance : Ord Ident := ⟨fun m n => compare m.index n.index⟩

instance : Std.TransOrd Ident where
  eq_swap {m n} := Std.OrientedOrd.eq_swap (a := m.index) (b := n.index)
  isLE_trans {_ _ _} h₁ h₂ := Std.TransOrd.isLE_trans (α := Nat) h₁ h₂

instance : Std.LawfulEqOrd Ident where
  compare_self {m} := Std.ReflOrd.compare_self (a := m.index)
  eq_of_compare {m n} h := by
    cases m; cases n
    exact congrArg mk (Std.LawfulEqOrd.eq_of_compare (α := Nat) h)

instance : LT Ident := ⟨fun m n => m.index < n.index⟩

instance (m n : Ident) : Decidable (m < n) := inferInstanceAs (Decidable (m.index < n.index))

end Ident

/-- A finite map keyed by identifiers, listed in the order of the identifiers. -/
abbrev IdentMap (α : Type) := Std.ExtTreeMap Ident α

end Scoping
