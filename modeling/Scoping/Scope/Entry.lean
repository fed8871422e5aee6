import Scoping.Scope.Kind

/-! What a scope knows of a name. A name that occurs in a scope has exactly one entry there, so
    the names a scope binds, captures and takes from the global scope never overlap. An entry
    starts as a mere use when the name is read, and is settled by a binding, by a declaration or
    at the end of the analysis. -/

namespace Scoping

/-- The position of a scope in its tree. -/
abbrev ScopeId := Nat

namespace ScopeId

/-- The global scope. -/
def root : ScopeId := 0

/-- A scope id as messages write it. -/
def display (s : ScopeId) : String := "ScopeId(" ++ toString s ++ ")"

end ScopeId

/-- What a scope knows of a name. -/
inductive Entry
  /-- The name occurs, and where it is bound is open. -/
  | used
  /-- The scope binds the name. -/
  | bound
  /-- The name is bound in an enclosing scope. -/
  | captured (target : ScopeId)
  /-- The name is bound in the global scope, by a declaration or because no other scope binds it. -/
  | global (declared : Bool)
  deriving DecidableEq

/-- An entry as seen from its scope. In the global scope a bound name is local and global at once. -/
inductive Status
  | unknown
  | used
  | bound
  | captured
  | global
  | top
  deriving DecidableEq

namespace Status

/-- The status of a name in a scope, from the entry it has there. -/
def ofEntry (s : ScopeId) : Option Entry → Status
  | none => unknown
  | some .used => used
  | some .bound => if s = ScopeId.root then top else bound
  | some (.captured _) => captured
  | some (.global _) => global

/-- The status in a word. -/
def word : Status → String
  | unknown => "Unknown"
  | used => "Used"
  | bound => "Local"
  | captured => "Nonlocal"
  | global => "Global"
  | top => "Top"

end Status

end Scoping
