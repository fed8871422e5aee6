import Scoping.Namespace.Environment

/-! Cursors. Code that runs meets the scopes nested in its own in the order in which the analysis found
    them. A cursor hands them out in that order, each once. -/

namespace Scoping

/-- A walk through the scopes nested in a scope. -/
structure Cursor where
  parent : ScopeId
  /-- The nested scopes that have not been taken. -/
  remaining : List ScopeId
  deriving DecidableEq

namespace Cursor

/-- The cursor before the first scope nested in a scope. -/
def start {π : Type} (t : ScopeTree π) (s : ScopeId) : Cursor := ⟨s, t.nested s⟩

/-- How many scopes are left. -/
def left (c : Cursor) : Nat := c.remaining.length

/-- The next scope, if there is one. -/
def next? (c : Cursor) : Option ScopeId := c.remaining.head?

/-- The cursor behind the next scope. -/
def advance (c : Cursor) : Cursor := { c with remaining := c.remaining.tail }

/-- Takes the next scope. -/
def take (c : Cursor) : Except AccessError (ScopeId × Cursor) :=
  match c.next? with
  | some s => .ok (s, c.advance)
  | none => .error (.nestedScopesExhausted c.parent)

end Cursor

end Scoping
