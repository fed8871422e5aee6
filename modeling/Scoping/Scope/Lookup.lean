import Scoping.Scope.Tree

/-! Where a name is bound. A scope that does not settle a name itself looks at the closed scopes around
    it, innermost first. The first one with something definite to say decides: a scope that binds the
    name is the target, one that captures it passes its own target on, and one that takes it from the
    global scope ends the search. A name that no such scope decides belongs to the global scope. -/

namespace Scoping

namespace ScopeTree

variable {π : Type}

/-- The closed scopes around a scope, innermost first. -/
def closedAround (t : ScopeTree π) (s : ScopeId) : List ScopeId := (t.enclosing s).filter t.isClosed

/-- The nearest closed scope around a scope. -/
def enclosingClosed? (t : ScopeTree π) (s : ScopeId) : Option ScopeId := (t.closedAround s).head?

/-- The target that the first scope of a list with something definite to say gives a name. -/
def captureAmong? (t : ScopeTree π) (n : Ident) : List ScopeId → Option ScopeId
  | [] => none
  | a :: rest =>
    match t.entryAt? a n with
    | some .bound => some a
    | some (.captured target) => some target
    | some (.global _) => none
    | some .used | none => t.captureAmong? n rest

/-- The scope a name of a scope is captured from, if there is one. -/
def capture? (t : ScopeTree π) (s : ScopeId) (n : Ident) : Option ScopeId :=
  t.captureAmong? n (t.closedAround s)

/-- The scope in which the value of a name lives, as seen from a scope. A name that is open or does not
    occur follows the rule by which it would be settled. -/
def home (t : ScopeTree π) (s : ScopeId) (n : Ident) : ScopeId :=
  match t.entryAt? s n with
  | some .bound => s
  | some (.captured target) => target
  | some (.global _) => ScopeId.root
  | some .used | none => (t.capture? s n).getD ScopeId.root

end ScopeTree

end Scoping
