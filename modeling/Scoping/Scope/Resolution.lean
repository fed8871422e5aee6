import Scoping.Scope.Lookup
import Scoping.Scope.Occurrence

/-! Settling what is open. At the end of the analysis every name that a scope merely uses is settled:
    it is captured from its target, or else it is global, and the global scope takes note of it. A
    scope is settled after all that is nested in it, so the searches outward meet entries that are
    still as recorded, and the global scope comes last, when it has taken note of every name. -/

namespace Scoping

namespace ScopeTree

variable {π : Type}

/-- Settles one name that a scope uses. -/
def settleName (s : ScopeId) (t : ScopeTree π) (n : Ident) : ScopeTree π :=
  match t.capture? s n with
  | some target => t.setEntry s n (.captured target)
  | none => (t.load ScopeId.root n).setEntry s n (.global false)

/-- Settles every name that a scope uses. -/
def settleScope (t : ScopeTree π) (s : ScopeId) : ScopeTree π := (t.pending s).foldl (settleName s) t

/-- Settles all that is nested in a scope, to a given depth, and then the scope. -/
def settleWithin : Nat → ScopeTree π → ScopeId → ScopeTree π
  | 0, t, _ => t
  | depth + 1, t, s => ((t.nested s).foldl (settleWithin depth) t).settleScope s

/-- Settles every scope, the inner before the outer. No chain of scopes is longer than their number. -/
def settle (t : ScopeTree π) : ScopeTree π := t.settleWithin t.size ScopeId.root

/-- Completes the analysis of a tree. -/
def finish (t : ScopeTree π) : ScopeTree π := { t.settle with built := true }

end ScopeTree

end Scoping
