import Scoping.Ident
import Scoping.ErrorCode
import Scoping.Scope.Entry

/-! Why an access to a namespace fails. A name may have no value, or the caller may have left the
    order in which the scopes of the unit are nested. Like a binding error, an access error is
    written with a fixed text or with the name spelled out. -/

namespace Scoping

/-- A failed access. -/
inductive AccessError
  /-- The namespace has a cell for the name, without a value. -/
  | unboundLocal (name : Ident)
  /-- The name has no value anywhere. -/
  | undefinedName (name : Ident)
  /-- The scope is not nested directly in the other one. -/
  | scopeMismatch (parent scope : ScopeId)
  /-- Every scope nested in the scope has been taken. -/
  | nestedScopesExhausted (parent : ScopeId)
  /-- The analysis of the scopes is not complete. -/
  | unbuiltTree
  deriving DecidableEq

namespace AccessError

/-- The code of an error. -/
def code : AccessError → ErrorCode
  | unboundLocal _ => .unboundLocal
  | undefinedName _ => .undefinedName
  | scopeMismatch _ _ | nestedScopesExhausted _ => .outOfStep
  | unbuiltTree => .unbuiltTree

/-- The name whose access failed. -/
def name? : AccessError → Option Ident
  | unboundLocal n | undefinedName n => some n
  | scopeMismatch _ _ | nestedScopesExhausted _ | unbuiltTree => none

/-- The error in words, without the name. -/
def text : AccessError → String
  | unboundLocal _ => "local variable referenced before assignment"
  | undefinedName _ => "name is not defined"
  | scopeMismatch p s => "scope " ++ s.display ++ " is not nested directly in scope " ++ p.display
  | nestedScopesExhausted p => "scope " ++ p.display ++ " has no nested scope left"
  | unbuiltTree => "namespaces require a built scope tree"

/-- The message of an error, with its code and the name spelled out. -/
def message (spell : Ident → String) (e : AccessError) : String :=
  e.code.message <|
    match e with
    | unboundLocal n => "local variable '" ++ spell n ++ "' referenced before assignment"
    | undefinedName n => "name '" ++ spell n ++ "' is not defined"
    | scopeMismatch _ _ | nestedScopesExhausted _ | unbuiltTree => e.text

end AccessError

end Scoping
