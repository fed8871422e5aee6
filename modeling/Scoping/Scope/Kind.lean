/-! Kinds of scope. Open scopes (the global scope, toplevel code, class bodies) are visible to their own
    body alone; closed scopes (functions, lambdas, comprehensions) are also visible to the scopes nested
    in them, which may capture their names. -/

namespace Scoping

/-- The kind of a scope. -/
inductive ScopeKind
  /-- The root of a tree of scopes. -/
  | global
  /-- Module-level code with names of its own, directly below the root. -/
  | toplevel
  /-- The body of a class. -/
  | classBody
  /-- The body of a function. -/
  | function
  /-- A lambda expression. -/
  | lambda
  /-- A comprehension. -/
  | comprehension
  deriving DecidableEq, Inhabited

namespace ScopeKind

/-- Every kind. -/
def all : List ScopeKind := [global, toplevel, classBody, function, lambda, comprehension]

/-- Visible to their own body, passed over by capture. -/
def isOpen : ScopeKind → Bool
  | global | toplevel | classBody => true
  | function | lambda | comprehension => false

/-- Visible to nested scopes as well. -/
def isClosed (k : ScopeKind) : Bool := !k.isOpen

/-- Whether a name may be captured from around a scope of this kind. Module-level code
    captures nothing. -/
def captures : ScopeKind → Bool
  | global | toplevel => false
  | classBody | function | lambda | comprehension => true

/-- Whether opening a scope of this kind binds its name in the scope around it. -/
def bindsName : ScopeKind → Bool
  | function | classBody => true
  | global | toplevel | lambda | comprehension => false

/-- The kind in a word. -/
def word : ScopeKind → String
  | global => "global"
  | toplevel => "toplevel"
  | classBody => "class"
  | function => "function"
  | lambda => "lambda"
  | comprehension => "comprehension"

/-- The kind of a word. -/
def ofWord? (s : String) : Option ScopeKind := all.find? fun k => k.word == s

/-- The kind as a title. -/
def title (k : ScopeKind) : String := k.word.capitalize

/-- What stands for the name of a scope that has none. -/
def label (k : ScopeKind) : String :=
  match k with
  | global => "<globals>"
  | k => "<" ++ k.word ++ ">"

end ScopeKind

end Scoping
