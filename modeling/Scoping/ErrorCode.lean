/-! Error codes. Every fault of the library has a code of the letter `E` and four digits, and the first
    digit tells the phase that raises it: analysis of the scopes, access to the namespaces, or a caller
    that drove one of the two out of step. -/

namespace Scoping

/-- The phase whose faults share the first digit of their codes. -/
inductive Phase
  | analysis
  | access
  | internal
  deriving DecidableEq

/-- What a fault is about. -/
inductive ErrorCode
  /-- A `nonlocal` declaration in module-level code. -/
  | nonlocalAtModuleLevel
  /-- A `nonlocal` declaration of a name that no enclosing function binds. -/
  | nonlocalNotFound
  /-- A name declared both `nonlocal` and `global`. -/
  | nonlocalAndGlobal
  /-- A name used before its declaration. -/
  | usedBeforeDeclaration
  /-- A name assigned before its declaration. -/
  | assignedBeforeDeclaration
  /-- An assignment expression that would bind in a class body. -/
  | assignmentInClassBody
  /-- An assignment expression in the iterable of a comprehension. -/
  | assignmentInIterable
  /-- An assignment expression to an iteration variable. -/
  | assignmentToIterationVariable
  /-- A local name without a value. -/
  | unboundLocal
  /-- A name without a value anywhere. -/
  | undefinedName
  /-- A scope of a kind that does not belong where it was put. -/
  | misplacedScope
  /-- A namespace that does not follow the scopes. -/
  | outOfStep
  /-- Namespaces asked for before the scopes are resolved. -/
  | unbuiltTree
  /-- A scope tree that has handed out every id. -/
  | noIdsLeft
  deriving DecidableEq

namespace ErrorCode

/-- Every code, in the order of its number. -/
def all : List ErrorCode :=
  [nonlocalAtModuleLevel, nonlocalNotFound, nonlocalAndGlobal, usedBeforeDeclaration,
   assignedBeforeDeclaration, assignmentInClassBody, assignmentInIterable,
   assignmentToIterationVariable, unboundLocal, undefinedName, misplacedScope, outOfStep,
   unbuiltTree, noIdsLeft]

/-- The code as it is written. -/
def text : ErrorCode → String
  | nonlocalAtModuleLevel => "E2001"
  | nonlocalNotFound => "E2002"
  | nonlocalAndGlobal => "E2003"
  | usedBeforeDeclaration => "E2004"
  | assignedBeforeDeclaration => "E2005"
  | assignmentInClassBody => "E2006"
  | assignmentInIterable => "E2007"
  | assignmentToIterationVariable => "E2008"
  | unboundLocal => "E6001"
  | undefinedName => "E6002"
  | misplacedScope => "E9001"
  | outOfStep => "E9002"
  | unbuiltTree => "E9003"
  | noIdsLeft => "E9004"

/-- The phase that raises the code. -/
def phase : ErrorCode → Phase
  | nonlocalAtModuleLevel | nonlocalNotFound | nonlocalAndGlobal | usedBeforeDeclaration
  | assignedBeforeDeclaration | assignmentInClassBody | assignmentInIterable
  | assignmentToIterationVariable => .analysis
  | unboundLocal | undefinedName => .access
  | misplacedScope | outOfStep | unbuiltTree | noIdsLeft => .internal

/-- The code's place among all codes, counted from zero. -/
def position (c : ErrorCode) : Nat := all.idxOf c

/-- The code a text writes, whatever the case of its letter. No character outside ASCII has the
    letter of a code or a digit for its capital, so ASCII capitals decide. -/
def ofText? (s : String) : Option ErrorCode := all.find? fun c => c.text == s.toUpper

/-- An error message: the code and what went wrong. -/
def message (c : ErrorCode) (s : String) : String := "error[" ++ c.text ++ "]: " ++ s

end ErrorCode

end Scoping
