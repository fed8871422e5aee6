import Scoping.Ident
import Scoping.ErrorCode
import Scoping.Scope.Entry

/-! Why a name cannot be recorded. An error holds the cause, the name and the scope it happened in.
    It is written in two ways: a fixed text for the cause, and a message that quotes the name. -/

namespace Scoping

/-- The cause of a binding error. -/
inductive BindingFault
  | nonlocalAtModuleLevel
  | nonlocalNotFound
  | nonlocalAndGlobal
  | usedBeforeNonlocal
  | assignedBeforeNonlocal
  | usedBeforeGlobal
  | assignedBeforeGlobal
  | assignmentInClassBody
  | assignmentInIterable
  | assignmentToIterationVariable
  | misplacedScope (kind : ScopeKind)
  | noIdsLeft
  deriving DecidableEq

namespace BindingFault

/-- The code of a cause. A late declaration has one code, whichever declaration it is. -/
def code : BindingFault → ErrorCode
  | nonlocalAtModuleLevel => .nonlocalAtModuleLevel
  | nonlocalNotFound => .nonlocalNotFound
  | nonlocalAndGlobal => .nonlocalAndGlobal
  | usedBeforeNonlocal | usedBeforeGlobal => .usedBeforeDeclaration
  | assignedBeforeNonlocal | assignedBeforeGlobal => .assignedBeforeDeclaration
  | assignmentInClassBody => .assignmentInClassBody
  | assignmentInIterable => .assignmentInIterable
  | assignmentToIterationVariable => .assignmentToIterationVariable
  | misplacedScope _ => .misplacedScope
  | noIdsLeft => .noIdsLeft

/-- The cause in words, without the name. -/
def text : BindingFault → String
  | nonlocalAtModuleLevel => "nonlocal declaration not allowed at module level"
  | nonlocalNotFound => "no binding for nonlocal name found"
  | nonlocalAndGlobal => "name is nonlocal and global"
  | usedBeforeNonlocal => "name used prior to nonlocal declaration"
  | assignedBeforeNonlocal => "name assigned before nonlocal declaration"
  | usedBeforeGlobal => "name used prior to global declaration"
  | assignedBeforeGlobal => "name assigned before global declaration"
  | assignmentInClassBody =>
    "assignment expression within a comprehension cannot be used in a class body"
  | assignmentInIterable =>
    "assignment expression cannot be used in a comprehension iterable expression"
  | assignmentToIterationVariable =>
    "assignment expression cannot rebind comprehension iteration variable"
  | misplacedScope kind => kind.word ++ " scope cannot be nested here"
  | noIdsLeft => "scope tree has no scope ids left"

/-- The cause in words, with the name quoted where the name matters. -/
def textFor (name : String) : BindingFault → String
  | nonlocalNotFound => "no binding for nonlocal '" ++ name ++ "' found"
  | nonlocalAndGlobal => "name '" ++ name ++ "' is nonlocal and global"
  | usedBeforeNonlocal => "name '" ++ name ++ "' is used prior to nonlocal declaration"
  | assignedBeforeNonlocal => "name '" ++ name ++ "' is assigned to before nonlocal declaration"
  | usedBeforeGlobal => "name '" ++ name ++ "' is used prior to global declaration"
  | assignedBeforeGlobal => "name '" ++ name ++ "' is assigned to before global declaration"
  | assignmentToIterationVariable =>
    "assignment expression cannot rebind comprehension iteration variable '" ++ name ++ "'"
  | fault => fault.text

end BindingFault

/-- A name that could not be recorded in a scope. -/
structure BindingError where
  fault : BindingFault
  name : Ident
  scope : ScopeId
  deriving DecidableEq

namespace BindingError

/-- The message of an error, with its code and the name spelled out. -/
def message (spell : Ident → String) (e : BindingError) : String :=
  e.fault.code.message (e.fault.textFor (spell e.name))

end BindingError

end Scoping
