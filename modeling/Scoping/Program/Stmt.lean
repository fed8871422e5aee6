import Scoping.Ident

/-! Programs of a small language with nested scopes. A scope's code is a list of statements, and a
    statement that opens a scope holds the code of that scope. -/

namespace Scoping

/-- One statement. -/
inductive Stmt
  /-- Gives a name a value. -/
  | assign (n : Ident) (v : Int)
  /-- Gives a name the value of another. -/
  | copy (dst src : Ident)
  /-- Records the value of a name. -/
  | read (n : Ident)
  /-- Records whether a name has a value. -/
  | has (n : Ident)
  /-- Takes the value of a name away. -/
  | delete (n : Ident)
  /-- Gives a name a value by an assignment expression. -/
  | assignExpr (n : Ident) (v : Int)
  | declareNonlocal (n : Ident)
  | declareGlobal (n : Ident)
  /-- Opens a function. -/
  | function (name : Option Ident) (body : List Stmt)
  /-- Opens a class. -/
  | classBody (name : Option Ident) (body : List Stmt)
  /-- Opens a lambda. -/
  | lambda (body : List Stmt)
  /-- Opens toplevel code. -/
  | toplevel (body : List Stmt)
  /-- Opens a comprehension with its iteration variables. -/
  | comprehension (targets : List Ident) (body : List Stmt)
  /-- Stands in the iterable of a comprehension. -/
  | iterable (body : List Stmt)

/-- The code of a scope. -/
abbrev Body := List Stmt

namespace Stmt

/-- The code of a comprehension. It starts by giving each iteration variable a value. -/
def loop (targets : List Ident) (body : Body) : Body := targets.map (assign · 0) ++ body

end Stmt

end Scoping
