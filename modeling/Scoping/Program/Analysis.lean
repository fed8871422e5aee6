import Scoping.Program.Stmt
import Scoping.Scope.Walk

/-! Analysing a program. The payload of a scope is its code, and the walker reports what occurs in it. -/

namespace Scoping

namespace Body

mutual

/-- Reports one statement of a scope. -/
def reportOne (s : ScopeId) : Stmt → Walking Unit Body Unit
  | .assign n _ | .delete n => Walking.update (·.store s n)
  | .copy dst src => do
    Walking.update (·.load s src)
    Walking.update (·.store s dst)
  | .read n | .has n => Walking.update (·.load s n)
  | .assignExpr n _ => Walking.attempt (·.assignExpr s n)
  | .declareNonlocal n => Walking.attempt (·.declareNonlocal s n)
  | .declareGlobal n => Walking.attempt (·.declareGlobal s n)
  | .function name body => Walking.attempt (·.nest s .function name body)
  | .classBody name body => Walking.attempt (·.nest s .classBody name body)
  | .lambda body => Walking.attempt (·.nest s .lambda none body)
  | .toplevel body => Walking.attempt (·.nest s .toplevel none body)
  | .comprehension targets body =>
    Walking.attempt (·.nest s .comprehension none (Stmt.loop targets body))
  | .iterable body => Walking.withIterable s (report s body)
termination_by structural stmt => stmt

/-- Reports the statements of a scope. -/
def report (s : ScopeId) : List Stmt → Walking Unit Body Unit
  | [] => pure ()
  | stmt :: rest => do
    reportOne s stmt
    report s rest
termination_by structural body => body

end

/-- Reports the code that a scope has for its payload. -/
def walker : Walker Unit Body := fun s => do
  report s (((← Walking.tree).payload? s).getD [])

/-- The scopes of a program, with their analysis complete. -/
def analyse (program : Body) : Except BindingError (ScopeTree Body) :=
  match walker.build ((), ScopeTree.new program) with
  | .ok _ x => .ok x.2
  | .error e _ => .error e

end Body

end Scoping
