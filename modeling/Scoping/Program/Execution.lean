import Scoping.Program.Analysis
import Scoping.Namespace.Runner

/-! Running a program. The runner of a namespace goes through the code of its scope, and where the code
    opens a scope it creates the next nested namespace and runs that first. The run notes what is read,
    and ends with the first read of a value to copy that fails. -/

namespace Scoping

/-- What a run notes. -/
inductive Observation
  | read (scope : ScopeId) (n : Ident) (r : Except AccessError Int)
  | has (scope : ScopeId) (n : Ident) (b : Bool)
  | notDeleted (scope : ScopeId) (n : Ident) (e : AccessError)

/-- A program after its run. -/
structure Outcome where
  tree : ScopeTree Body
  log : List Observation
  /-- The error that ended the run. -/
  stopped : Option AccessError
  /-- The names of the global namespace with their values. -/
  globals : List (Ident × Option Int)

namespace Body

/-- The value of the name of a function or class once it is defined. -/
def defined : Int := -1

/-- Gives the name of a function or class its value. -/
def define (h : NamespaceId) : Option Ident → Running (List Observation) Int Body Unit
  | some n => Running.update (·.set h n defined)
  | none => pure ()

/-- Notes an observation made in an environment. -/
def observe (f : Environment Int Body → Observation) : Running (List Observation) Int Body Unit := do
  let env ← Running.env
  Running.note (· ++ [f env])

/-- Takes the value of a name away, or notes why that fails. -/
def delete (h : NamespaceId) (n : Ident) : Running (List Observation) Int Body Unit := do
  let env ← Running.env
  match env.delete h n with
  | .ok after => Running.update fun _ => after
  | .error e => Running.note (· ++ [.notDeleted (env.scope h) n e])

mutual

/-- Runs one statement of a namespace. The given runner is called on the namespaces nested in it. -/
def executeOne (r : Runner (List Observation) Int Body) (h : NamespaceId) :
    Stmt → Running (List Observation) Int Body Unit
  | .assign n v => Running.update (·.set h n v)
  | .copy dst src => do
    let v ← Running.get h src
    Running.update (·.set h dst v)
  | .read n => observe fun env => .read (env.scope h) n (env.get h n)
  | .has n => observe fun env => .has (env.scope h) n (env.has h n)
  | .delete n => delete h n
  | .assignExpr n v => Running.update (·.assignExpr h n v)
  | .declareNonlocal _ | .declareGlobal _ => pure ()
  | .function name _ | .classBody name _ => do
    discard (r.nestNext h)
    define h name
  | .lambda _ | .toplevel _ | .comprehension _ _ => discard (r.nestNext h)
  | .iterable body => execute r h body
termination_by structural stmt => stmt

/-- Runs the statements of a namespace. -/
def execute (r : Runner (List Observation) Int Body) (h : NamespaceId) :
    List Stmt → Running (List Observation) Int Body Unit
  | [] => pure ()
  | stmt :: rest => do
    executeOne r h stmt
    execute r h rest
termination_by structural body => body

end

/-- Runs the code that a namespace's scope has for its payload. -/
def runner : Runner (List Observation) Int Body := Runner.recursive execute

/-- The global names of an environment with their values. -/
def globalValues (env : Environment Int Body) : List (Ident × Option Int) :=
  (env.localNames NamespaceId.root).map fun n => (n, (env.get NamespaceId.root n).toOption)

/-- Runs an analysed program with the given builtins. -/
def run (t : ScopeTree Body) (builtins : Builtins Int) : Outcome :=
  match Environment.start t builtins with
  | .error e => ⟨t, [], some e, []⟩
  | .ok env =>
    match runner.build NamespaceId.root ⟨[], env, .start t ScopeId.root⟩ with
    | .ok _ f => ⟨t, f.own, none, globalValues f.env⟩
    | .error e f => ⟨t, f.own, some e, globalValues f.env⟩

end Body

end Scoping
