import Scoping.Namespace.Cursor

/-! Running code. A runner is called on a namespace with the payload of its scope, and a cursor over
    the scopes nested in it. It works on the environment and on a state of its own, and it may
    create the next nested namespace, on which a runner is called before the work goes on. Each call
    has a cursor to itself, and the caller finds its own where it left it, also after a failure. -/

namespace Scoping

/-- What running code works on. -/
structure Frame (σ ν π : Type) where
  own : σ
  env : Environment ν π
  cursor : Cursor

/-- Steps that read and change a frame, and may fail. -/
abbrev Running (σ ν π : Type) := EStateM AccessError (Frame σ ν π)

/-- Runs the code of a namespace, given the payload of its scope. -/
abbrev Runner (σ ν π : Type) := NamespaceId → π → Running σ ν π Unit

namespace Running

variable {σ ν π : Type}

/-- The environment as it stands. -/
def env : Running σ ν π (Environment ν π) := fun f => .ok f.env f

/-- The scopes that the cursor has left. -/
def remaining : Running σ ν π (List ScopeId) := fun f => .ok f.cursor.remaining f

/-- Changes the environment. -/
def update (g : Environment ν π → Environment ν π) : Running σ ν π Unit := fun f =>
  .ok () { f with env := g f.env }

/-- Changes the runner's own state. -/
def note (g : σ → σ) : Running σ ν π Unit := fun f => .ok () { f with own := g f.own }

/-- The value of a name. -/
def get (h : NamespaceId) (n : Ident) : Running σ ν π ν := fun f =>
  match f.env.get h n with
  | .ok v => .ok v f
  | .error e => .error e f

/-- Creates the namespace of a scope below a namespace. -/
def create (h : NamespaceId) (s : ScopeId) : Running σ ν π NamespaceId := fun f =>
  match f.env.nest h s with
  | .ok env => .ok f.env.size { f with env := env }
  | .error e => .error e f

/-- Takes the next scope from the cursor, which must be one over the scope of the namespace. -/
def take (h : NamespaceId) : Running σ ν π ScopeId := fun f =>
  if f.cursor.parent = f.env.scope h then
    match f.cursor.take with
    | .ok (s, c) => .ok s { f with cursor := c }
    | .error e => .error e f
  else .error (.scopeMismatch (f.env.scope h) f.cursor.parent) f

end Running

namespace Runner

variable {σ ν π : Type}

/-- Calls a runner on a namespace. -/
def build (r : Runner σ ν π) (h : NamespaceId) : Running σ ν π Unit := fun f =>
  match f.env.tree.payload? (f.env.scope h) with
  | none => .ok () f
  | some payload =>
    match r h payload { f with cursor := .start f.env.tree (f.env.scope h) } with
    | .ok _ g => .ok () { g with cursor := f.cursor }
    | .error e g => .error e { g with cursor := f.cursor }

/-- Creates the namespace of a scope and calls a runner on it. -/
def nestWith (r : Runner σ ν π) (h : NamespaceId) (s : ScopeId) : Running σ ν π NamespaceId := do
  let child ← Running.create h s
  r.build child
  return child

/-- Creates the namespace of the next scope from the cursor and calls a runner on it. -/
def nestNext (r : Runner σ ν π) (h : NamespaceId) : Running σ ν π NamespaceId := do
  let s ← Running.take h
  r.nestWith h s

/-- A runner that calls itself on nested namespaces, to a given depth. -/
def within (step : Runner σ ν π → Runner σ ν π) : Nat → Runner σ ν π
  | 0 => fun _ _ => pure ()
  | depth + 1 => step (within step depth)

/-- A runner that calls itself on nested namespaces. No chain of scopes is longer than their number. -/
def recursive (step : Runner σ ν π → Runner σ ν π) : Runner σ ν π := fun h payload => do
  within step (← Running.env).tree.size h payload

/-! ### Creating every namespace -/

/-- Creates the namespace of every scope nested in one, and calls a runner on each in turn. The
    state lists what was created. -/
def nestEach (r : Runner (List NamespaceId) ν π) : Runner (List NamespaceId) ν π := fun h _ => do
  (← Running.remaining).forM fun _ => do
    let s ← Running.take h
    let child ← Running.create h s
    Running.note (· ++ [child])
    r.build child

/-- Creates the namespace of every scope below that of a namespace, the outer before the inner. -/
def nestAll : Runner (List NamespaceId) ν π := recursive nestEach

/-- Creates the next namespace over and over until the cursor is used up. -/
def exhaust (r : Runner σ ν π) : Runner σ ν π := fun h _ => do
  (← Running.remaining).forM fun _ => discard (r.nestNext h)

end Runner

end Scoping
