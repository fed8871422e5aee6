import Scoping.Namespace.Runner

/-! Descents. A runner that creates the namespaces of all nested scopes, and is called on each of them,
    goes through everything below a namespace. Here its loop is written as one that asks before each
    round whether a scope is left. A bound on the rounds stands for going on as long as there is one. -/

namespace Scoping

/-- The namespace of a scope among some namespaces. -/
def Environment.among? {ν π : Type} (env : Environment ν π) (created : List NamespaceId) (s : ScopeId) :
    Option NamespaceId :=
  created.find? fun c => env.scope c = s

namespace Running

variable {σ ν π : Type}

/-- Takes the next scope from the cursor if there is one, whatever scope the cursor is over. -/
def next : Running σ ν π (Option ScopeId) :=
  fun f => .ok f.cursor.next? { f with cursor := f.cursor.advance }

/-- Carries steps out over and over while the cursor has a scope left, for some rounds at most. -/
def whileLeft (body : Running σ ν π Unit) : Nat → Running σ ν π Unit
  | 0 => pure ()
  | rounds + 1 => do
    if (← remaining).isEmpty then pure ()
    else
      body
      whileLeft body rounds

end Running

namespace Runner

variable {σ ν π : Type}

/-- Creates the namespace of the scope that the cursor gives, lists it, and calls a runner on it. -/
def nestGiven (r : Runner (List NamespaceId) ν π) (h : NamespaceId) :
    Running (List NamespaceId) ν π Unit := do
  match ← Running.next with
  | none => pure ()
  | some s =>
    let child ← Running.create h s
    Running.note (· ++ [child])
    r.build child

/-- Creates the namespace of every scope that the cursor gives. -/
def nestWhile (rounds : Nat) (r : Runner (List NamespaceId) ν π) :
    Runner (List NamespaceId) ν π := fun h _ =>
  Running.whileLeft (r.nestGiven h) rounds

/-- Takes note of the namespace, and creates the next one over and over until the cursor is used up. -/
def visitWhile (visit : NamespaceId → σ → σ) (rounds : Nat) (r : Runner σ ν π) :
    Runner σ ν π := fun h _ => do
  Running.note (visit h)
  Running.whileLeft (discard (r.nestNext h)) rounds

end Runner

end Scoping
