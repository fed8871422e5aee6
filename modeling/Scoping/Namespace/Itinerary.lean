import Scoping.Namespace.Runner
import Scoping.Namespace.Workspace

/-! Itineraries. A cursor that code holds is a list of nested scopes and a place in it. Code may keep it,
    copy it, take scopes from it as it likes and hand it to whatever namespace it likes, also while code
    that it has started is running, so an itinerary keeps all cursors that there are and all environments
    of a tree. Code is given as what it does next in answer to what it is told, and code that is started
    gets a cursor of its own. Steps on a namespace or a cursor that is not there change nothing. -/

namespace Scoping

/-! ### Cursors with a place -/

/-- The scopes nested in a scope, and how many of them have been taken. -/
structure Counter where
  parent : ScopeId
  scopes : List ScopeId
  place : Nat
  deriving DecidableEq

namespace Counter

/-- The counter before the first scope nested in a scope. -/
def start {π : Type} (t : ScopeTree π) (s : ScopeId) : Counter := ⟨s, t.nested s, 0⟩

/-- How many scopes are left. There is no answer if more have been taken than there were. -/
def left? (k : Counter) : Option Nat :=
  if k.place ≤ k.scopes.length then some (k.scopes.length - k.place) else none

/-- The next scope, if there is one, and the counter behind it. -/
def next (k : Counter) : Option ScopeId × Counter :=
  match k.scopes[k.place]? with
  | some s => (some s, { k with place := k.place + 1 })
  | none => (none, k)

/-- What a counter has left to give. -/
def cursor (k : Counter) : Cursor := ⟨k.parent, k.scopes.drop k.place⟩

end Counter

/-- A counter in use, and the scopes that were taken from it, or from the one that it is a copy of
    before it was copied. -/
structure Tally where
  counter : Counter
  taken : List ScopeId
  deriving DecidableEq

/-- The tally after the next scope has been taken, if there is one. -/
def Tally.advance (k : Tally) : Tally := ⟨k.counter.next.2, k.taken ++ k.counter.next.1.toList⟩

/-! ### Itineraries -/

/-- The position of a cursor in an itinerary. -/
abbrev CursorId := Nat

/-- A namespace of one of the environments of an itinerary. -/
structure Site where
  unit : Nat
  id : NamespaceId
  deriving DecidableEq

/-- All that code works on: a state of its own, environments and cursors. -/
structure Itinerary (σ ν π : Type) where
  own : σ
  envs : Array (Environment ν π)
  tallies : Array Tally

namespace Itinerary

variable {σ ν π : Type}

instance : Membership Site (Itinerary σ ν π) :=
  ⟨fun x a => ∃ env, x.envs[a.unit]? = some env ∧ a.id ∈ env⟩

/-- The scope of a namespace. -/
def scope (x : Itinerary σ ν π) (a : Site) : ScopeId :=
  (x.envs[a.unit]?).elim ScopeId.root (·.scope a.id)

/-- The scope that a cursor is over. -/
def cursorScope (x : Itinerary σ ν π) (c : CursorId) : ScopeId :=
  (x.tallies[c]?).elim ScopeId.root (·.counter.parent)

/-- Replaces an environment. -/
def setEnv (x : Itinerary σ ν π) (unit : Nat) (env : Environment ν π) : Itinerary σ ν π :=
  { x with envs := x.envs.setIfInBounds unit env }

/-- Replaces a cursor. -/
def setTally (x : Itinerary σ ν π) (c : CursorId) (k : Tally) : Itinerary σ ν π :=
  { x with tallies := x.tallies.setIfInBounds c k }

/-- Adds a cursor. -/
def pushTally (x : Itinerary σ ν π) (k : Tally) : Itinerary σ ν π :=
  { x with tallies := x.tallies.push k }

end Itinerary

/-- Steps that read and change an itinerary, and may fail. -/
abbrev Touring (σ ν π : Type) := EStateM AccessError (Itinerary σ ν π)

/-- Code that runs in a namespace, given the payload of its scope and a cursor over what is
    nested in it. -/
abbrev Builder (σ ν π : Type) := Site → π → CursorId → Touring σ ν π Unit

namespace Touring

variable {σ ν π α : Type}

/-- The itinerary as it stands. -/
def look : Touring σ ν π (Itinerary σ ν π) := fun x => .ok x x

/-- Changes the state of the code. -/
def note (g : σ → σ) : Touring σ ν π Unit := fun x => .ok () { x with own := g x.own }

/-- Carries out steps and tells how they end. What they have done until then stays. -/
def outcome (m : Touring σ ν π α) : Touring σ ν π (Except AccessError α) := fun x =>
  match m x with
  | .ok a y => .ok (.ok a) y
  | .error e y => .ok (.error e) y

/-! ### Environments -/

/-- Changes an environment. -/
def update (unit : Nat) (g : Environment ν π → Environment ν π) : Touring σ ν π Unit := fun x =>
  match x.envs[unit]? with
  | some env => .ok () (x.setEnv unit (g env))
  | none => .ok () x

/-- Sets up one more environment for the tree of one, and gives its global namespace. -/
def openUnit (unit : Nat) (builtins : Builtins ν) : Touring σ ν π Site := fun x =>
  match x.envs[unit]? with
  | some env =>
    match Environment.start env.tree builtins with
    | .ok fresh => .ok ⟨x.envs.size, NamespaceId.root⟩ { x with envs := x.envs.push fresh }
    | .error e => .error e x
  | none => .ok ⟨unit, NamespaceId.root⟩ x

/-- Creates the namespace of a scope below a namespace. -/
def create (a : Site) (s : ScopeId) : Touring σ ν π Site := fun x =>
  match x.envs[a.unit]? with
  | some env =>
    match env.nest a.id s with
    | .ok after => .ok ⟨a.unit, env.size⟩ (x.setEnv a.unit after)
    | .error e => .error e x
  | none => .error (.scopeMismatch (x.scope a) s) x

/-! ### Cursors -/

/-- Takes the next scope from a cursor, if there is one. -/
def next (c : CursorId) : Touring σ ν π (Option ScopeId) := fun x =>
  match x.tallies[c]? with
  | some k => .ok k.counter.next.1 (x.setTally c k.advance)
  | none => .ok none x

/-- Takes the next scope from a cursor, which must have one. -/
def nextScope (c : CursorId) : Touring σ ν π ScopeId := do
  match ← next c with
  | some s => return s
  | none => throw (.nestedScopesExhausted ((← look).cursorScope c))

/-- Copies a cursor. -/
def copy (c : CursorId) : Touring σ ν π CursorId := fun x =>
  match x.tallies[c]? with
  | some k => .ok x.tallies.size (x.pushTally k)
  | none => .ok c x

/-! ### Building -/

/-- Runs code in a namespace, with a new cursor. -/
def build (b : Builder σ ν π) (a : Site) : Touring σ ν π Unit := fun x =>
  match x.envs[a.unit]? with
  | some env =>
    match env.tree.payload? (env.scope a.id) with
    | some payload => b a payload x.tallies.size (x.pushTally ⟨.start env.tree (env.scope a.id), []⟩)
    | none => .ok () x
  | none => .ok () x

/-- Creates the namespace of a scope and runs code in it. -/
def nestWith (b : Builder σ ν π) (a : Site) (s : ScopeId) : Touring σ ν π Site := do
  let child ← create a s
  build b child
  return child

/-- Creates the namespace of the next scope that a cursor gives, and runs code in it. The cursor
    must be over the scope of the namespace below which this is to happen. -/
def nestNext (b : Builder σ ν π) (a : Site) (c : CursorId) : Touring σ ν π Site := do
  let x ← look
  if x.cursorScope c = x.scope a then
    let s ← nextScope c
    nestWith b a s
  else throw (.scopeMismatch (x.scope a) (x.cursorScope c))

end Touring

/-! ### Routines -/

/-- What code does. -/
inductive Routine (σ ν π : Type)
  | done
  | fail (e : AccessError)
  /-- Looks at all there is. -/
  | look (further : Itinerary σ ν π → Routine σ ν π)
  | note (g : σ → σ) (further : Routine σ ν π)
  | call (unit : Nat) (k : NamespaceCall ν) (further : Routine σ ν π)
  | install (unit : Nat) (builtins : Builtins ν) (further : Routine σ ν π)
  | openUnit (unit : Nat) (builtins : Builtins ν) (further : Except AccessError Site → Routine σ ν π)
  | next (c : CursorId) (further : Option ScopeId → Routine σ ν π)
  | nextScope (c : CursorId) (further : Except AccessError ScopeId → Routine σ ν π)
  | copy (c : CursorId) (further : CursorId → Routine σ ν π)
  | build (builder : Site → π → CursorId → Routine σ ν π) (a : Site)
      (further : Except AccessError Unit → Routine σ ν π)
  | nestWith (builder : Site → π → CursorId → Routine σ ν π) (a : Site) (s : ScopeId)
      (further : Except AccessError Site → Routine σ ν π)
  | nestNext (builder : Site → π → CursorId → Routine σ ν π) (a : Site) (c : CursorId)
      (further : Except AccessError Site → Routine σ ν π)

namespace Routine

open Touring (outcome)

variable {σ ν π : Type}

/-- Carries out a routine. -/
def run : Routine σ ν π → Touring σ ν π Unit
  | done => pure ()
  | fail e => throw e
  | look further => do run (further (← Touring.look))
  | note g further => do
    Touring.note g
    run further
  | call unit k further => do
    Touring.update unit (·.call k)
    run further
  | install unit builtins further => do
    Touring.update unit fun env => { env with builtins := builtins }
    run further
  | openUnit unit builtins further => do run (further (← outcome (Touring.openUnit unit builtins)))
  | next c further => do run (further (← Touring.next c))
  | nextScope c further => do run (further (← outcome (Touring.nextScope c)))
  | copy c further => do run (further (← Touring.copy c))
  | build builder a further => do
    run (further (← outcome (Touring.build (fun a payload c => run (builder a payload c)) a)))
  | nestWith builder a s further => do
    run (further (← outcome (Touring.nestWith (fun a payload c => run (builder a payload c)) a s)))
  | nestNext builder a c further => do
    run (further (← outcome (Touring.nestNext (fun a payload c => run (builder a payload c)) a c)))

end Routine

end Scoping
