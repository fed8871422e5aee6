import Scoping.Scope.Action
import Scoping.Scope.Resolution

/-! Traces. A walk over code can be written down as a list of events: what occurs in the current
    scope, and where a nested scope begins and ends. Replaying the list on a tree makes the same
    reports. The end of the scope where the replay started does not lead out of it. -/

namespace Scoping

/-- One step of a trace. -/
inductive Event
  | load (n : Ident)
  | store (n : Ident)
  | assignExpr (n : Ident)
  | declareNonlocal (n : Ident)
  | declareGlobal (n : Ident)
  /-- Opens a scope below the current one and enters it. -/
  | enter (kind : ScopeKind) (name : Option Ident)
  /-- Leaves the current scope. -/
  | leave
  /-- Says whether the current scope's code is in an iterable. -/
  | inIterable (on : Bool)
  deriving DecidableEq

/-- Where a replay stands: the current scope, and the scopes entered before it, innermost first. -/
structure Position where
  current : ScopeId
  outer : List ScopeId
  deriving DecidableEq

namespace Position

/-- The position at which a replay starts. -/
def start (s : ScopeId) : Position := ⟨s, []⟩

/-- Goes into a scope. -/
def enter (p : Position) (s : ScopeId) : Position := ⟨s, p.current :: p.outer⟩

/-- Goes back to the scope entered before, if there is one. -/
def leave : Position → Position
  | ⟨_, s :: outer⟩ => ⟨s, outer⟩
  | p => p

end Position

namespace ScopeTree

variable {π : Type} [Inhabited π]

/-- Replays one event. -/
def replayOne (t : ScopeTree π) (p : Position) : Event → Except Refusal (ScopeTree π × Position)
  | .load n => (t.perform p.current (.load n)).map (·, p)
  | .store n => (t.perform p.current (.store n)).map (·, p)
  | .assignExpr n => (t.perform p.current (.assignExpr n)).map (·, p)
  | .declareNonlocal n => (t.perform p.current (.declareNonlocal n)).map (·, p)
  | .declareGlobal n => (t.perform p.current (.declareGlobal n)).map (·, p)
  | .enter kind name => (t.perform p.current (.nest kind name default)).map (·, p.enter t.size)
  | .leave => .ok (t, p.leave)
  | .inIterable on => (t.perform p.current (.setInIterable on)).map (·, p)

/-- Replays events up to the first that is refused. The tree keeps what was replayed until then. -/
def replay (t : ScopeTree π) (p : Position) : List Event → ScopeTree π × Except Refusal Position
  | [] => (t, .ok p)
  | e :: rest =>
    match t.replayOne p e with
    | .ok (u, q) => u.replay q rest
    | .error r => (t, .error r)

/-- The tree of a trace that starts in the global scope, with its analysis complete. -/
def ofEvents (events : List Event) : Except Refusal (ScopeTree π) :=
  match (ScopeTree.new default).replay (.start ScopeId.root) events with
  | (t, .ok _) => .ok t.finish
  | (_, .error r) => .error r

end ScopeTree

end Scoping
