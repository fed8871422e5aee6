import Scoping.Scope.Event

/-! Trails. A replay may keep the scope at hand beside the list of the scopes that are open. The two
    are changed together, and the scope that the replay started in stays in the list. The caller of
    such a replay is told the scope at hand after the last event. -/

namespace Scoping

/-- Where a replay stands: the current scope, and the open scopes with it, innermost first. -/
structure Trail where
  current : ScopeId
  opened : List ScopeId
  deriving DecidableEq

namespace Trail

/-- The trail at which a replay starts. -/
def start (s : ScopeId) : Trail := ⟨s, [s]⟩

/-- Goes into a scope. -/
def enter (k : Trail) (s : ScopeId) : Trail := ⟨s, s :: k.opened⟩

/-- Closes the innermost scope unless no other is open. -/
def leave (k : Trail) (first : ScopeId) : Trail :=
  let opened := if 1 < k.opened.length then k.opened.tail else k.opened
  ⟨opened.headD first, opened⟩

end Trail

namespace Event

/-- Whether an event opens a scope. -/
def opens : Event → Bool
  | .enter _ _ => true
  | _ => false

end Event

namespace ScopeTree

variable {π : Type} [Inhabited π]

/-- Follows one event. -/
def followOne (t : ScopeTree π) (first : ScopeId) (k : Trail) :
    Event → Except Refusal (ScopeTree π × Trail)
  | .enter kind name => (t.perform k.current (.nest kind name default)).map (·, k.enter t.size)
  | .leave => .ok (t, k.leave first)
  | e => (t.replayOne (.start k.current) e).map fun r => (r.1, k)

/-- Follows events up to the first that is refused. -/
def follow (t : ScopeTree π) (first : ScopeId) (k : Trail) :
    List Event → ScopeTree π × Except Refusal Trail
  | [] => (t, .ok k)
  | e :: rest =>
    match t.followOne first k e with
    | .ok (u, l) => u.follow first l rest
    | .error r => (t, .error r)

/-- Replays events from a scope, and tells the scope at hand in the end. -/
def replayFrom (t : ScopeTree π) (s : ScopeId) (events : List Event) :
    ScopeTree π × Except Refusal ScopeId :=
  ((t.follow s (.start s) events).1, (t.follow s (.start s) events).2.map Trail.current)

end ScopeTree

end Scoping
