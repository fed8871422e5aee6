import Scoping.Steps
import Scoping.Scope.InPlace

/-! Passages. A passage is a stretch of analysis as code carries it out on a tree. It makes reports,
    replaces payloads, carries out passages of its own in an iterable, builds the tree with a walker
    that does the same, and goes on by what it is told and by what it finds in the tree. A passage
    that fails stops there, and whoever runs it is told why. Every report that it makes is filed
    with the tree before and after it, so that one can ask what happened in the course of a passage,
    and not only what it left. -/

namespace Scoping

/-- What a passage does. -/
inductive Passage (π : Type)
  | done
  | fail (e : BindingError)
  /-- Looks at the tree. -/
  | look (further : ScopeTree π → Passage π)
  /-- Makes a report, and is told why if it is refused. -/
  | report (s : ScopeId) (r : Action π) (further : Option BindingError → Passage π)
  /-- Gives a scope another payload. -/
  | attach (s : ScopeId) (payload : π) (further : Passage π)
  /-- Carries out a passage in an iterable of a scope, and is told why if it fails. -/
  | inIterable (s : ScopeId) (inner : Passage π) (further : Option BindingError → Passage π)
  /-- Builds the tree with a walker, and is told why if that fails. -/
  | build (walker : ScopeId → Passage π) (further : Option BindingError → Passage π)

/-- A report that was made, with the tree before and after it. -/
structure Filed (π : Type) where
  scope : ScopeId
  action : Action π
  before : ScopeTree π
  refusal : Option BindingError
  after : ScopeTree π

namespace Walking

open Steps

variable {σ π α : Type}

/-- Carries out steps and tells why if they fail. What they have done until then stays. -/
def outcome (m : Walking σ π α) : Walking σ π (Option BindingError) :=
  fun x => .ok (failure? (m x)) (left (m x))

/-- Carries out steps if the tree holds a scope that they are about. -/
def ifThere (s : ScopeId) (m : Walking σ π Unit) : Walking σ π Unit := fun x =>
  if s ∈ x.2 then m x else .ok () x

/-- Makes a report in place and files it. There are none on scopes that the tree does not hold, but
    for those that are out of place anywhere. -/
def file (s : ScopeId) (r : Action π) : Walking (List (Filed π)) π (Option BindingError) := fun x =>
  if s ∈ x.2 ∨ ScopeTree.outOfPlace s r then
    let made := InPlace.report s r ((), x.2)
    let refusal := failure? made
    let after := (left made).2
    .ok refusal (x.1 ++ [⟨s, r, x.2, refusal, after⟩], after)
  else .ok none x

end Walking

namespace Passage

variable {π : Type}

/-- Carries out a passage. -/
def run : Passage π → Walking (List (Filed π)) π Unit
  | done => pure ()
  | fail e => throw e
  | look further => do run (further (← Walking.tree))
  | report s r further => do run (further (← Walking.file s r))
  | attach s payload further => do
    Walking.update (·.setPayload s payload)
    run further
  | inIterable s inner further => do
    run (further (← Walking.outcome (Walking.ifThere s (Walking.withIterable s (run inner)))))
  | build walker further => do run (further (← Walking.outcome (Walker.build fun s => run (walker s))))

end Passage

end Scoping
