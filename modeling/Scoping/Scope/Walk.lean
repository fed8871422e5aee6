import Scoping.Scope.Resolution

/-! Building a tree. A walker is called once for every scope, the outer before the inner, and reports
    what occurs in the scope; the scopes it opens are walked in turn. Only when the whole tree has been
    walked is anything settled, so the outcome does not depend on which of two sibling scopes comes
    first. A walker that fails stops the walk, and what was reported until then stays reported. -/

namespace Scoping

/-- Steps that read and change a tree and a state of the walker's own, and may fail. -/
abbrev Walking (σ π : Type) := EStateM BindingError (σ × ScopeTree π)

/-- Reports what occurs in a scope. -/
abbrev Walker (σ π : Type) := ScopeId → Walking σ π Unit

namespace Walking

variable {σ π : Type}

/-- The tree as it stands. -/
def tree : Walking σ π (ScopeTree π) := fun x => .ok x.2 x

/-- Changes the tree. -/
def update (f : ScopeTree π → ScopeTree π) : Walking σ π Unit := fun x => .ok () (x.1, f x.2)

/-- Changes the tree if no rule is broken. -/
def attempt (f : ScopeTree π → Except BindingError (ScopeTree π)) : Walking σ π Unit := fun x =>
  match f x.2 with
  | .ok t => .ok () (x.1, t)
  | .error e => .error e x

/-- Runs steps that belong to an iterable of a scope. -/
def withIterable (s : ScopeId) (m : Walking σ π Unit) : Walking σ π Unit := fun x =>
  let r := x.2.withIterable s fun t =>
    match m (x.1, t) with
    | .ok _ y => ((none, y.1), y.2)
    | .error e y => ((some e, y.1), y.2)
  match r.1.1 with
  | none => .ok () (r.1.2, r.2)
  | some e => .error e (r.1.2, r.2)

end Walking

namespace Walker

variable {σ π : Type}

/-- The walker that reports nothing. -/
def idle : Walker σ π := fun _ => pure ()

/-- Walks the scopes nested in a scope from the given one on, each followed by what is nested in it. A
    scope may grow while it is walked, so it is asked anew for its next scope each time. Every step of
    the recursion has one more scope behind it, so the capacity of a tree bounds its depth. -/
def walkNested (w : Walker σ π) : Nat → ScopeId → Nat → Walking σ π Unit
  | 0, _, _ => pure ()
  | fuel + 1, s, i => do
    match ((← Walking.tree).nested s)[i]? with
    | none => pure ()
    | some child =>
      w child
      walkNested w fuel child 0
      walkNested w fuel s (i + 1)

/-- Walks every scope, the outer before the inner. -/
def walk (w : Walker σ π) : Walking σ π Unit := do
  w ScopeId.root
  walkNested w ScopeTree.capacity ScopeId.root 0

/-- Walks a tree and completes its analysis. A tree whose analysis is complete is not walked again. -/
def build (w : Walker σ π) : Walking σ π Unit := do
  unless (← Walking.tree).built do w.walk
  Walking.update ScopeTree.finish

end Walker

end Scoping
