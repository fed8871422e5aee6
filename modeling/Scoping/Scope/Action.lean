import Scoping.Scope.Occurrence

/-! Reports as data. An action is one report about one scope, so the history of a tree is a list of
    pairs of a scope and an action. Performing an action on a scope the tree does not hold is
    refused as such, unless the action is refused wherever it is performed. -/

namespace Scoping

/-- One report about a scope. -/
inductive Action (π : Type)
  | load (n : Ident)
  | store (n : Ident)
  | assignExpr (n : Ident)
  | declareNonlocal (n : Ident)
  | declareGlobal (n : Ident)
  | nest (kind : ScopeKind) (name : Option Ident) (payload : π)
  | setInIterable (on : Bool)

/-- Why an action was not performed. -/
inductive Refusal
  | binding (e : BindingError)
  | noSuchScope (s : ScopeId)
  deriving DecidableEq

namespace ScopeTree

variable {π : Type}

/-- The tree after an action on one of its scopes. -/
def act (t : ScopeTree π) (s : ScopeId) : Action π → Except BindingError (ScopeTree π)
  | .load n => .ok (t.load s n)
  | .store n => .ok (t.store s n)
  | .assignExpr n => t.assignExpr s n
  | .declareNonlocal n => t.declareNonlocal s n
  | .declareGlobal n => t.declareGlobal s n
  | .nest kind name payload => t.nest s kind name payload
  | .setInIterable on => .ok (t.setInIterable s on)

/-- Whether an action on a scope is out of place whether or not the tree holds the scope. -/
def outOfPlace (s : ScopeId) : Action π → Bool
  | .nest kind _ _ => !fits kind s
  | _ => false

/-- The tree after an action on any scope. -/
def perform (t : ScopeTree π) (s : ScopeId) (a : Action π) : Except Refusal (ScopeTree π) :=
  if s ∈ t ∨ outOfPlace s a then (t.act s a).mapError .binding else .error (.noSuchScope s)

end ScopeTree

end Scoping
