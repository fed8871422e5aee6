import Scoping.Ident
import Scoping.Scope.Entry

/-! Trees of scopes. The scopes of a tree stand in an array in the order of their creation, and a
    scope's id is its place in it; the global scope comes first. A scope holds the ids of the scopes
    around it, innermost first, so a walk outward is a walk along a list. Questions about an id that
    a tree does not hold have a neutral answer, so every function here is total. -/

namespace Scoping

/-- One scope. The payload is whatever the caller needs to find the scope's code again. -/
structure Scope (π : Type) where
  kind : ScopeKind
  /-- The name of the function or class whose body this is. -/
  name : Option Ident
  /-- The scopes around this one, innermost first. -/
  enclosing : List ScopeId
  entries : IdentMap Entry
  /-- Whether the scope's code is, for now, in the iterable of a comprehension. -/
  inIterable : Bool
  /-- The scopes nested directly in this one, in the order of their creation. -/
  nested : List ScopeId
  payload : π

/-- The scopes of one unit of code. -/
structure ScopeTree (π : Type) where
  scopes : Array (Scope π)
  /-- Whether the analysis of the unit is complete. -/
  built : Bool

namespace ScopeTree

variable {π : Type}

/-- The tree that holds the global scope alone. -/
def new (payload : π) : ScopeTree π where
  scopes := #[{ kind := .global, name := none, enclosing := [], entries := ∅, inIterable := false,
                nested := [], payload := payload }]
  built := false

/-- How many scopes there are. -/
def size (t : ScopeTree π) : Nat := t.scopes.size

/-- The ids of a tree, in the order of creation. -/
def ids (t : ScopeTree π) : List ScopeId := List.range t.size

instance : Membership ScopeId (ScopeTree π) := ⟨fun t s => s < t.size⟩

instance (s : ScopeId) (t : ScopeTree π) : Decidable (s ∈ t) := inferInstanceAs (Decidable (s < t.size))

/-! ### Looking at a scope -/

/-- The scope of an id. -/
def scope? (t : ScopeTree π) (s : ScopeId) : Option (Scope π) := t.scopes[s]?

/-- The kind of a scope. -/
def kind? (t : ScopeTree π) (s : ScopeId) : Option ScopeKind := (t.scope? s).map Scope.kind

/-- Whether a scope may be captured from. -/
def isClosed (t : ScopeTree π) (s : ScopeId) : Bool := (t.kind? s).any ScopeKind.isClosed

/-- The scopes around a scope, innermost first. -/
def enclosing (t : ScopeTree π) (s : ScopeId) : List ScopeId := (t.scope? s).elim [] Scope.enclosing

/-- The scope a scope is nested in. -/
def parent? (t : ScopeTree π) (s : ScopeId) : Option ScopeId := (t.enclosing s).head?

/-- A scope and the scopes around it, innermost first. -/
def path (t : ScopeTree π) (s : ScopeId) : List ScopeId := s :: t.enclosing s

/-- The outermost scope around a scope. -/
def globalScope (t : ScopeTree π) (s : ScopeId) : ScopeId := (t.enclosing s).getLastD s

/-- The scopes nested directly in a scope, in the order of their creation. -/
def nested (t : ScopeTree π) (s : ScopeId) : List ScopeId := (t.scope? s).elim [] Scope.nested

/-- Whether a scope's code is in the iterable of a comprehension. -/
def inIterable (t : ScopeTree π) (s : ScopeId) : Bool := (t.scope? s).any Scope.inIterable

/-- The payload of a scope. -/
def payload? (t : ScopeTree π) (s : ScopeId) : Option π := (t.scope? s).map Scope.payload

/-- The name of a scope. -/
def name? (t : ScopeTree π) (s : ScopeId) : Option Ident := (t.scope? s).bind Scope.name

/-! ### Looking at the names of a scope -/

/-- The entry of a name in a scope. -/
def entryAt? (t : ScopeTree π) (s : ScopeId) (n : Ident) : Option Entry :=
  (t.scope? s).bind fun sc => sc.entries[n]?

/-- The status of a name in a scope. -/
def status (t : ScopeTree π) (s : ScopeId) (n : Ident) : Status := Status.ofEntry s (t.entryAt? s n)

/-- The names that occur in a scope with their entries, in the order of the names. -/
def entries (t : ScopeTree π) (s : ScopeId) : List (Ident × Entry) :=
  (t.scope? s).elim [] fun sc => sc.entries.toList

/-- The names that occur in a scope with their status. -/
def classification (t : ScopeTree π) (s : ScopeId) : List (Ident × Status) :=
  (t.entries s).map fun e => (e.1, Status.ofEntry s (some e.2))

/-- The names a scope binds. -/
def locals (t : ScopeTree π) (s : ScopeId) : List Ident :=
  (t.entries s).filterMap fun e => if e.2 = .bound then some e.1 else none

/-- The names a scope captures, with the scopes that bind them. -/
def nonlocals (t : ScopeTree π) (s : ScopeId) : List (Ident × ScopeId) :=
  (t.entries s).filterMap fun
    | (n, .captured target) => some (n, target)
    | _ => none

/-- The names a scope takes from the global scope. -/
def globals (t : ScopeTree π) (s : ScopeId) : List Ident :=
  (t.entries s).filterMap fun
    | (n, .global _) => some n
    | _ => none

/-- The names a scope uses and whose binding is open. -/
def pending (t : ScopeTree π) (s : ScopeId) : List Ident :=
  (t.entries s).filterMap fun e => if e.2 = .used then some e.1 else none

/-- Whether a scope declares a name global. -/
def declaresGlobal (t : ScopeTree π) (s : ScopeId) (n : Ident) : Bool :=
  t.entryAt? s n = some (.global true)

/-! ### Changing a scope -/

/-- Changes one scope in place. -/
def modifyScope (t : ScopeTree π) (s : ScopeId) (f : Scope π → Scope π) : ScopeTree π :=
  { t with scopes := t.scopes.modify s f }

/-- Gives a name an entry in a scope. -/
def setEntry (t : ScopeTree π) (s : ScopeId) (n : Ident) (e : Entry) : ScopeTree π :=
  t.modifyScope s fun sc => { sc with entries := sc.entries.insert n e }

/-- Says whether a scope's code is in the iterable of a comprehension. -/
def setInIterable (t : ScopeTree π) (s : ScopeId) (on : Bool) : ScopeTree π :=
  t.modifyScope s fun sc => { sc with inIterable := on }

/-- Replaces the payload of a scope. -/
def setPayload (t : ScopeTree π) (s : ScopeId) (payload : π) : ScopeTree π :=
  t.modifyScope s fun sc => { sc with payload := payload }

/-! ### What a change shows -/

theorem scope?_modifyScope (t : ScopeTree π) (s u : ScopeId) (f : Scope π → Scope π) :
    (t.modifyScope s f).scope? u = if s = u then (t.scope? u).map f else t.scope? u := by
  simp [modifyScope, scope?, Array.getElem?_modify]

@[simp] theorem size_modifyScope (t : ScopeTree π) (s : ScopeId) (f : Scope π → Scope π) :
    (t.modifyScope s f).size = t.size := by
  simp [modifyScope, size]

@[simp] theorem size_setEntry (t : ScopeTree π) (s : ScopeId) (n : Ident) (e : Entry) :
    (t.setEntry s n e).size = t.size := size_modifyScope ..

/-- A new entry is seen in its scope under its name, and nothing else looks different. -/
theorem entryAt?_setEntry (t : ScopeTree π) {s : ScopeId} (h : s ∈ t) (n : Ident) (e : Entry)
    (u : ScopeId) (m : Ident) :
    (t.setEntry s n e).entryAt? u m = if s = u ∧ n = m then some e else t.entryAt? u m := by
  unfold setEntry entryAt?
  rw [scope?_modifyScope]
  by_cases hs : s = u
  · subst hs
    have hs : t.scope? s = some t.scopes[s] := Array.getElem?_eq_getElem h
    simp [hs, Std.ExtTreeMap.getElem?_insert]
  · simp [hs]

@[simp] theorem kind?_setEntry (t : ScopeTree π) (s : ScopeId) (n : Ident) (e : Entry) (u : ScopeId) :
    (t.setEntry s n e).kind? u = t.kind? u := by
  rw [kind?, setEntry, scope?_modifyScope, kind?]
  split <;> simp [Function.comp_def]

@[simp] theorem enclosing_setEntry (t : ScopeTree π) (s : ScopeId) (n : Ident) (e : Entry)
    (u : ScopeId) : (t.setEntry s n e).enclosing u = t.enclosing u := by
  rw [enclosing, setEntry, scope?_modifyScope, enclosing]
  split <;> cases t.scope? u <;> rfl

@[simp] theorem nested_setEntry (t : ScopeTree π) (s : ScopeId) (n : Ident) (e : Entry) (u : ScopeId) :
    (t.setEntry s n e).nested u = t.nested u := by
  rw [nested, setEntry, scope?_modifyScope, nested]
  split <;> cases t.scope? u <;> rfl

@[simp] theorem inIterable_setEntry (t : ScopeTree π) (s : ScopeId) (n : Ident) (e : Entry)
    (u : ScopeId) : (t.setEntry s n e).inIterable u = t.inIterable u := by
  rw [inIterable, setEntry, scope?_modifyScope, inIterable]
  split <;> cases t.scope? u <;> rfl

end ScopeTree

end Scoping
