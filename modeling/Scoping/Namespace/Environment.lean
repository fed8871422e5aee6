import Scoping.Scope.Lookup
import Scoping.Namespace.Cell
import Scoping.Namespace.Builtins
import Scoping.Namespace.Error

/-! Environments. While a unit of code runs, every activation of a scope has a namespace, with a
    cell for each name the scope binds. A name is looked up in two steps. The tree of scopes says in
    which scope the name lives, and the namespace of that scope is found among those around the one
    at hand. If that cell has no value, a class or toplevel namespace falls back on the global
    namespace, and the global namespace on the builtins. -/

namespace Scoping

/-- The position of a namespace in its environment. -/
abbrev NamespaceId := Nat

namespace NamespaceId

/-- The global namespace. -/
def root : NamespaceId := 0

end NamespaceId

/-- One activation of a scope. -/
structure Namespace (ν : Type) where
  scope : ScopeId
  /-- The namespaces around this one, innermost first. -/
  enclosing : List NamespaceId
  cells : IdentMap (Cell ν)

/-- The namespaces of a unit of code at a time, in the order of their creation. -/
structure Environment (ν π : Type) where
  tree : ScopeTree π
  namespaces : Array (Namespace ν)
  builtins : Builtins ν

namespace Environment

variable {ν π : Type}

/-! ### Looking at a namespace -/

/-- The namespace of an id. -/
def namespace? (env : Environment ν π) (h : NamespaceId) : Option (Namespace ν) := env.namespaces[h]?

/-- How many namespaces there are. -/
def size (env : Environment ν π) : Nat := env.namespaces.size

instance : Membership NamespaceId (Environment ν π) := ⟨fun env h => h < env.size⟩

instance (h : NamespaceId) (env : Environment ν π) : Decidable (h ∈ env) :=
  inferInstanceAs (Decidable (h < env.size))

/-- The scope of a namespace. -/
def scope (env : Environment ν π) (h : NamespaceId) : ScopeId :=
  (env.namespace? h).elim ScopeId.root Namespace.scope

/-- The kind of a namespace's scope. -/
def kind? (env : Environment ν π) (h : NamespaceId) : Option ScopeKind :=
  (env.namespace? h).bind fun ns => env.tree.kind? ns.scope

/-- A namespace and those around it, innermost first. -/
def path (env : Environment ν π) (h : NamespaceId) : List NamespaceId :=
  h :: (env.namespace? h).elim [] Namespace.enclosing

/-- The namespace around a namespace. -/
def parent? (env : Environment ν π) (h : NamespaceId) : Option NamespaceId := (env.path h).tail.head?

/-- The outermost namespace around a namespace. -/
def globalOf (env : Environment ν π) (h : NamespaceId) : NamespaceId := (env.path h).getLastD h

/-- The cell of a name in a namespace. -/
def cell? (env : Environment ν π) (h : NamespaceId) (n : Ident) : Option (Cell ν) :=
  (env.namespace? h).bind fun ns => ns.cells[n]?

/-- The names that have a cell in a namespace, in order. -/
def localNames (env : Environment ν π) (h : NamespaceId) : List Ident :=
  (env.namespace? h).elim [] fun ns => ns.cells.keys

/-- A namespace in a line of text. -/
def describe (env : Environment ν π) (h : NamespaceId) : String :=
  "NamespaceRef \x7b scope: " ++ (env.scope h).display
    ++ ", kind: " ++ (env.kind? h).elim "" ScopeKind.title
    ++ ", bindings: " ++ toString (env.localNames h).length ++ ", .. \x7d"

/-- An environment in a line of text. -/
def summary (env : Environment ν π) : String :=
  "NamespaceTree \x7b root: " ++ env.describe NamespaceId.root ++ " \x7d"

/-! ### Creating namespaces -/

/-- The namespace of a scope, with an empty cell for each name the scope binds. -/
def activate (t : ScopeTree π) (s : ScopeId) (enclosing : List NamespaceId) : Namespace ν where
  scope := s
  enclosing := enclosing
  cells := (t.locals s).foldl (fun m n => m.insert n Cell.unbound) ∅

/-- The environment that holds the global namespace alone. The scopes must be analysed. -/
def start (t : ScopeTree π) (builtins : Builtins ν) : Except AccessError (Environment ν π) :=
  if t.built then .ok ⟨t, #[activate t ScopeId.root []], builtins⟩ else .error .unbuiltTree

/-- Creates a namespace for a scope below a namespace, if the scope is nested directly in that of the
    namespace. The id of the new namespace is the size the environment had. -/
def nest (env : Environment ν π) (h : NamespaceId) (s : ScopeId) :
    Except AccessError (Environment ν π) :=
  if h ∈ env ∧ env.tree.parent? s = some (env.scope h) then
    .ok { env with namespaces := env.namespaces.push (activate env.tree s (env.path h)) }
  else .error (.scopeMismatch (env.scope h) s)

/-! ### Reading -/

/-- The namespace in which the value of a name lives, as seen from a namespace. -/
def home (env : Environment ν π) (h : NamespaceId) (n : Ident) : NamespaceId :=
  ((env.path h).find? fun g => env.scope g = env.tree.home (env.scope h) n).getD NamespaceId.root

/-- The value in the cell of a name. -/
def held? (env : Environment ν π) (h : NamespaceId) (n : Ident) : Option ν :=
  (env.cell? h n).bind Cell.value

/-- The value of a name in the global namespace or else in the builtins. -/
def globalValue? (env : Environment ν π) (n : Ident) : Option ν :=
  (env.held? NamespaceId.root n).or (env.builtins.get? n)

/-- The value of a name in the namespace it lives in, or else where that falls back. -/
def value? (env : Environment ν π) (h : NamespaceId) (n : Ident) : Option ν :=
  match env.kind? h with
  | some .global => env.globalValue? n
  | some .classBody | some .toplevel => (env.held? h n).or (env.globalValue? n)
  | some .function | some .lambda | some .comprehension | none => env.held? h n

/-- Why a name has no value: it lives in the namespace at hand, whose cell for it is empty, or else
    it is not defined anywhere. -/
def absence (env : Environment ν π) (h : NamespaceId) (n : Ident) : AccessError :=
  if env.home h n = h ∧ (env.cell? h n).isSome then .unboundLocal n else .undefinedName n

/-- The value of a name. -/
def get (env : Environment ν π) (h : NamespaceId) (n : Ident) : Except AccessError ν :=
  match env.value? (env.home h n) n with
  | some v => .ok v
  | none => .error (env.absence h n)

/-- Whether a name has a value. -/
def has (env : Environment ν π) (h : NamespaceId) (n : Ident) : Bool :=
  (env.value? (env.home h n) n).isSome

/-! ### Writing -/

/-- Gives a name a cell in a namespace. -/
def setCell (env : Environment ν π) (h : NamespaceId) (n : Ident) (c : Cell ν) : Environment ν π :=
  { env with
    namespaces := env.namespaces.modify h fun ns => { ns with cells := ns.cells.insert n c } }

/-- A new cell is seen in its namespace under its name, and nothing else looks different. -/
theorem cell?_setCell (env : Environment ν π) {h : NamespaceId} (mem : h ∈ env) (n : Ident) (c : Cell ν)
    (g : NamespaceId) (m : Ident) :
    (env.setCell h n c).cell? g m = if h = g ∧ n = m then some c else env.cell? g m := by
  unfold setCell cell? namespace?
  rw [Array.getElem?_modify]
  by_cases hg : h = g
  · subst hg
    have found : env.namespaces[h]? = some env.namespaces[h] := Array.getElem?_eq_getElem mem
    simp [found, Std.ExtTreeMap.getElem?_insert]
  · simp [hg]

/-- Gives a name a value where it lives. -/
def set (env : Environment ν π) (h : NamespaceId) (n : Ident) (v : ν) : Environment ν π :=
  let g := env.home h n
  env.setCell g n (((env.cell? g n).getD Cell.unbound).bind v).2

/-- The namespace from which an assignment expression binds: the first that is no comprehension. -/
def expressionTarget (env : Environment ν π) (h : NamespaceId) : NamespaceId :=
  ((env.path h).find? fun g => env.kind? g ≠ some .comprehension).getD NamespaceId.root

/-- Gives a name a value by an assignment expression. -/
def assignExpr (env : Environment ν π) (h : NamespaceId) (n : Ident) (v : ν) : Environment ν π :=
  env.set (env.expressionTarget h) n v

/-- Takes the value of a name away where it lives. Only that cell counts: a value that the name has from
    elsewhere is never deleted. -/
def delete (env : Environment ν π) (h : NamespaceId) (n : Ident) :
    Except AccessError (Environment ν π) :=
  let g := env.home h n
  match env.cell? g n with
  | some c => if c.isBound then .ok (env.setCell g n c.unbind.2) else .error (env.absence h n)
  | none => .error (env.absence h n)

/-! ### Builtins -/

/-- Edits a copy of the builtins, which replaces them at the end. What the editing does to the
    environment meanwhile stays, except that builtins installed on the way are replaced. -/
def withBuiltins {α : Type} (env : Environment ν π)
    (f : Builtins ν → Environment ν π → α × Builtins ν × Environment ν π) : α × Environment ν π :=
  let r := f env.builtins env
  (r.1, { r.2.2 with builtins := r.2.1 })

end Environment

end Scoping
