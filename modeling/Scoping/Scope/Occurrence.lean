import Scoping.Scope.Lookup
import Scoping.Scope.Error

/-! Recording the occurrences of names. A reader of code reports what it meets: reads, bindings,
    assignment expressions, declarations and nested scopes. Each report changes the entry of one
    name in the scope at hand, and at most one entry in a scope around it. A report that breaks a
    rule is refused with the reason, and the tree is kept as it was. -/

namespace Scoping

namespace ScopeTree

variable {π : Type}

/-- Reads a name. -/
def load (t : ScopeTree π) (s : ScopeId) (n : Ident) : ScopeTree π :=
  match t.entryAt? s n with
  | none => t.setEntry s n .used
  | some _ => t

/-- Binds a name. A name that the scope takes from the global scope is bound there. -/
def store (t : ScopeTree π) (s : ScopeId) (n : Ident) : ScopeTree π :=
  match t.entryAt? s n with
  | none | some .used => t.setEntry s n .bound
  | some (.global _) => t.setEntry ScopeId.root n .bound
  | some .bound | some (.captured _) => t

/-! ### Assignment expressions -/

/-- The scope in which an assignment expression binds a name: the first one that is no comprehension,
    going outward from the scope it stands in. On the way no scope may be in an iterable and no
    comprehension may have the name for its iteration variable, and the way may not end in a class. -/
def expressionTarget (t : ScopeTree π) (n : Ident) (s : ScopeId) :
    List ScopeId → Except BindingFault ScopeId
  | [] => if t.inIterable s then .error .assignmentInIterable else .ok s
  | outer :: rest =>
    if t.inIterable s then .error .assignmentInIterable
    else if t.kind? s = some .comprehension then
      if t.entryAt? s n = some .bound then .error .assignmentToIterationVariable
      else t.expressionTarget n outer rest
    else if t.kind? s = some .classBody then .error .assignmentInClassBody
    else .ok s

/-- Notes in a comprehension that a name is bound in the toplevel scope around it. Capture passes over
    toplevel scopes, so the target is noted at once; an entry that is settled already stays. -/
def noteToplevel (t : ScopeTree π) (s target : ScopeId) (n : Ident) : ScopeTree π :=
  match t.entryAt? s n with
  | none | some .used => t.setEntry s n (.captured target)
  | some _ => t

/-- Binds a name by an assignment expression. Inside comprehensions the name is bound where the
    outermost of them stands, and it is a free name of the comprehension that holds the expression. -/
def assignExpr (t : ScopeTree π) (s : ScopeId) (n : Ident) : Except BindingError (ScopeTree π) :=
  match t.expressionTarget n s (t.enclosing s) with
  | .error fault => .error ⟨fault, n, s⟩
  | .ok target =>
    if target = s then .ok (t.store s n)
    else
      let bound := t.store target n
      if bound.kind? target = some .toplevel ∧ bound.home target n = target then
        .ok (bound.noteToplevel s target n)
      else .ok (bound.load s n)

/-! ### Declarations -/

/-- Declares a name nonlocal. The declaration comes before every other occurrence of the name in the
    scope, and its target is the scope the name would be captured from. -/
def declareNonlocal (t : ScopeTree π) (s : ScopeId) (n : Ident) : Except BindingError (ScopeTree π) :=
  if (t.kind? s).any ScopeKind.captures then
    match t.entryAt? s n with
    | some .used => .error ⟨.usedBeforeNonlocal, n, s⟩
    | some .bound => .error ⟨.assignedBeforeNonlocal, n, s⟩
    | some (.global _) => .error ⟨.nonlocalAndGlobal, n, s⟩
    | some (.captured _) => .ok t
    | none =>
      match t.capture? s n with
      | some target => .ok (t.setEntry s n (.captured target))
      | none => .error ⟨.nonlocalNotFound, n, s⟩
  else .error ⟨.nonlocalAtModuleLevel, n, s⟩

/-- Declares a name global. The declaration comes before every other occurrence of the name in the scope
    and binds the name in the global scope, where it is a mere binding. -/
def declareGlobal (t : ScopeTree π) (s : ScopeId) (n : Ident) : Except BindingError (ScopeTree π) :=
  if s = ScopeId.root then .ok (t.store s n)
  else
    match t.entryAt? s n with
    | some .used => .error ⟨.usedBeforeGlobal, n, s⟩
    | some .bound => .error ⟨.assignedBeforeGlobal, n, s⟩
    | some (.captured _) => .error ⟨.nonlocalAndGlobal, n, s⟩
    | some (.global _) | none => .ok ((t.setEntry s n (.global true)).store ScopeId.root n)

/-! ### Nested scopes -/

/-- How many scopes a tree can hold: one for each id of 32 bits. -/
def capacity : Nat := 4294967296

/-- Whether a scope of a kind may stand below a scope: the global scope stands below none, and toplevel
    code directly below the global scope. -/
def fits (kind : ScopeKind) (parent : ScopeId) : Bool :=
  match kind with
  | .global => false
  | .toplevel => parent = ScopeId.root
  | .classBody | .function | .lambda | .comprehension => true

/-- Binds the name of a function or class in the scope it stands in. -/
def bindOwnName (t : ScopeTree π) (parent : ScopeId) (kind : ScopeKind)
    (name : Option Ident) : ScopeTree π :=
  match name with
  | some n => if kind.bindsName then t.store parent n else t
  | none => t

/-- Appends a scope below a scope. It is in an iterable if the scope around it is. -/
def push (t : ScopeTree π) (parent : ScopeId) (kind : ScopeKind) (name : Option Ident) (payload : π) :
    ScopeTree π :=
  let child : Scope π :=
    { kind := kind, name := name, enclosing := t.path parent, entries := ∅,
      inIterable := t.inIterable parent, nested := [], payload := payload }
  { t with scopes := t.scopes.push child }.modifyScope parent
    fun sc => { sc with nested := sc.nested ++ [t.size] }

/-- Opens a scope below a scope of the tree. The id of the new scope is the size the tree had. -/
def nest (t : ScopeTree π) (parent : ScopeId) (kind : ScopeKind) (name : Option Ident) (payload : π) :
    Except BindingError (ScopeTree π) :=
  if ¬(fits kind parent ∧ parent ∈ t) then .error ⟨.misplacedScope kind, name.getD Ident.empty, parent⟩
  else if capacity ≤ t.size then .error ⟨.noIdsLeft, name.getD Ident.empty, parent⟩
  else .ok ((t.bindOwnName parent kind name).push parent kind name payload)

/-! ### Iterables -/

/-- Runs a piece of analysis that belongs to an iterable of a scope. Whatever it does, the scope is
    afterwards in an iterable exactly if it was before. -/
def withIterable {α : Type} (t : ScopeTree π) (s : ScopeId) (f : ScopeTree π → α × ScopeTree π) :
    α × ScopeTree π :=
  let r := f (t.setInIterable s true)
  (r.1, r.2.setInIterable s (t.inIterable s))

end ScopeTree

end Scoping
