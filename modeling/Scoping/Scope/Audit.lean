import Scoping.Scope.Lookup

/-! Checking a tree. An audit looks for the first scope, in the order of creation, that breaks the
    form of a tree: the root is the only global scope and the only scope without a scope around it,
    toplevel code stands directly below the root, a scope lists what is nested in it, a captured
    name is bound by its target, and after the analysis no name is open. Reports alone never lead to
    such a scope. An inspection is an audit that leaves open in which order the entries of a scope
    come, and looks for the target of a capture by going outward step by step. -/

namespace Scoping

/-- A breach of the form of a tree. -/
inductive Defect
  | globalNotRoot (scope : ScopeId)
  | unlistedChild (scope child : ScopeId)
  | toplevelNotUnderGlobal (scope : ScopeId)
  | badTarget (scope : ScopeId) (name : Ident) (target : ScopeId)
  | unresolved (scope : ScopeId) (name : Ident)
  deriving DecidableEq

namespace Defect

/-- A defect in words. -/
def text : Defect → String
  | globalNotRoot s => "root scope is not the only global scope (found at " ++ s.display ++ ")"
  | unlistedChild s c => "scope " ++ s.display ++ " does not list child " ++ c.display
  | toplevelNotUnderGlobal s =>
    "toplevel scope " ++ s.display ++ " is not directly below the global scope"
  | badTarget s n target =>
    "nonlocal " ++ n.display ++ " of scope " ++ s.display ++ " targets " ++ target.display
      ++ ", which does not bind it"
  | unresolved s n =>
    "name " ++ n.display ++ " of scope " ++ s.display ++ " is still unresolved after build"

end Defect

namespace ScopeTree

variable {π : Type}

/-- The defect in the place of a scope. -/
def placeDefect? (t : ScopeTree π) (s : ScopeId) : Option Defect :=
  match t.kind? s, t.parent? s with
  | some .global, none => if s = ScopeId.root then none else some (.globalNotRoot s)
  | some .global, some _ | _, none => some (.globalNotRoot s)
  | some .toplevel, some p =>
    if p ≠ ScopeId.root then some (.toplevelNotUnderGlobal s)
    else if s ∈ t.nested p then none else some (.unlistedChild p s)
  | _, some p => if s ∈ t.nested p then none else some (.unlistedChild p s)

/-- The defect in one entry of a scope. -/
def entryDefect? (t : ScopeTree π) (s : ScopeId) : Ident × Entry → Option Defect
  | (n, .captured target) =>
    if target ∈ t.enclosing s ∧ t.entryAt? target n = some .bound then none
    else some (.badTarget s n target)
  | (n, .used) => if t.built then some (.unresolved s n) else none
  | _ => none

/-- The first defect of a scope. -/
def defectAt? (t : ScopeTree π) (s : ScopeId) : Option Defect :=
  (t.placeDefect? s).or ((t.entries s).findSome? (t.entryDefect? s))

/-- The first defect of a tree. -/
def audit (t : ScopeTree π) : Option Defect := t.ids.findSome? t.defectAt?

/-! ### Inspections -/

/-- Whether some steps from a scope to the one it is nested in lead to another. -/
def climbs (t : ScopeTree π) (target : ScopeId) : Nat → ScopeId → Bool
  | 0, _ => false
  | steps + 1, s =>
    match t.parent? s with
    | none => false
    | some p => p = target || t.climbs target steps p

/-- The defect in one entry of a scope, where the target of a capture is sought from scope to scope.
    No chain of scopes is longer than their number. -/
def entryFault? (t : ScopeTree π) (s : ScopeId) : Ident × Entry → Option Defect
  | (n, .captured target) =>
    if !t.climbs target t.size s || t.entryAt? target n != some .bound then some (.badTarget s n target)
    else none
  | (n, .used) => if t.built then some (.unresolved s n) else none
  | _ => none

/-- The first defect of a scope whose entries are come upon in a given order. -/
def faultAt? (t : ScopeTree π) (listing : ScopeId → List (Ident × Entry)) (s : ScopeId) :
    Option Defect :=
  (t.placeDefect? s).or ((listing s).findSome? (t.entryFault? s))

/-- The first defect of a tree. -/
def inspect (t : ScopeTree π) (listing : ScopeId → List (Ident × Entry)) : Option Defect :=
  t.ids.findSome? (t.faultAt? listing)

end ScopeTree

end Scoping
