import Scoping.Scope.Lookup

/-! Outlines. The outline of a tree has a line for every scope, the outer before the inner, indented by
    depth: the names the scope binds, captures and takes from the global scope, and for every name that
    it does not bind itself, the scope where the name lives. Names stand in the order of their spellings.
    Scopes are named by the labels on the way to them from below the global scope. An outline can be
    written out in one go over the nested lists: every scope appends its line to the text and then has
    what is nested in it append theirs, with the entries at hand in whatever order they are kept. -/

namespace Scoping

namespace Entry

/-- Whether an entry says that the name is bound in the scope. -/
def isBound : Entry → Bool
  | bound => true
  | _ => false

/-- Whether an entry says that the name is captured. -/
def isCaptured : Entry → Bool
  | captured _ => true
  | _ => false

/-- Whether an entry says that the name is global. -/
def isGlobal : Entry → Bool
  | global _ => true
  | _ => false

end Entry

namespace ScopeTree

variable {π : Type}

/-- The name of a scope, or what stands for it. -/
def label (t : ScopeTree π) (spell : Ident → String) (s : ScopeId) : String :=
  match t.name? s with
  | some n => spell n
  | none => (t.kind? s).elim "" ScopeKind.label

/-- The labels on the way to a scope from below the global scope, joined by a separator. -/
def qualifiedName (t : ScopeTree π) (spell : Ident → String) (sep : String) (s : ScopeId) : String :=
  match ((t.path s).filter (· ≠ ScopeId.root)).reverse with
  | [] => ScopeKind.global.label
  | way => sep.intercalate (way.map (t.label spell))

/-- A scope and all that is nested in it, to a given depth, the outer before the inner. -/
def preOrderWithin (t : ScopeTree π) : Nat → ScopeId → List ScopeId
  | 0, _ => []
  | depth + 1, s => s :: (t.nested s).flatMap (t.preOrderWithin depth)

/-- A scope and all that is nested in it, the outer before the inner. No chain of scopes is longer than
    their number. -/
def preOrder (t : ScopeTree π) (s : ScopeId) : List ScopeId := t.preOrderWithin t.size s

/-- The order of two pairs of texts, by the first and then by the second. -/
def pairLE (x y : String × String) : Bool := x.1 < y.1 || (x.1 == y.1 && !decide (y.2 < x.2))

/-- Spellings in order, separated by commas. -/
def listing (spell : Ident → String) (names : List Ident) : String :=
  ", ".intercalate ((names.map spell).mergeSort fun a b => !decide (b < a))

/-- A part of a line, left out if there is nothing to list. -/
def part (mark : String) (names : String) : String :=
  if names = "" then "" else "; " ++ mark ++ "=[" ++ names ++ "]"

/-- The names a scope does not bind itself, each with the scope where it lives, in order. -/
def uses (t : ScopeTree π) (spell : Ident → String) (s : ScopeId) : List (String × String) :=
  let free := (t.entries s).filter fun e => e.2 ≠ .bound
  (free.map fun e => (spell e.1, t.qualifiedName spell "." (t.home s e.1))).mergeSort pairLE

/-- The line of a scope. -/
def outlineLine (t : ScopeTree π) (spell : Ident → String) (s : ScopeId) : String :=
  String.join (List.replicate (t.enclosing s).length "  ")
    ++ (t.kind? s).elim "" ScopeKind.word ++ "(" ++ t.label spell s ++ "): L=["
    ++ listing spell (t.locals s) ++ "]"
    ++ part "NL" (listing spell ((t.nonlocals s).map Prod.fst))
    ++ part "G" (listing spell (t.globals s))
    ++ "; U=\x7b" ++ ", ".intercalate ((t.uses spell s).map fun u => u.1 ++ ": " ++ u.2) ++ "\x7d\n"

/-- The outline of a tree. -/
def outline (t : ScopeTree π) (spell : Ident → String) : String :=
  String.join ((t.preOrder ScopeId.root).map (t.outlineLine spell))

/-! ### Written out -/

/-- Collects the labels on the way from parent to parent until the global scope, within a
    number of steps. -/
def gatherLabels (t : ScopeTree π) (spell : Ident → String) :
    Nat → Option ScopeId → List String → List String
  | steps + 1, some s, parts =>
    if s = ScopeId.root then parts
    else t.gatherLabels spell steps (t.parent? s) (parts ++ [t.label spell s])
  | _, _, parts => parts

/-- The labels that are met on the way from a scope outward, in reverse and joined by a separator. -/
def pathName (t : ScopeTree π) (spell : Ident → String) (sep : String) (s : ScopeId) : String :=
  match t.gatherLabels spell t.size (some s) [] with
  | [] => ScopeKind.global.label
  | parts => sep.intercalate parts.reverse

/-- Appends the line of a scope with the given entries at the given depth. -/
def writeLine (t : ScopeTree π) (spell : Ident → String) (entries : List (Ident × Entry)) (depth : Nat)
    (s : ScopeId) (out : String) : String :=
  let sorted (p : Entry → Bool) := listing spell ((entries.filter fun e => p e.2).map Prod.fst)
  let out := out ++ String.join (List.replicate depth "  ") ++ (t.kind? s).elim "" ScopeKind.word
    ++ "(" ++ t.label spell s ++ "): L=[" ++ sorted Entry.isBound ++ "]"
  let nonlocals := sorted Entry.isCaptured
  let out := if nonlocals = "" then out else out ++ "; NL=[" ++ nonlocals ++ "]"
  let globals := sorted Entry.isGlobal
  let out := if globals = "" then out else out ++ "; G=[" ++ globals ++ "]"
  let free := entries.filter fun e => !e.2.isBound
  let uses := (free.map fun e => (spell e.1, t.pathName spell "." (t.home s e.1))).mergeSort pairLE
  out ++ "; U=\x7b" ++ ", ".intercalate (uses.map fun u => u.1 ++ ": " ++ u.2) ++ "\x7d\n"

/-- Appends the lines of a scope and of all that is nested in it, to a given number of levels. -/
def writeFrom (t : ScopeTree π) (spell : Ident → String) (entries : ScopeId → List (Ident × Entry)) :
    Nat → ScopeId → Nat → String → String
  | 0, _, _, out => out
  | levels + 1, s, depth, out =>
    (t.nested s).foldl (fun out c => t.writeFrom spell entries levels c (depth + 1) out)
      (t.writeLine spell (entries s) depth s out)

/-- The outline of a tree, written out from the entries of its scopes. -/
def write (t : ScopeTree π) (spell : Ident → String)
    (entries : ScopeId → List (Ident × Entry)) : String :=
  t.writeFrom spell entries t.size ScopeId.root 0 ""

end ScopeTree

end Scoping
