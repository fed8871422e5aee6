import Scoping.Ident

/-! A table of spellings. The table is a list of distinct strings in the order of their first sight,
    headed by the empty string, and an identifier is a position in it. Adding a string that is listed
    already changes nothing, so a spelling keeps its position for ever, and a position past the end
    spells the empty string. -/

namespace Scoping

/-- A table of spellings, given by what it lists after the empty string. -/
structure Spellings where
  later : List String
  deriving DecidableEq, Inhabited

namespace Spellings

/-- The table that lists the empty string only. -/
def empty : Spellings := ⟨[]⟩

/-- Every listed spelling, by position. -/
def toList (t : Spellings) : List String := "" :: t.later

/-- How many spellings are listed, the empty one included. -/
def size (t : Spellings) : Nat := t.toList.length

/-- Whether nothing but the empty string is listed. -/
def isEmpty (t : Spellings) : Bool := t.later.isEmpty

/-- The identifier of a listed spelling. -/
def get? (t : Spellings) (s : String) : Option Ident := (t.toList.idxOf? s).map Ident.mk

/-- The identifier of a spelling, which is listed at the end if it is new. -/
def intern (t : Spellings) (s : String) : Ident × Spellings :=
  match t.get? s with
  | some n => (n, t)
  | none => (⟨t.size⟩, ⟨t.later ++ [s]⟩)

/-- The spelling of an identifier; one from outside the table spells the empty string. -/
def spell (t : Spellings) (n : Ident) : String := t.toList.getD n.index ""

/-- The table that has seen the strings of a list, in order. -/
def ofList (ss : List String) : Spellings := ss.foldl (fun t s => (t.intern s).2) empty

end Spellings

end Scoping
