import Scoping.Ident

/-! Interners. An interner keeps its table twice, as the identifiers by spelling for the strings that
    come in, and as the spellings by position for the identifiers that go out. A string is looked up
    under a lock that others may hold at the same time, and entered under one that nobody else holds;
    somebody may have entered it between the two, so it is looked up again before it is entered. Several
    handles may stand for one interner, and what is interned through one of them is seen through all. -/

namespace Scoping

/-- The two tables of an interner. -/
structure Interner where
  names : Std.ExtTreeMap String Ident
  spellings : Array String

namespace Interner

/-- The interner that lists the empty string only. -/
def new : Interner := ⟨(∅ : Std.ExtTreeMap String Ident).insert "" Ident.empty, #[""]⟩

/-- How many identifiers there are. -/
def capacity : Nat := 4294967296

/-- How many spellings are listed, the empty one included. -/
def size (i : Interner) : Nat := i.spellings.size

/-- The identifier of a listed spelling. -/
def get? (i : Interner) (s : String) : Option Ident := i.names[s]?

/-- The spelling of an identifier; one from outside the table spells the empty string. -/
def spell (i : Interner) (n : Ident) : String := (i.spellings[n.index]?).getD ""

/-- The second half of interning: the identifier of a spelling, which is entered in both tables
    unless it is listed by now. A new spelling is refused if no identifier is left. -/
def enter (i : Interner) (s : String) : Option (Ident × Interner) :=
  match i.get? s with
  | some n => some (n, i)
  | none =>
    if i.size < capacity then
      let n : Ident := ⟨i.size⟩
      some (n, ⟨i.names.insert s n, i.spellings.push s⟩)
    else none

/-- The identifier of a spelling, which is listed at the end if it is new. -/
def intern (i : Interner) (s : String) : Option (Ident × Interner) :=
  match i.get? s with
  | some n => some (n, i)
  | none => i.enter s

end Interner

/-- Interners and the handles on them, each given by the place of the interner it stands for. -/
structure Interners where
  tables : Array Interner
  links : Array Nat

/-- One use of an interner through a handle. -/
inductive InternerCall
  | new
  | clone (k : Nat)
  | get (k : Nat) (s : String)
  /-- The second half of interning alone, after others have had the interner. -/
  | enter (k : Nat) (s : String)
  | intern (k : Nat) (s : String)
  | spell (k : Nat) (n : Ident)

/-- The answer to a call. -/
inductive InternerAnswer
  | handle (k : Nat)
  | name (n : Ident)
  | found (n : Option Ident)
  | spelling (s : String)
  /-- No identifier is left for a new spelling. -/
  | full
  /-- There is no such handle. -/
  | nobody
  deriving DecidableEq

namespace Interners

/-- One interner with one handle. -/
def start : Interners := ⟨#[.new], #[0]⟩

/-- The interner that a handle stands for. -/
def table? (x : Interners) (k : Nat) : Option Interner :=
  (x.links[k]?).bind fun place => x.tables[place]?

/-- Interns through a handle. A refused spelling changes nothing. -/
def change (x : Interners) (k : Nat) (f : Interner → Option (Ident × Interner)) :
    InternerAnswer × Interners :=
  match x.links[k]?, (x.table? k).map f with
  | some place, some (some (n, after)) =>
    (.name n, { x with tables := x.tables.setIfInBounds place after })
  | some _, some none => (.full, x)
  | _, _ => (.nobody, x)

/-- Answers a call. -/
def perform (x : Interners) : InternerCall → InternerAnswer × Interners
  | .new => (.handle x.links.size, ⟨x.tables.push .new, x.links.push x.tables.size⟩)
  | .clone k =>
    match x.links[k]? with
    | some place => (.handle x.links.size, { x with links := x.links.push place })
    | none => (.nobody, x)
  | .get k s => ((x.table? k).elim .nobody fun i => .found (i.get? s), x)
  | .enter k s => x.change k (·.enter s)
  | .intern k s => x.change k (·.intern s)
  | .spell k n => ((x.table? k).elim .nobody fun i => .spelling (i.spell n), x)

/-- The interners after some calls. -/
def performAll (x : Interners) : List InternerCall → Interners
  | [] => x
  | c :: calls => performAll (x.perform c).2 calls

end Interners

end Scoping
