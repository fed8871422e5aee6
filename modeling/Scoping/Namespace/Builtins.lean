import Scoping.Ident

/-! Builtins: the values that names have when no namespace gives them one. Several units of code may
    start from the same builtins, so a copy shares the storage of its source until one of the two is
    changed. A mapping therefore carries the number of its revision: copies have the revision of
    their source, every change takes a number that no mapping had before, and two mappings share
    storage exactly when they have the same revision. -/

namespace Scoping

/-- A mapping from names to values, and its revision. -/
structure Builtins (ν : Type) where
  values : IdentMap ν
  revision : Nat

namespace Builtins

variable {ν : Type}

/-- The value of a name. -/
def get? (b : Builtins ν) (n : Ident) : Option ν := b.values[n]?

/-- Whether a name has a value. -/
def contains (b : Builtins ν) (n : Ident) : Bool := b.values.contains n

/-- How many names have a value. -/
def size (b : Builtins ν) : Nat := b.values.size

/-- Whether no name has a value. -/
def isEmpty (b : Builtins ν) : Bool := b.values.isEmpty

/-- The names with their values, in the order of the names. -/
def toList (b : Builtins ν) : List (Ident × ν) := b.values.toList

/-- Whether two mappings share their storage. -/
def sharesWith (b c : Builtins ν) : Bool := b.revision = c.revision

/-- A new mapping; the last of several values of a name counts. The number is that of the
    next revision. -/
def ofList (entries : List (Ident × ν)) (next : Nat) : Builtins ν × Nat :=
  (⟨entries.foldl (fun m e => m.insert e.1 e.2) ∅, next⟩, next + 1)

/-- Gives a name a value, which is a change even if the name had that value, and tells the one it had. -/
def insert (b : Builtins ν) (n : Ident) (v : ν) (next : Nat) : Option ν × Builtins ν × Nat :=
  (b.get? n, ⟨b.values.insert n v, next⟩, next + 1)

/-- Takes the value of a name away and tells what it was. It is no change if the name has none. -/
def remove (b : Builtins ν) (n : Ident) (next : Nat) : Option ν × Builtins ν × Nat :=
  if b.contains n then (b.get? n, ⟨b.values.erase n, next⟩, next + 1) else (none, b, next)

end Builtins

/-- A row of mappings that are copied and changed independently, and the number of the next revision. -/
structure Shelf (ν : Type) where
  slots : Array (Builtins ν)
  next : Nat

namespace Shelf

variable {ν : Type}

/-- The shelf without mappings. -/
def empty : Shelf ν := ⟨#[], 0⟩

/-- The mapping in a slot. -/
def slot? (s : Shelf ν) (k : Nat) : Option (Builtins ν) := s.slots[k]?

/-- Puts a copy of a mapping into a new slot. -/
def add (s : Shelf ν) (b : Builtins ν) : Shelf ν := { s with slots := s.slots.push b }

/-- Puts a new mapping into a new slot. -/
def addNew (s : Shelf ν) (entries : List (Ident × ν)) : Shelf ν :=
  let r := Builtins.ofList entries s.next
  { s with next := r.2 }.add r.1

/-- Puts a copy of a slot's mapping into a new slot. -/
def copy (s : Shelf ν) (k : Nat) : Shelf ν := (s.slot? k).elim s s.add

/-- Changes the mapping in a slot, and tells what the change tells. -/
def change (s : Shelf ν) (k : Nat) (f : Builtins ν → Nat → Option ν × Builtins ν × Nat) :
    Option ν × Shelf ν :=
  match s.slot? k with
  | some b =>
    let r := f b s.next
    (r.1, { slots := s.slots.modify k fun _ => r.2.1, next := r.2.2 })
  | none => (none, s)

/-- Gives a name a value in a slot. -/
def insert (s : Shelf ν) (k : Nat) (n : Ident) (v : ν) : Option ν × Shelf ν :=
  s.change k fun b => b.insert n v

/-- Takes the value of a name away in a slot. -/
def remove (s : Shelf ν) (k : Nat) (n : Ident) : Option ν × Shelf ν := s.change k fun b => b.remove n

end Shelf

end Scoping
