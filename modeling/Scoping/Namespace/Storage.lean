import Scoping.Namespace.Builtins

/-! Builtins in storage. A mapping stands in a block of storage, and code holds handles on blocks. A
    copy of a handle is one more handle on the same block, and the block counts the handles on it.
    Before a mapping is changed through a handle, the block is made the handle's own: if other
    handles are on it as well, the handle moves to a new block with a copy of the mapping, and if
    there are none, the block is changed in place. -/

namespace Scoping

/-- A handle, by its position in the order in which handles come up. -/
abbrev Handle := Nat

/-- A change to a mapping. -/
inductive Edit (ν : Type)
  | insert (n : Ident) (v : ν)
  | remove (n : Ident)

namespace Edit

variable {ν : Type}

/-- The name that is given a value or loses it. -/
def name : Edit ν → Ident
  | insert n _ | remove n => n

/-- The mapping after a change. -/
def apply (m : IdentMap ν) : Edit ν → IdentMap ν
  | insert n v => m.insert n v
  | remove n => m.erase n

/-- Whether there is something to change: there is nothing to remove for a name without a value. -/
def applies (m : IdentMap ν) : Edit ν → Bool
  | insert _ _ => true
  | remove n => m.contains n

end Edit

/-- A mapping in storage, with the number of handles on it. -/
structure Block (ν : Type) where
  values : IdentMap ν
  holders : Nat

/-- Blocks of storage, and for each handle the place of its block. A handle that was given
    up has no place. -/
structure Storage (ν : Type) where
  blocks : Array (Block ν)
  places : Array (Option Nat)

/-- One use of storage. -/
inductive StorageCall (ν : Type)
  | create (entries : List (Ident × ν))
  | clone (k : Handle)
  | edit (k : Handle) (e : Edit ν)
  | release (k : Handle)

namespace Storage

variable {ν : Type}

/-- Storage without blocks and handles. -/
def empty : Storage ν := ⟨#[], #[]⟩

/-- How many handles have come up. -/
def size (x : Storage ν) : Nat := x.places.size

/-! ### Looking through a handle -/

/-- The place of a handle's block. -/
def place? (x : Storage ν) (k : Handle) : Option Nat := (x.places[k]?).join

/-- The mapping that a handle stands for. -/
def values? (x : Storage ν) (k : Handle) : Option (IdentMap ν) :=
  (x.place? k).bind fun p => (x.blocks[p]?).map Block.values

/-- The value of a name. -/
def get? (x : Storage ν) (k : Handle) (n : Ident) : Option ν := (x.values? k).bind fun m => m[n]?

/-- Whether a name has a value. -/
def contains (x : Storage ν) (k : Handle) (n : Ident) : Bool := (x.values? k).any (·.contains n)

/-- How many names have a value. -/
def count (x : Storage ν) (k : Handle) : Nat := (x.values? k).elim 0 (·.size)

/-- Whether two handles are on one block. -/
def shares (x : Storage ν) (k l : Handle) : Bool :=
  match x.place? k, x.place? l with
  | some p, some q => p = q
  | _, _ => false

/-! ### Handles -/

/-- Changes how many handles a block counts. -/
def recount (x : Storage ν) (p : Nat) (f : Nat → Nat) : Array (Block ν) :=
  x.blocks.modify p fun b => { b with holders := f b.holders }

/-- A handle on a new mapping; the last of several values of a name counts. -/
def create (x : Storage ν) (entries : List (Ident × ν)) : Storage ν where
  blocks := x.blocks.push ⟨entries.foldl (fun m e => m.insert e.1 e.2) ∅, 1⟩
  places := x.places.push (some x.blocks.size)

/-- One more handle on a handle's block. -/
def clone (x : Storage ν) (k : Handle) : Storage ν :=
  match x.place? k with
  | some p => ⟨x.recount p (· + 1), x.places.push (some p)⟩
  | none => x

/-- Gives a handle up. -/
def release (x : Storage ν) (k : Handle) : Storage ν :=
  match x.place? k with
  | some p => ⟨x.recount p (· - 1), x.places.setIfInBounds k none⟩
  | none => x

/-! ### Changes -/

/-- Moves a handle from its block to a new one with a mapping. -/
def moveOut (x : Storage ν) (k : Handle) (p : Nat) (m : IdentMap ν) : Storage ν where
  blocks := (x.recount p (· - 1)).push ⟨m, 1⟩
  places := x.places.setIfInBounds k (some x.blocks.size)

/-- Makes a block a handle's own. -/
def own (x : Storage ν) (k : Handle) : Storage ν :=
  match x.place? k with
  | none => x
  | some p =>
    match x.blocks[p]? with
    | none => x
    | some b => if b.holders = 1 then x else x.moveOut k p b.values

/-- Changes the mapping in a handle's block, whoever else is on it. -/
def write (x : Storage ν) (k : Handle) (e : Edit ν) : Storage ν :=
  match x.place? k with
  | some p => { x with blocks := x.blocks.modify p fun b => { b with values := e.apply b.values } }
  | none => x

/-- Changes the mapping of a handle, and tells the value that the name had. -/
def edit (x : Storage ν) (k : Handle) (e : Edit ν) : Option ν × Storage ν :=
  if (x.values? k).any e.applies then ((x.own k).get? k e.name, (x.own k).write k e) else (none, x)

/-! ### Calls -/

/-- Carries out a call, and tells the value that it replaces or removes. -/
def perform (x : Storage ν) : StorageCall ν → Option ν × Storage ν
  | .create entries => (none, x.create entries)
  | .clone k => (none, x.clone k)
  | .edit k e => x.edit k e
  | .release k => (none, x.release k)

/-- The storage after some calls. -/
def performAll (x : Storage ν) : List (StorageCall ν) → Storage ν
  | [] => x
  | c :: calls => performAll (x.perform c).2 calls

end Storage

end Scoping
