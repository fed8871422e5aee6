import Scoping.Namespace.Runner

/-! Access by slots. A read and a deletion each look at what a namespace has for a name, which is a
    value, a cell without one, or no cell. The read goes on where the namespace falls back, and
    keeps what it found first if it finds no value there either; the deletion looks at the home of
    the name alone and changes the cell that it finds. Here the two are programs that decide for
    themselves how they end. -/

namespace Scoping

/-- What a namespace has for a name. -/
inductive Slot (ν : Type)
  | bound (v : ν)
  /-- There is a cell, without a value. -/
  | unbound
  /-- There is no cell. -/
  | missing
  deriving DecidableEq

namespace Slot

variable {ν : Type}

/-- What a cell amounts to. -/
def ofCell : Option (Cell ν) → Slot ν
  | some c => c.value.elim unbound bound
  | none => missing

/-- The value in a slot. -/
def value? : Slot ν → Option ν
  | bound v => some v
  | unbound | missing => none

/-- A value from elsewhere counts for a slot without one. -/
def orElse : Slot ν → Option ν → Slot ν
  | bound v, _ => bound v
  | unbound, some v | missing, some v => bound v
  | unbound, none => unbound
  | missing, none => missing

end Slot

namespace Environment

variable {ν π : Type}

/-- What a namespace itself has for a name. -/
def ownSlot (env : Environment ν π) (h : NamespaceId) (n : Ident) : Slot ν := .ofCell (env.cell? h n)

/-- What the global namespace has for a name, with the builtins behind it. -/
def globalSlot (env : Environment ν π) (h : NamespaceId) (n : Ident) : Slot ν :=
  (env.ownSlot h n).orElse (env.builtins.get? n)

/-- What a namespace has for a name that lives there, with all that it falls back on. -/
def slot (env : Environment ν π) (h : NamespaceId) (n : Ident) : Slot ν :=
  match env.kind? h with
  | some .global => env.globalSlot h n
  | some .classBody | some .toplevel =>
    (env.ownSlot h n).orElse (env.globalSlot (env.globalOf h) n).value?
  | some .function | some .lambda | some .comprehension | none => env.ownSlot h n

end Environment

namespace Running

variable {σ ν π : Type}

/-- Reads the value of a name by the slot in its home. -/
def read (h : NamespaceId) (n : Ident) : Running σ ν π ν := do
  let env ← Running.env
  let g := env.home h n
  match env.slot g n with
  | .bound v => pure v
  | .unbound => if g = h then throw (.unboundLocal n) else throw (.undefinedName n)
  | .missing => throw (.undefinedName n)

/-- Takes the value of a name out of the cell in its home. -/
def remove (h : NamespaceId) (n : Ident) : Running σ ν π Unit := do
  let env ← Running.env
  let g := env.home h n
  match env.cell? g n with
  | some c =>
    if c.isBound then update (·.setCell g n c.unbind.2)
    else if g = h then throw (.unboundLocal n)
    else throw (.undefinedName n)
  | none => throw (.undefinedName n)

end Running

end Scoping
