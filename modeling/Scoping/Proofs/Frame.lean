import Scoping.Scope.Action
import Scoping.Scope.Resolution
import Mathlib.Tactic.Common

/-! What a change leaves alone. Most changes give names new entries and touch nothing else of a tree: the
    scopes stay where they are, with their kinds, names and payloads. `SameScopes` says so, and whatever
    a tree tells without looking at an entry is then the same. The two changes that are not of this form,
    a new scope and a mark for an iterable, are described by what every question shows afterwards. -/

namespace Scoping

namespace ScopeTree

variable {π : Type} {t u v : ScopeTree π}

/-! ### Ids that a tree does not hold -/

theorem scope?_of_not_mem {s : ScopeId} (h : s ∉ t) : t.scope? s = none :=
  Array.getElem?_eq_none (Nat.le_of_not_lt h)

theorem enclosing_of_not_mem {s : ScopeId} (h : s ∉ t) : t.enclosing s = [] := by
  rw [enclosing, scope?_of_not_mem h]
  rfl

theorem nested_of_not_mem {s : ScopeId} (h : s ∉ t) : t.nested s = [] := by
  rw [nested, scope?_of_not_mem h]
  rfl

theorem entryAt?_of_not_mem {s : ScopeId} (h : s ∉ t) (n : Ident) : t.entryAt? s n = none := by
  rw [entryAt?, scope?_of_not_mem h]
  rfl

theorem mem_of_entryAt? {s : ScopeId} {n : Ident} {e : Entry} (h : t.entryAt? s n = some e) : s ∈ t := by
  by_contra hs
  rw [entryAt?_of_not_mem hs] at h
  cases h

theorem mem_of_kind? {s : ScopeId} {kind : ScopeKind} (h : t.kind? s = some kind) : s ∈ t := by
  by_contra hs
  rw [kind?, scope?_of_not_mem hs] at h
  cases h

theorem mem_congr (h : u.size = t.size) (s : ScopeId) : s ∈ u ↔ s ∈ t := by
  change s < u.size ↔ s < t.size
  rw [h]

/-- Trees that show the same scopes are the same. -/
theorem ext_scope? (scopes : ∀ s, u.scope? s = t.scope? s) (built : u.built = t.built) : u = t := by
  cases t
  cases u
  congr 1
  exact Array.ext_getElem? scopes

/-- There is nothing to change in a scope that the tree does not hold. -/
theorem modifyScope_of_not_mem {s : ScopeId} (h : s ∉ t) (f : Scope π → Scope π) :
    t.modifyScope s f = t := by
  refine ext_scope? (fun a => ?_) rfl
  rw [scope?_modifyScope]
  split_ifs with ha
  · rw [← ha, scope?_of_not_mem h]
    rfl
  · rfl

/-- A search for a name looks at the entries of that name in the scopes that it passes. -/
theorem captureAmong?_congr_of_mem {n : Ident} : ∀ {around : List ScopeId},
    (∀ a ∈ around, u.entryAt? a n = t.entryAt? a n) → u.captureAmong? n around = t.captureAmong? n around
  | [], _ => rfl
  | a :: rest, he => by
    obtain ⟨first, others⟩ := List.forall_mem_cons.mp he
    rw [captureAmong?, captureAmong?, first, captureAmong?_congr_of_mem others]

/-- A search for a name looks at the entries of that name alone. -/
theorem captureAmong?_congr {n : Ident} (he : ∀ s, u.entryAt? s n = t.entryAt? s n)
    (around : List ScopeId) : u.captureAmong? n around = t.captureAmong? n around :=
  captureAmong?_congr_of_mem fun a _ => he a

/-- The target of an assignment expression depends on the scopes around it and on the iteration
    variables of the comprehensions among them. -/
theorem expressionTarget_congr {n : Ident} (kind? : ∀ s, u.kind? s = t.kind? s)
    (inIterable : ∀ s, u.inIterable s = t.inIterable s) : ∀ (around : List ScopeId) (s : ScopeId),
    (∀ a ∈ s :: around, t.kind? a = some .comprehension → u.entryAt? a n = t.entryAt? a n) →
    u.expressionTarget n s around = t.expressionTarget n s around
  | [], s, _ => by
    rw [expressionTarget, expressionTarget, inIterable]
  | outer :: rest, s, he => by
    obtain ⟨first, others⟩ := List.forall_mem_cons.mp he
    have onward := expressionTarget_congr kind? inIterable rest outer others
    rw [expressionTarget, expressionTarget, inIterable, kind?, onward]
    by_cases inside : t.kind? s = some .comprehension
    · rw [first inside]
    · rw [if_neg inside, if_neg inside]

/-! ### Trees that differ in entries at most -/

/-- Two trees of the same scopes, which may differ in the entries of the scopes. -/
structure SameScopes (t u : ScopeTree π) : Prop where
  size : u.size = t.size
  kind? : ∀ s, u.kind? s = t.kind? s
  enclosing : ∀ s, u.enclosing s = t.enclosing s
  nested : ∀ s, u.nested s = t.nested s
  name? : ∀ s, u.name? s = t.name? s
  payload? : ∀ s, u.payload? s = t.payload? s
  inIterable : ∀ s, u.inIterable s = t.inIterable s
  built : u.built = t.built

namespace SameScopes

theorem refl (t : ScopeTree π) : SameScopes t t :=
  ⟨rfl, fun _ => rfl, fun _ => rfl, fun _ => rfl, fun _ => rfl, fun _ => rfl, fun _ => rfl, rfl⟩

theorem symm (h : SameScopes t u) : SameScopes u t :=
  ⟨h.size.symm, fun s => (h.kind? s).symm, fun s => (h.enclosing s).symm, fun s => (h.nested s).symm,
    fun s => (h.name? s).symm, fun s => (h.payload? s).symm, fun s => (h.inIterable s).symm,
    h.built.symm⟩

theorem trans (h : SameScopes t u) (k : SameScopes u v) : SameScopes t v where
  size := k.size.trans h.size
  kind? s := (k.kind? s).trans (h.kind? s)
  enclosing s := (k.enclosing s).trans (h.enclosing s)
  nested s := (k.nested s).trans (h.nested s)
  name? s := (k.name? s).trans (h.name? s)
  payload? s := (k.payload? s).trans (h.payload? s)
  inIterable s := (k.inIterable s).trans (h.inIterable s)
  built := k.built.trans h.built

theorem path (h : SameScopes t u) (s : ScopeId) : u.path s = t.path s := by
  rw [ScopeTree.path, ScopeTree.path, h.enclosing]

theorem isClosed (h : SameScopes t u) (s : ScopeId) : u.isClosed s = t.isClosed s := by
  rw [ScopeTree.isClosed, ScopeTree.isClosed, h.kind?]

theorem closedAround (h : SameScopes t u) (s : ScopeId) : u.closedAround s = t.closedAround s := by
  rw [ScopeTree.closedAround, ScopeTree.closedAround, h.enclosing, funext h.isClosed]

theorem capture? (h : SameScopes t u) {n : Ident} (he : ∀ s, u.entryAt? s n = t.entryAt? s n)
    (s : ScopeId) : u.capture? s n = t.capture? s n := by
  rw [ScopeTree.capture?, ScopeTree.capture?, h.closedAround, captureAmong?_congr he]

end SameScopes

/-! ### New entries -/

@[simp] theorem name?_setEntry (t : ScopeTree π) (s : ScopeId) (n : Ident) (e : Entry) (u : ScopeId) :
    (t.setEntry s n e).name? u = t.name? u := by
  rw [name?, setEntry, scope?_modifyScope, name?]
  split <;> cases t.scope? u <;> rfl

@[simp] theorem payload?_setEntry (t : ScopeTree π) (s : ScopeId) (n : Ident) (e : Entry) (u : ScopeId) :
    (t.setEntry s n e).payload? u = t.payload? u := by
  rw [payload?, setEntry, scope?_modifyScope, payload?]
  split <;> cases t.scope? u <;> rfl

theorem sameScopes_setEntry (t : ScopeTree π) (s : ScopeId) (n : Ident) (e : Entry) :
    SameScopes t (t.setEntry s n e) :=
  ⟨size_setEntry t s n e, kind?_setEntry t s n e, enclosing_setEntry t s n e, nested_setEntry t s n e,
    name?_setEntry t s n e, payload?_setEntry t s n e, inIterable_setEntry t s n e, rfl⟩

/-- New entries in two scopes may be given in either order. -/
theorem setEntry_comm (t : ScopeTree π) {s a : ScopeId} (h : s ≠ a) (n m : Ident) (e f : Entry) :
    (t.setEntry s n e).setEntry a m f = (t.setEntry a m f).setEntry s n e := by
  refine ext_scope? (fun b => ?_) rfl
  simp only [setEntry, scope?_modifyScope]
  split_ifs with hs ha
  · exact absurd (ha.trans hs.symm) h
  iterate 3 rfl

theorem sameScopes_load (t : ScopeTree π) (s : ScopeId) (n : Ident) : SameScopes t (t.load s n) := by
  rw [load]
  split
  · exact sameScopes_setEntry ..
  · exact .refl t

theorem sameScopes_store (t : ScopeTree π) (s : ScopeId) (n : Ident) : SameScopes t (t.store s n) := by
  rw [store]
  split
  iterate 3 exact sameScopes_setEntry ..
  iterate 2 exact .refl t

theorem entryAt?_load (t : ScopeTree π) {s : ScopeId} (h : s ∈ t) (n : Ident) (u : ScopeId) (m : Ident) :
    (t.load s n).entryAt? u m =
      if s = u ∧ n = m then some ((t.entryAt? s n).getD .used) else t.entryAt? u m := by
  rw [load]
  split
  · rename_i he
    rw [entryAt?_setEntry t h, he]
    rfl
  · rename_i e he
    split
    · rename_i hu
      rw [← hu.1, ← hu.2, he]
      rfl
    · rfl

/-! ### Binding a name -/

/-- A name of which a scope has nothing definite to say. -/
def Undecided (t : ScopeTree π) (s : ScopeId) (n : Ident) : Prop :=
  t.entryAt? s n = none ∨ t.entryAt? s n = some .used

instance (t : ScopeTree π) (s : ScopeId) (n : Ident) : Decidable (Undecided t s n) :=
  inferInstanceAs (Decidable (_ ∨ _))

theorem store_of_undecided {s : ScopeId} {n : Ident} (h : t.Undecided s n) :
    t.store s n = t.setEntry s n .bound := by
  rcases h with h | h <;> simp only [store, h]

theorem store_of_global {s : ScopeId} {n : Ident} {d : Bool} (h : t.entryAt? s n = some (.global d)) :
    t.store s n = t.setEntry ScopeId.root n .bound := by
  simp only [store, h]

theorem store_of_bound {s : ScopeId} {n : Ident} (h : t.entryAt? s n = some .bound) :
    t.store s n = t := by
  simp only [store, h]

/-! ### Marks for iterables and the end of the analysis -/

section setInIterable

variable (t : ScopeTree π) (s : ScopeId) (on : Bool) (u : ScopeId)

@[simp] theorem size_setInIterable : (t.setInIterable s on).size = t.size := size_modifyScope ..

@[simp] theorem kind?_setInIterable : (t.setInIterable s on).kind? u = t.kind? u := by
  rw [kind?, setInIterable, scope?_modifyScope, kind?]
  split <;> cases t.scope? u <;> rfl

@[simp] theorem enclosing_setInIterable : (t.setInIterable s on).enclosing u = t.enclosing u := by
  rw [enclosing, setInIterable, scope?_modifyScope, enclosing]
  split <;> cases t.scope? u <;> rfl

@[simp] theorem nested_setInIterable : (t.setInIterable s on).nested u = t.nested u := by
  rw [nested, setInIterable, scope?_modifyScope, nested]
  split <;> cases t.scope? u <;> rfl

@[simp] theorem name?_setInIterable : (t.setInIterable s on).name? u = t.name? u := by
  rw [name?, setInIterable, scope?_modifyScope, name?]
  split <;> cases t.scope? u <;> rfl

@[simp] theorem payload?_setInIterable : (t.setInIterable s on).payload? u = t.payload? u := by
  rw [payload?, setInIterable, scope?_modifyScope, payload?]
  split <;> cases t.scope? u <;> rfl

@[simp] theorem entryAt?_setInIterable (n : Ident) :
    (t.setInIterable s on).entryAt? u n = t.entryAt? u n := by
  rw [entryAt?, setInIterable, scope?_modifyScope, entryAt?]
  split <;> cases t.scope? u <;> rfl

theorem inIterable_setInIterable {s : ScopeId} (h : s ∈ t) :
    (t.setInIterable s on).inIterable u = if s = u then on else t.inIterable u := by
  rw [inIterable, setInIterable, scope?_modifyScope, inIterable]
  split_ifs with here
  · subst here
    have found : t.scope? s = some t.scopes[s] := Array.getElem?_eq_getElem h
    rw [found]
    rfl
  · rfl

end setInIterable

/-! ### New scopes -/

section push

variable (t : ScopeTree π) {p : ScopeId} (kind : ScopeKind) (name : Option Ident) (payload : π)

@[simp] theorem size_push : (t.push p kind name payload).size = t.size + 1 := by
  simp [push, modifyScope, size]

/-- The new scope stands at the end, its parent lists it, and the other scopes are as they were. -/
theorem scope?_push (h : p ∈ t) (u : ScopeId) : (t.push p kind name payload).scope? u =
    if u = t.size then
      some { kind := kind, name := name, enclosing := t.path p, entries := ∅,
             inIterable := t.inIterable p, nested := [], payload := payload }
    else if u = p then (t.scope? u).map fun sc => { sc with nested := sc.nested ++ [t.size] }
    else t.scope? u := by
  have hp : p ≠ t.size := Nat.ne_of_lt h
  rw [push, scope?_modifyScope]
  by_cases hu : u = t.size
  · subst hu
    rw [if_neg hp, if_pos rfl]
    exact Array.getElem?_push_size
  · have old (x : Scope π) : (t.scopes.push x)[u]? = t.scopes[u]? := by
      exact Array.getElem?_push.trans (if_neg hu)
    simp [scope?, old, hu, eq_comm]

theorem mem_push (s : ScopeId) : s ∈ t.push p kind name payload ↔ s ∈ t ∨ s = t.size := by
  change s < (t.push p kind name payload).size ↔ s < t.size ∨ s = t.size
  rw [size_push]
  exact Nat.lt_succ_iff_lt_or_eq

theorem kind?_push (h : p ∈ t) (u : ScopeId) :
    (t.push p kind name payload).kind? u = if u = t.size then some kind else t.kind? u := by
  rw [kind?, scope?_push t kind name payload h, kind?]
  split_ifs <;> simp [Function.comp_def]

theorem name?_push (h : p ∈ t) (u : ScopeId) :
    (t.push p kind name payload).name? u = if u = t.size then name else t.name? u := by
  rw [name?, scope?_push t kind name payload h, name?]
  split_ifs
  · rfl
  · cases t.scope? u <;> rfl
  · rfl

theorem payload?_push (h : p ∈ t) (u : ScopeId) :
    (t.push p kind name payload).payload? u = if u = t.size then some payload else t.payload? u := by
  rw [payload?, scope?_push t kind name payload h, payload?]
  split_ifs
  · rfl
  · cases t.scope? u <;> rfl
  · rfl

theorem enclosing_push (h : p ∈ t) (u : ScopeId) :
    (t.push p kind name payload).enclosing u = if u = t.size then t.path p else t.enclosing u := by
  rw [enclosing, scope?_push t kind name payload h, enclosing]
  split_ifs <;> cases t.scope? u <;> rfl

theorem parent?_push (h : p ∈ t) (u : ScopeId) :
    (t.push p kind name payload).parent? u = if u = t.size then some p else t.parent? u := by
  rw [parent?, enclosing_push t kind name payload h, parent?]
  split_ifs <;> rfl

theorem nested_push (h : p ∈ t) (u : ScopeId) : (t.push p kind name payload).nested u =
    if u = t.size then [] else if u = p then t.nested u ++ [t.size] else t.nested u := by
  rw [nested, scope?_push t kind name payload h, nested]
  split_ifs with hu hp
  · rfl
  · subst hp
    have found : t.scope? u = some t.scopes[u] := Array.getElem?_eq_getElem h
    rw [found]
    rfl
  · rfl

theorem inIterable_push (h : p ∈ t) (u : ScopeId) : (t.push p kind name payload).inIterable u =
    if u = t.size then t.inIterable p else t.inIterable u := by
  unfold inIterable
  rw [scope?_push t kind name payload h]
  split_ifs with hu hp
  · rfl
  · cases t.scope? u <;> rfl
  · rfl

theorem entryAt?_push (h : p ∈ t) (u : ScopeId) (n : Ident) :
    (t.push p kind name payload).entryAt? u n = t.entryAt? u n := by
  rw [entryAt?, scope?_push t kind name payload h, entryAt?]
  split_ifs with hu hp
  · rw [hu, scope?_of_not_mem (Nat.lt_irrefl _)]
    exact Std.ExtTreeMap.getElem?_empty
  · cases t.scope? u <;> rfl
  · rfl

end push

end ScopeTree

end Scoping
