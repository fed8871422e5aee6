import Mathlib.Data.List.Induction
import Scoping.Namespace.Storage

/-! Sharing. A block counts the handles on it, and the count is right after any calls. So a handle
    that makes a block its own is the only one on it, and what it writes there is seen through no
    other handle: every handle stands for a mapping of its own, which only its own changes have an
    effect on. What sharing can be seen by is the question whether two handles are on one block.
    They are until one of them is changed, which is just what the numbers of revisions say of
    mappings that are never in storage at all. -/

namespace Scoping

namespace Edit

variable {ν : Type} {m : IdentMap ν} {e : Edit ν} {n : Ident}

/-- A change that has nothing to change has no effect. -/
theorem apply_eq_self (idle : e.applies m = false) : e.apply m = m := by
  cases e with
  | insert n v => cases idle
  | remove n =>
    refine Std.ExtTreeMap.ext_getElem? fun r => ?_
    rw [apply, Std.ExtTreeMap.getElem?_erase]
    split_ifs with same
    · obtain rfl := Std.LawfulEqCmp.eq_of_compare same
      rw [applies] at idle
      exact (Std.ExtTreeMap.getElem?_eq_none_of_contains_eq_false idle).symm
    · rfl

end Edit

namespace Storage

variable {ν : Type} {x : Storage ν} {j k l : Handle} {p q : Nat} {m : IdentMap ν} {b : Block ν}

/-! ### Blocks and places -/

/-- The mapping in a block. -/
def valuesAt? (x : Storage ν) (p : Nat) : Option (IdentMap ν) := (x.blocks[p]?).map Block.values

theorem values?_eq (x : Storage ν) (k : Handle) : x.values? k = (x.place? k).bind x.valuesAt? := rfl

theorem place?_eq_some : x.place? k = some p ↔ x.places[k]? = some (some p) := by
  rw [place?, Option.join_eq_some_iff]

/-- A handle that stands for a mapping has a place. -/
theorem exists_place (live : x.values? k = some m) : ∃ p, x.place? k = some p := by
  obtain ⟨p, placed, -⟩ := Option.bind_eq_some_iff.mp live
  exact ⟨p, placed⟩

theorem lt_size_of_place? (placed : x.place? k = some p) : k < x.size :=
  (Array.getElem?_eq_some_iff.mp (place?_eq_some.mp placed)).1

theorem place?_size (x : Storage ν) : x.place? x.size = none := by
  rw [place?, size, Array.getElem?_eq_none (Nat.le_refl _)]
  rfl

theorem shares_iff : x.shares k l = true ↔ ∃ p, x.place? k = some p ∧ x.place? l = some p := by
  rw [shares]
  split
  · rename_i p q first second
    simp [first, second, eq_comm]
  · rename_i other
    simp only [Bool.false_eq_true, false_iff, not_exists, not_and]
    intro p first second
    exact other p p first second

/-- Sharing is seen by the places of handles alone. -/
theorem shares_congr {y : Storage ν} {i j : Handle} (first : y.place? i = x.place? k)
    (second : y.place? j = x.place? l) : y.shares i j = x.shares k l := by
  rw [shares, shares, first, second]

theorem shares_comm (x : Storage ν) (k l : Handle) : x.shares k l = x.shares l k := by
  rw [Bool.eq_iff_iff, shares_iff, shares_iff]
  simp only [and_comm]

/-! ### Counts -/

/-- Storage in which every handle's block is there, and every block counts the handles on it. -/
structure Counted (x : Storage ν) : Prop where
  stored : ∀ {k p : Nat}, x.place? k = some p → p < x.blocks.size
  holders : ∀ {p : Nat} {b : Block ν}, x.blocks[p]? = some b → b.holders = x.places.count (some p)

theorem counted_empty : (empty : Storage ν).Counted where
  stored placed := by simp [place?, empty] at placed
  holders found := by simp [empty] at found

/-- What a handle is moved to from its place counts one more, and the place counts one less. -/
theorem count_move (placed : x.place? k = some q) (a : Option Nat) (p : Nat) :
    (x.places.setIfInBounds k a).count (some p)
      = x.places.count (some p) - (if q = p then 1 else 0) + if a = some p then 1 else 0 := by
  obtain ⟨inside, at_k⟩ := Array.getElem?_eq_some_iff.mp (place?_eq_some.mp placed)
  rw [Array.setIfInBounds, dif_pos inside, Array.count_set, at_k]
  simp

namespace Counted

/-- A live handle stands for the mapping in its block. -/
theorem block (c : x.Counted) (placed : x.place? k = some p) :
    ∃ b, x.blocks[p]? = some b ∧ x.values? k = some b.values := by
  have found := Array.getElem?_eq_getElem (c.stored placed)
  exact ⟨_, found, by simp [values?, placed, found]⟩

/-- A block that counts one handle has no other. -/
theorem sole (c : x.Counted) (placed : x.place? k = some p) (found : x.blocks[p]? = some b)
    (one : b.holders = 1) (other : x.place? j = some p) : j = k := by
  by_contra distinct
  have left : (x.places.setIfInBounds k none).count (some p) = 0 := by
    rw [count_move placed, ← c.holders found, one]
    simp
  have still : (x.places.setIfInBounds k none)[j]? = some (some p) := by
    rw [Array.getElem?_setIfInBounds, if_neg (Ne.symm distinct), place?_eq_some.mp other]
  exact Array.count_eq_zero.mp left (Array.mem_of_getElem? still)

end Counted

/-! ### Handles that come and go -/

theorem place?_push (blocks : Array (Block ν)) (places : Array (Option Nat)) (a : Option Nat)
    (j : Handle) : (⟨blocks, places.push a⟩ : Storage ν).place? j
      = if j = places.size then a else (⟨blocks, places⟩ : Storage ν).place? j := by
  rw [place?, place?, Array.getElem?_push]
  split_ifs <;> rfl

theorem place?_move (blocks : Array (Block ν)) (placed : x.place? k = some p) (a : Option Nat)
    (j : Handle) :
    (⟨blocks, x.places.setIfInBounds k a⟩ : Storage ν).place? j = if j = k then a else x.place? j := by
  rw [place?, place?, Array.getElem?_setIfInBounds]
  by_cases same : j = k
  · subst same
    have inside := lt_size_of_place? placed
    rw [size] at inside
    simp [inside]
  · rw [if_neg (Ne.symm same), if_neg same]

theorem getElem?_recount (x : Storage ν) (p : Nat) (f : Nat → Nat) (q : Nat) :
    (x.recount p f)[q]? =
      (x.blocks[q]?).map fun b => if p = q then { b with holders := f b.holders } else b := by
  rw [recount, Array.getElem?_modify]
  split_ifs
  · rfl
  · simp

theorem size_recount (x : Storage ν) (p : Nat) (f : Nat → Nat) : (x.recount p f).size = x.blocks.size :=
  Array.size_modify

theorem valuesAt?_recount (x : Storage ν) (p : Nat) (f : Nat → Nat) (places : Array (Option Nat))
    (q : Nat) : (⟨x.recount p f, places⟩ : Storage ν).valuesAt? q = x.valuesAt? q := by
  rw [valuesAt?, valuesAt?, getElem?_recount, Option.map_map]
  congr 1
  funext b
  by_cases same : p = q <;> simp [same]

/-- What lives looks the same if its place is the same and the block there has the same mapping. -/
theorem values?_congr {y : Storage ν} (place : y.place? j = x.place? j)
    (block : ∀ p, x.place? j = some p → y.valuesAt? p = x.valuesAt? p) : y.values? j = x.values? j := by
  rw [values?_eq, values?_eq, place]
  cases placed : x.place? j with
  | none => rfl
  | some p => exact block p placed

theorem place?_create (x : Storage ν) (entries : List (Ident × ν)) (j : Handle) :
    (x.create entries).place? j = if j = x.size then some x.blocks.size else x.place? j :=
  place?_push ..

theorem valuesAt?_push (blocks : Array (Block ν)) (places : Array (Option Nat)) (b : Block ν) (q : Nat) :
    (⟨blocks.push b, places⟩ : Storage ν).valuesAt? q
      = if q = blocks.size then some b.values else (⟨blocks, places⟩ : Storage ν).valuesAt? q := by
  rw [valuesAt?, valuesAt?, Array.getElem?_push]
  split_ifs <;> rfl

theorem place?_clone (x : Storage ν) (k j : Handle) :
    (x.clone k).place? j = if j = x.size then x.place? k else x.place? j := by
  rw [clone]
  cases placed : x.place? k with
  | none =>
    split_ifs with new
    · rw [new, place?_size]
    · rfl
  | some p => exact place?_push ..

theorem valuesAt?_clone (x : Storage ν) (k : Handle) : (x.clone k).valuesAt? = x.valuesAt? := by
  rw [clone]
  cases x.place? k with
  | none => rfl
  | some p => exact funext (valuesAt?_recount x p _ _)

theorem values?_clone (x : Storage ν) (k j : Handle) :
    (x.clone k).values? j = if j = x.size then x.values? k else x.values? j := by
  rw [values?_eq, place?_clone, valuesAt?_clone]
  split_ifs <;> rfl

theorem place?_release (x : Storage ν) (k j : Handle) :
    (x.release k).place? j = if j = k then none else x.place? j := by
  rw [release]
  cases placed : x.place? k with
  | none =>
    split_ifs with same
    · rw [same, placed]
    · rfl
  | some p => exact place?_move _ placed ..

theorem valuesAt?_release (x : Storage ν) (k : Handle) : (x.release k).valuesAt? = x.valuesAt? := by
  rw [release]
  cases x.place? k with
  | none => rfl
  | some p => exact funext (valuesAt?_recount x p _ _)

theorem values?_release (x : Storage ν) (k j : Handle) :
    (x.release k).values? j = if j = k then none else x.values? j := by
  rw [values?_eq, place?_release, valuesAt?_release]
  split_ifs <;> rfl

namespace Counted

/-- No handle is on a block that is not there yet. -/
theorem count_fresh (c : x.Counted) : x.places.count (some x.blocks.size) = 0 := by
  refine Array.count_eq_zero.mpr fun mem => ?_
  obtain ⟨k, at_k⟩ := Array.mem_iff_getElem?.mp mem
  exact Nat.lt_irrefl _ (c.stored (place?_eq_some.mpr at_k))

theorem values?_create (c : x.Counted) (entries : List (Ident × ν)) (j : Handle) :
    (x.create entries).values? j
      = if j = x.size then some (entries.foldl (fun m e => m.insert e.1 e.2) ∅) else x.values? j := by
  split_ifs with new
  · rw [values?_eq, place?_create, if_pos new, Option.bind_some, create, valuesAt?_push, if_pos rfl]
  · refine values?_congr (by rw [place?_create, if_neg new]) fun p placed => ?_
    rw [create, valuesAt?_push, if_neg (Nat.ne_of_lt (c.stored placed))]
    rfl

theorem create (c : x.Counted) (entries : List (Ident × ν)) : (x.create entries).Counted where
  stored {k p} placed := by
    have old : x.place? k = some p → p < x.blocks.size := c.stored
    rw [place?_create] at placed
    rw [Storage.create, Array.size_push]
    split_ifs at placed with new
    · cases placed
      omega
    · have := old placed
      omega
  holders {p b} found := by
    rw [Storage.create, Array.getElem?_push] at found
    rw [Storage.create, Array.count_push]
    split_ifs at found with new
    · cases found
      simp [c.count_fresh, new]
    · simp [c.holders found, Ne.symm new]

theorem clone (c : x.Counted) (k : Handle) : (x.clone k).Counted := by
  rw [Storage.clone]
  cases placed : x.place? k with
  | none => exact c
  | some p =>
    refine ⟨fun {j q} there => ?_, fun {q b} found => ?_⟩
    · rw [place?_push] at there
      rw [size_recount]
      split_ifs at there with new
      · cases there
        exact c.stored placed
      · exact c.stored there
    · rw [getElem?_recount, Option.map_eq_some_iff] at found
      obtain ⟨old, found, rfl⟩ := found
      rw [Array.count_push, ← c.holders found]
      by_cases same : p = q <;> simp [same]

theorem release (c : x.Counted) (k : Handle) : (x.release k).Counted := by
  refine ⟨fun {j q} there => ?_, fun {q b} found => ?_⟩
  · rw [place?_release] at there
    split_ifs at there
    have inside := c.stored there
    rw [Storage.release]
    split
    · rwa [size_recount]
    · exact inside
  · rw [Storage.release] at found ⊢
    cases placed : x.place? k with
    | none =>
      rw [placed] at found
      exact c.holders found
    | some p =>
      rw [placed, getElem?_recount, Option.map_eq_some_iff] at found
      obtain ⟨old, found, rfl⟩ := found
      rw [count_move placed, ← c.holders found]
      by_cases same : p = q <;> simp [same]

end Counted

/-! ### A block of one's own -/

/-- What a new mapping for a handle comes to: the handle stands for it and shares with no other, and
    everything else is as it was. -/
structure Renews (y x : Storage ν) (k : Handle) (m : IdentMap ν) : Prop where
  counted : y.Counted
  values : ∀ j, y.values? j = if j = k then some m else x.values? j
  shares : ∀ i j, y.shares i j = if i = k ∨ j = k then decide (i = j) else x.shares i j

/-- A handle that alone is on its block shares with no other. -/
theorem shares_of_alone {y : Storage ν} (place : ∀ {j}, j ≠ k → y.place? j = x.place? j)
    (placed : y.place? k = some p) (alone : ∀ {j}, y.place? j = some p → j = k) (i j : Handle) :
    y.shares i j = if i = k ∨ j = k then decide (i = j) else x.shares i j := by
  split_ifs with own
  · rw [Bool.eq_iff_iff, shares_iff, decide_eq_true_iff]
    constructor
    · rintro ⟨q, first, second⟩
      rcases own with rfl | rfl
      · obtain rfl := Option.some.inj (placed.symm.trans first)
        exact (alone second).symm
      · obtain rfl := Option.some.inj (placed.symm.trans second)
        exact alone first
    · rintro rfl
      obtain rfl : i = k := by simpa using own
      exact ⟨p, placed, placed⟩
  · rw [not_or] at own
    exact shares_congr (place own.1) (place own.2)

theorem Counted.renews_create (c : x.Counted) (entries : List (Ident × ν)) :
    (x.create entries).Renews x x.size (entries.foldl (fun m e => m.insert e.1 e.2) ∅) where
  counted := c.create entries
  values := c.values?_create entries
  shares := by
    have placed :
        (x.create entries).place? x.size = some x.blocks.size := by rw [place?_create, if_pos rfl]
    have old : ∀ {j}, j ≠ x.size → (x.create entries).place? j = x.place? j := fun other => by
      rw [place?_create, if_neg other]
    refine shares_of_alone old placed fun {j} there => ?_
    by_contra other
    exact Nat.lt_irrefl _ (c.stored (old other ▸ there))

/-- What making a block a handle's own comes to: the handle is on a block without other handles, and
    everything else is as it was. -/
structure Owns (y x : Storage ν) (k : Handle) : Prop where
  counted : y.Counted
  values : ∀ j, y.values? j = x.values? j
  place : ∀ {j : Handle}, j ≠ k → y.place? j = x.place? j
  alone : ∃ p, y.place? k = some p ∧ ∀ {j : Handle}, y.place? j = some p → j = k

theorem place?_moveOut (placed : x.place? k = some p) (q : Nat) (m : IdentMap ν) (j : Handle) :
    (x.moveOut k q m).place? j = if j = k then some x.blocks.size else x.place? j :=
  place?_move _ placed ..

theorem valuesAt?_moveOut (x : Storage ν) (k : Handle) (p : Nat) (m : IdentMap ν) (q : Nat) :
    (x.moveOut k p m).valuesAt? q = if q = x.blocks.size then some m else x.valuesAt? q := by
  rw [moveOut, valuesAt?_push, size_recount, valuesAt?_recount]

theorem Counted.moveOut (c : x.Counted) (placed : x.place? k = some p) (m : IdentMap ν) :
    (x.moveOut k p m).Counted := by
  have apart := Nat.ne_of_lt (c.stored placed)
  refine ⟨fun {j q} there => ?_, fun {q b} found => ?_⟩
  · rw [place?_moveOut placed] at there
    rw [Storage.moveOut, Array.size_push, size_recount]
    split_ifs at there with same
    · cases there
      omega
    · exact Nat.lt_succ_of_lt (c.stored there)
  · rw [Storage.moveOut, Array.getElem?_push, size_recount] at found
    rw [Storage.moveOut, count_move placed]
    split_ifs at found with new
    · cases found
      simp [new, c.count_fresh, apart]
    · rw [getElem?_recount, Option.map_eq_some_iff] at found
      obtain ⟨old, found, rfl⟩ := found
      rw [← c.holders found]
      by_cases same : p = q <;> simp [same, Ne.symm new]

theorem Counted.own (c : x.Counted) (placed : x.place? k = some p) : (x.own k).Owns x k := by
  obtain ⟨b, found, eq⟩ := c.block placed
  rw [Storage.own, placed]
  simp only [found]
  split_ifs with one
  · exact ⟨c, fun _ => rfl, fun _ => rfl, p, placed, fun there => c.sole placed found one there⟩
  · refine ⟨c.moveOut placed _, fun j => ?_, fun other => ?_, ?_⟩
    · by_cases same : j = k
      · rw [values?_eq, place?_moveOut placed, if_pos same, Option.bind_some, valuesAt?_moveOut,
          if_pos rfl, same, eq]
      · refine values?_congr (by rw [place?_moveOut placed, if_neg same]) fun q there => ?_
        rw [valuesAt?_moveOut, if_neg (Nat.ne_of_lt (c.stored there))]
    · rw [place?_moveOut placed, if_neg other]
    · refine ⟨x.blocks.size, by rw [place?_moveOut placed, if_pos rfl], fun there => ?_⟩
      by_contra other
      rw [place?_moveOut placed, if_neg other] at there
      exact Nat.lt_irrefl _ (c.stored there)

/-! ### Changes -/

theorem place?_write (x : Storage ν) (k : Handle) (e : Edit ν) : (x.write k e).place? = x.place? := by
  rw [write]
  cases x.place? k <;> rfl

theorem valuesAt?_write (placed : x.place? k = some p) (e : Edit ν) (q : Nat) :
    (x.write k e).valuesAt? q = if p = q then (x.valuesAt? q).map e.apply else x.valuesAt? q := by
  rw [write, placed, valuesAt?, valuesAt?, Array.getElem?_modify]
  split_ifs
  · simp [Function.comp_def]
  · rfl

theorem Counted.write (c : x.Counted) (k : Handle) (e : Edit ν) : (x.write k e).Counted := by
  refine ⟨fun {j q} there => ?_, fun {q b} found => ?_⟩
  · rw [place?_write] at there
    have inside := c.stored there
    rw [Storage.write]
    split
    · rwa [Array.size_modify]
    · exact inside
  · rw [Storage.write] at found ⊢
    split at found
    · rw [Array.getElem?_modify] at found
      split_ifs at found with same
      · obtain ⟨old, there, rfl⟩ := Option.map_eq_some_iff.mp found
        exact (c.holders there :)
      · exact c.holders found
    · exact c.holders found

theorem Owns.write {y : Storage ν} (o : y.Owns x k) (live : x.values? k = some m) (e : Edit ν) :
    (y.write k e).Renews x k (e.apply m) := by
  obtain ⟨p, placed, alone⟩ := o.alone
  refine ⟨o.counted.write k e, fun j => ?_, ?_⟩
  · rw [values?_eq, place?_write]
    split_ifs with same
    · have held :
          y.valuesAt? p = some m := by rw [← live, ← o.values, values?_eq, placed, Option.bind_some]
      rw [same, placed, Option.bind_some, valuesAt?_write placed, if_pos rfl, held, Option.map_some]
    · rw [← o.values, values?_eq]
      cases there : y.place? j with
      | none => rfl
      | some q =>
        have apart : p ≠ q := fun eq => same (alone (eq ▸ there))
        rw [Option.bind_some, Option.bind_some, valuesAt?_write placed, if_neg apart]
  · rw [← place?_write y k e] at placed
    refine shares_of_alone (fun other => ?_) placed fun there => alone ?_
    · rw [place?_write, o.place other]
    · rwa [place?_write] at there

theorem Counted.edit (c : x.Counted) (live : x.values? k = some m) (e : Edit ν) :
    (x.edit k e).1 = m[e.name]? ∧
      if e.applies m then (x.edit k e).2.Renews x k (e.apply m) else (x.edit k e).2 = x := by
  obtain ⟨p, placed⟩ := exists_place live
  have own := c.own placed
  rw [Storage.edit, live]
  simp only [Option.any_some]
  split_ifs with applies
  · exact ⟨by rw [get?, own.values, live, Option.bind_some], own.write live e⟩
  · cases e with
    | insert n v => cases applies rfl
    | remove n =>
      have missing : m.contains n = false := Bool.not_eq_true _ ▸ applies
      exact ⟨(Std.ExtTreeMap.getElem?_eq_none_of_contains_eq_false missing).symm, rfl⟩

theorem size_edit (x : Storage ν) (k : Handle) (e : Edit ν) : (x.edit k e).2.size = x.size := by
  have own : (x.own k).size = x.size := by
    rw [own]
    split
    · rfl
    · split
      · rfl
      · split_ifs
        · rfl
        · exact Array.size_setIfInBounds
  rw [edit]
  split_ifs
  · rw [← own, write]
    split <;> rfl
  · rfl

/-! ### Calls -/

end Storage

/-- The change that a call makes through a handle. -/
def StorageCall.editOn? {ν : Type} (k : Handle) : StorageCall ν → Option (Edit ν)
  | .edit l e => if l = k then some e else none
  | .create _ | .clone _ | .release _ => none

namespace Storage

variable {ν : Type} {x : Storage ν} {k l : Handle} {m : IdentMap ν}

/-- The changes that calls make through a handle, in order. -/
def editsOn (k : Handle) (calls : List (StorageCall ν)) : List (Edit ν) := calls.filterMap (·.editOn? k)

/-- Nothing is changed through a handle that stands for no mapping. -/
theorem edit_of_not_live (dead : x.values? k = none) (e : Edit ν) : x.edit k e = (none, x) := by
  rw [edit, dead]
  rfl

/-- Handles come up, and none disappears. -/
theorem size_le_size_perform (x : Storage ν) (call : StorageCall ν) :
    x.size ≤ (x.perform call).2.size := by
  cases call with
  | create entries => simp [perform, create, size]
  | clone k =>
    rw [perform, clone]
    split <;> simp [size]
  | edit k e => exact Nat.le_of_eq (size_edit x k e).symm
  | release k =>
    rw [perform, release]
    split <;> simp [size]

theorem Counted.perform (c : x.Counted) : ∀ call : StorageCall ν, (x.perform call).2.Counted
  | .create entries => c.create entries
  | .clone k => c.clone k
  | .release k => c.release k
  | .edit k e => by
    rw [Storage.perform]
    cases live : x.values? k with
    | none => rwa [edit_of_not_live live]
    | some m =>
      have changes := (c.edit live e).2
      split_ifs at changes with applies
      · exact changes.counted
      · rwa [changes]

theorem Counted.performAll (c : x.Counted) (calls : List (StorageCall ν)) :
    (x.performAll calls).Counted := by
  induction calls generalizing x with
  | nil => exact c
  | cons call calls ih => exact ih (c.perform call)

/-- A call changes the mapping of a handle by what it changes through that handle itself. -/
theorem Counted.values?_perform (c : x.Counted) (live : x.values? k = some m) {call : StorageCall ν}
    (kept : call ≠ .release k) :
    (x.perform call).2.values? k = some ((call.editOn? k).toList.foldl Edit.apply m) := by
  obtain ⟨p, placed⟩ := exists_place live
  have old := Nat.ne_of_lt (lt_size_of_place? placed)
  cases call with
  | create entries => rw [Storage.perform, c.values?_create, if_neg old, live]; rfl
  | clone l => rw [Storage.perform, values?_clone, if_neg old, live]; rfl
  | release l =>
    have other : k ≠ l := fun same => kept (same ▸ rfl)
    rw [Storage.perform, values?_release, if_neg other, live]
    rfl
  | edit l e =>
    rw [Storage.perform, StorageCall.editOn?]
    by_cases same : l = k
    · subst same
      have changes := (c.edit live e).2
      rw [if_pos rfl, Option.toList_some, List.foldl_cons, List.foldl_nil]
      split_ifs at changes with applies
      · rw [changes.values, if_pos rfl]
      · rw [changes, live, Edit.apply_eq_self (Bool.not_eq_true _ ▸ applies)]
    · rw [if_neg same, Option.toList_none, List.foldl_nil, ← live]
      cases there : x.values? l with
      | none => rw [edit_of_not_live there]
      | some m' =>
        have changes := (c.edit there e).2
        split_ifs at changes with applies
        · rw [changes.values, if_neg (Ne.symm same)]
        · rw [changes]

/-- Only what is changed through a handle changes its mapping, however long it is kept. -/
theorem Counted.values?_performAll (c : x.Counted) (live : x.values? k = some m)
    (calls : List (StorageCall ν)) (kept : .release k ∉ calls) :
    (x.performAll calls).values? k = some ((editsOn k calls).foldl Edit.apply m) := by
  induction calls generalizing x m with
  | nil => exact live
  | cons call calls ih =>
    rw [List.mem_cons, not_or] at kept
    have next := c.values?_perform live (Ne.symm kept.1)
    rw [Storage.performAll, ih (c.perform call) next kept.2, editsOn, editsOn, List.filterMap_cons]
    cases call.editOn? k <;> rfl

/-! ### Sharing -/

theorem Counted.shares_self (c : x.Counted) (k : Handle) : x.shares k k = (x.values? k).isSome := by
  rw [Bool.eq_iff_iff, shares_iff]
  constructor
  · rintro ⟨p, placed, -⟩
    obtain ⟨b, -, live⟩ := c.block placed
    rw [live]
    rfl
  · intro live
    obtain ⟨m, live⟩ := Option.isSome_iff_exists.mp live
    obtain ⟨p, placed⟩ := exists_place live
    exact ⟨p, placed, placed⟩

theorem shares_trans {i j : Handle} (first : x.shares i j = true) (second : x.shares j k = true) :
    x.shares i k = true := by
  obtain ⟨p, at_i, at_j⟩ := shares_iff.mp first
  obtain ⟨q, again, at_k⟩ := shares_iff.mp second
  obtain rfl := Option.some.inj (at_j.symm.trans again)
  exact shares_iff.mpr ⟨p, at_i, at_k⟩

/-- Handles on one block stand for one mapping. -/
theorem values?_eq_of_shares (shared : x.shares k l = true) : x.values? k = x.values? l := by
  obtain ⟨p, first, second⟩ := shares_iff.mp shared
  rw [values?_eq, values?_eq, first, second]

end Storage

/-! ### Mappings that are never in storage -/

namespace Shelf

variable {ν : Type} {s : Shelf ν} {x : Storage ν} {k : Handle} {b : Builtins ν}

/-- Carries out a call on the mappings of a shelf, and tells the value that it replaces or removes. -/
def perform (s : Shelf ν) : StorageCall ν → Option ν × Shelf ν
  | .create entries => (none, s.addNew entries)
  | .clone k => (none, s.copy k)
  | .edit k (.insert n v) => s.insert k n v
  | .edit k (.remove n) => s.remove k n
  | .release _ => (none, s)

/-- The shelf after some calls. -/
def performAll (s : Shelf ν) : List (StorageCall ν) → Shelf ν
  | [] => s
  | c :: calls => performAll (s.perform c).2 calls

/-- A shelf on which all looks as through the handles on storage. -/
structure Shows (s : Shelf ν) (x : Storage ν) : Prop where
  size : s.slots.size = x.size
  values : ∀ k, (s.slot? k).map Builtins.values = x.values? k
  shares : ∀ {k l : Handle} {b c : Builtins ν}, s.slot? k = some b → s.slot? l = some c →
    b.sharesWith c = x.shares k l
  revisions : ∀ {k : Handle} {b : Builtins ν}, s.slot? k = some b → b.revision < s.next

theorem shows_empty : (empty : Shelf ν).Shows .empty where
  size := rfl
  values _ := by simp [slot?, empty, Storage.values?, Storage.place?, Storage.empty]
  shares found := by simp [slot?, empty] at found
  revisions found := by simp [slot?, empty] at found

theorem slot?_add (s : Shelf ν) (b : Builtins ν) (j : Handle) :
    (s.add b).slot? j = if j = s.slots.size then some b else s.slot? j :=
  Array.getElem?_push

/-- A change that has something to change takes the next revision, and any other changes nothing. It
    tells the value that the name had. -/
theorem perform_edit (found : s.slot? k = some b) (e : Edit ν) :
    s.perform (.edit k e) = (b.values[e.name]?, if e.applies b.values then
      ⟨s.slots.modify k fun _ => ⟨e.apply b.values, s.next⟩, s.next + 1⟩ else s) := by
  have same : s.slots.modify k (fun _ => b) = s.slots := by
    refine Array.ext_getElem? fun j => ?_
    rw [Array.getElem?_modify]
    split_ifs with at_k
    · rw [← at_k, ← slot?, found]
      rfl
    · rfl
  cases e with
  | insert n v =>
    rw [perform, insert, change, found]
    rfl
  | remove n =>
    rw [perform, remove, change, found]
    by_cases there : b.values.contains n
    · simp [Builtins.remove, Builtins.contains, Builtins.get?, Edit.applies, Edit.apply, Edit.name,
        there]
    · have missing : b.values[n]? = none := by simpa using there
      simp [Builtins.remove, Builtins.contains, Edit.applies, Edit.name, there, missing, same]

/-- A change in an empty slot is none. -/
theorem perform_edit_of_none (empty : s.slot? k = none) (e : Edit ν) :
    s.perform (.edit k e) = (none, s) := by
  cases e <;> simp [perform, insert, remove, change, empty]

theorem slot?_modify (found : s.slot? k = some b) (c : Builtins ν) (next : Nat) (j : Handle) :
    (⟨s.slots.modify k fun _ => c, next⟩ : Shelf ν).slot? j = if k = j then some c else s.slot? j := by
  rw [slot?, Array.getElem?_modify]
  split_ifs with same
  · rw [← same, ← slot?, found]
    rfl
  · rfl

/-- A new mapping for a handle looks like a new mapping in a slot with the next revision. -/
theorem Shows.renew (v : s.Shows x) {t : Shelf ν} {y : Storage ν} {m : IdentMap ν} (r : y.Renews x k m)
    (size : t.slots.size = y.size) (next : t.next = s.next + 1)
    (slot : ∀ j, t.slot? j = if j = k then some ⟨m, s.next⟩ else s.slot? j) : t.Shows y := by
  refine ⟨size, fun j => ?_, fun {i j b c} first second => ?_, fun {j b} found => ?_⟩
  · rw [slot, r.values, ← v.values]
    split_ifs <;> rfl
  · rw [slot] at first second
    rw [r.shares, Builtins.sharesWith]
    split_ifs at first second with at_i at_j at_j
    · cases first
      cases second
      simp [at_i, at_j]
    · cases first
      have older := v.revisions second
      simp [at_i, Ne.symm at_j]
      omega
    · cases second
      have older := v.revisions first
      simp [at_i, at_j]
      omega
    · simpa [at_i, at_j, Builtins.sharesWith] using v.shares first second
  · rw [slot] at found
    rw [next]
    split_ifs at found
    · cases found
      exact Nat.lt_succ_self _
    · exact Nat.lt_succ_of_lt (v.revisions found)

theorem Shows.create (v : s.Shows x) (c : x.Counted) (entries : List (Ident × ν)) :
    (s.addNew entries).Shows (x.create entries) := by
  refine v.renew (c.renews_create entries) ?_ rfl fun j => ?_
  · have size := v.size
    simpa [addNew, add, Storage.create, Storage.size] using size
  · rw [← v.size]
    exact slot?_add ..

theorem Shows.clone (v : s.Shows x) (c : x.Counted) (k : Handle) : (s.copy k).Shows (x.clone k) := by
  rw [copy]
  cases found : s.slot? k with
  | none =>
    have dead : x.place? k = none := by
      refine Option.eq_none_iff_forall_ne_some.mpr fun p placed => ?_
      obtain ⟨b, -, live⟩ := c.block placed
      rw [← v.values, found] at live
      cases live
    rwa [Storage.clone, dead]
  | some b =>
    have live : x.values? k = some b.values := by rw [← v.values, found, Option.map_some]
    obtain ⟨p, placed⟩ := Storage.exists_place live
    -- The new handle looks like its source, and so does the new slot.
    have slot : ∀ j, (s.add b).slot? j = s.slot? (if j = x.size then k else j) := fun j => by
      rw [slot?_add, v.size]
      split_ifs
      · exact found.symm
      · rfl
    have place : ∀ j, (x.clone k).place? j = x.place? (if j = x.size then k else j) := fun j => by
      rw [Storage.place?_clone]
      split_ifs <;> rfl
    refine ⟨?_, fun j => ?_, fun {i j _ _} first second => ?_, fun {j _} there => ?_⟩
    · have size := v.size
      rw [Storage.clone, placed]
      simpa [add, Storage.size] using size
    · rw [Option.elim_some, slot, v.values, Storage.values?_eq, Storage.values?_eq, place,
        Storage.valuesAt?_clone]
    · rw [Option.elim_some, slot] at first second
      rw [Storage.shares_congr (place i) (place j)]
      exact v.shares first second
    · rw [Option.elim_some, slot] at there
      exact v.revisions there

theorem Shows.edit (v : s.Shows x) (c : x.Counted) (k : Handle) (e : Edit ν) :
    (s.perform (.edit k e)).1 = (x.edit k e).1 ∧ (s.perform (.edit k e)).2.Shows (x.edit k e).2 := by
  cases found : s.slot? k with
  | none =>
    have dead : x.values? k = none := by rw [← v.values, found, Option.map_none]
    rw [Storage.edit_of_not_live dead, perform_edit_of_none found]
    exact ⟨rfl, v⟩
  | some b =>
    have live : x.values? k = some b.values := by rw [← v.values, found, Option.map_some]
    obtain ⟨told, changes⟩ := c.edit live e
    rw [perform_edit found]
    refine ⟨told.symm, ?_⟩
    split_ifs at changes ⊢ with applies
    · refine v.renew changes ?_ rfl fun j => ?_
      · rw [Storage.size_edit, ← v.size]
        exact Array.size_modify
      · rw [slot?_modify found]
        simp only [eq_comm]
    · rwa [changes]

/-- A shelf tells what storage tells, whatever is called. -/
theorem Shows.told (v : s.Shows x) (c : x.Counted) (call : StorageCall ν) :
    (s.perform call).1 = (x.perform call).1 := by
  cases call with
  | edit k e => exact (v.edit c k e).1
  | _ => rfl

theorem Shows.performAll (v : s.Shows x) (c : x.Counted) (calls : List (StorageCall ν))
    (kept : ∀ k, .release k ∉ calls) : (s.performAll calls).Shows (x.performAll calls) := by
  induction calls generalizing s x with
  | nil => exact v
  | cons call calls ih =>
    have step : (s.perform call).2.Shows (x.perform call).2 := by
      cases call with
      | create entries => exact v.create c entries
      | clone k => exact v.clone c k
      | edit k e => exact (v.edit c k e).2
      | release k => exact absurd (List.mem_cons_self ..) (kept k)
    exact ih step (c.perform call) fun k => mt (List.mem_cons_of_mem _) (kept k)

end Shelf

/-! ### Main result -/

namespace Storage

variable {ν : Type} {x : Storage ν}

/-- The last of several values of a name counts. -/
theorem getElem?_foldl_insert (entries : List (Ident × ν)) (n : Ident) :
    (entries.foldl (fun m e => m.insert e.1 e.2) (∅ : IdentMap ν))[n]?
      = (entries.reverse.find? fun e => e.1 = n).map Prod.snd := by
  induction entries using List.reverseRecOn with
  | nil => simp
  | append_singleton entries e ih =>
    rw [List.foldl_append, List.foldl_cons, List.foldl_nil, Std.ExtTreeMap.getElem?_insert, ih]
    by_cases same : e.1 = n <;> simp [same]

/-- A handle, a copy of it through which a name is removed, and a copy of the copy. -/
def patching : List (StorageCall Nat) :=
  [.create [(⟨1⟩, 10), (⟨2⟩, 20), (⟨1⟩, 11)], .clone 0, .edit 1 (.remove ⟨1⟩), .clone 1]

/-- What can be told of a handle in use, and of its copies, that stands for a mapping. -/
structure StandsFor (x : Storage ν) (k : Handle) (m : IdentMap ν) : Prop where
  clone : (x.clone k).values? x.size = some m ∧ (x.clone k).shares x.size k = true
  /-- Later it has the changes made through itself, whatever was done through others. -/
  later : ∀ more, .release k ∉ more →
    (x.performAll more).values? k = some ((editsOn k more).foldl Edit.apply m)
  get? : ∀ n, x.get? k n = m[n]?
  contains : ∀ n, x.contains k n = m.contains n
  count : x.count k = m.size
  /-- A change tells the value that the name had. -/
  told : ∀ e, (x.edit k e).1 = m[e.name]?
  idle : ∀ n, m[n]? = none → (x.edit k (.remove n)).2 = x
  /-- Any other change ends the sharing of the handle and no other. -/
  apart : ∀ e, e.applies m = true → ∀ i j,
    (x.edit k e).2.shares i j = if i = k ∨ j = k then decide (i = j) else x.shares i j
  same : ∀ l, x.shares k l = true → x.values? l = some m

/-- What can be told of storage after some calls. -/
structure Independent (calls : List (StorageCall ν)) (x : Storage ν) : Prop where
  /-- The last of several values of a name counts. -/
  create : ∀ entries, ∃ m, (x.create entries).values? x.size = some m ∧
    ∀ n, m[n]? = (entries.reverse.find? fun e => e.1 = n).map Prod.snd
  handle : ∀ k m, x.values? k = some m → StandsFor x k m
  refl : ∀ k, x.shares k k = (x.values? k).isSome
  symm : ∀ k l, x.shares k l = x.shares l k
  trans : ∀ i j k, x.shares i j = true → x.shares j k = true → x.shares i k = true
  /-- A shelf of mappings with revisions shows and tells the same as long as no handle is given up. -/
  shelf : (∀ k, .release k ∉ calls) → (Shelf.empty.performAll calls).Shows x ∧
    ∀ call, ((Shelf.empty.performAll calls).perform call).1 = (x.perform call).1

/-- Storage in which blocks are shared and copied looks like storage in which nothing is shared, except
    that one can ask which handles share, and a shelf of mappings with revisions looks the same. -/
theorem copies_are_independent (calls : List (StorageCall ν)) (here : empty.performAll calls = x) :
    Independent calls x := by
  have c : x.Counted := here ▸ counted_empty.performAll calls
  refine {
    create := fun entries => ⟨_, ?_, getElem?_foldl_insert entries⟩
    handle := fun k m live => ?_
    refl := c.shares_self
    symm := x.shares_comm
    trans := fun _ _ _ => shares_trans
    shelf := fun kept => ?_ }
  · rw [c.values?_create, if_pos rfl]
  · obtain ⟨p, placed⟩ := exists_place live
    refine {
      clone := ⟨?_, shares_iff.mpr ⟨p, ?_, ?_⟩⟩
      later := c.values?_performAll live
      get? := fun n => ?_
      contains := fun n => ?_
      count := ?_
      told := fun e => (c.edit live e).1
      idle := fun n missing => ?_
      apart := fun e applies => ?_
      same := fun l shared => ?_ }
    · rw [values?_clone, if_pos rfl, live]
    · rw [place?_clone, if_pos rfl, placed]
    · rw [place?_clone, if_neg (Nat.ne_of_lt (lt_size_of_place? placed)), placed]
    · rw [Storage.get?, live]
      rfl
    · rw [Storage.contains, live]
      rfl
    · rw [Storage.count, live]
      rfl
    · have idle : (Edit.remove n : Edit ν).applies m = false := by
        rw [Edit.applies, Std.ExtTreeMap.contains_eq_isSome_getElem?, missing, Option.isSome_none]
      simpa [idle] using (c.edit live (.remove n)).2
    · have changes := (c.edit live e).2
      rw [if_pos applies] at changes
      exact changes.shares
    · rw [← values?_eq_of_shares shared, live]
  · have shown : (Shelf.empty.performAll calls).Shows x :=
      here ▸ Shelf.shows_empty.performAll counted_empty calls kept
    exact ⟨shown, shown.told c⟩

theorem copies_are_independent_patching :
    (∃ m, (empty.performAll patching).values? 1 = some m ∧ m[(⟨2⟩ : Ident)]? = some 20 ∧
        ((empty.performAll patching).performAll [.edit 2 (.insert ⟨2⟩ 5), .release 0]).values? 1 =
          some m ∧
        (empty.performAll patching).values? 2 = some m ∧
        ((empty.performAll patching).edit 1 (.insert ⟨3⟩ 30)).2.shares 1 2 = false) ∧
      (empty.performAll patching).shares 0 1 = false ∧ (empty.performAll patching).shares 1 2 = true ∧
      (Shelf.empty.performAll patching).Shows (empty.performAll patching) ∧
      ((Shelf.empty.performAll patching).perform (.edit 0 (.insert ⟨1⟩ 12))).1 = some 11 := by
  have alone := copies_are_independent patching rfl
  have shared : (empty.performAll patching).shares 1 2 = true := by decide
  have first : (empty.performAll patching).values? 0 = some ((∅ : IdentMap Nat).insert ⟨1⟩ 10
      |>.insert ⟨2⟩ 20 |>.insert ⟨1⟩ 11) := rfl
  have copied :
      (empty.performAll patching).values? 1 = some (Edit.apply ((∅ : IdentMap Nat).insert ⟨1⟩ 10
      |>.insert ⟨2⟩ 20 |>.insert ⟨1⟩ 11) (.remove ⟨1⟩)) := rfl
  have second := alone.handle 1 _ copied
  obtain ⟨shown, told⟩ := alone.shelf (by simp [patching])
  refine ⟨⟨_, copied, by decide, ?_, second.same 2 shared, ?_⟩, by decide, shared, shown, ?_⟩
  · exact second.later [.edit 2 (.insert ⟨2⟩ 5), .release 0] (by simp)
  · rw [second.apart (.insert ⟨3⟩ 30) rfl]
    rfl
  · exact (told _).trans (((alone.handle 0 _ first).told _).trans (by decide))

end Storage

end Scoping
