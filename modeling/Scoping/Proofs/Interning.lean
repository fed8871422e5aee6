import Mathlib.Data.List.Nodup
import Mathlib.Data.List.Induction
import Scoping.Interner
import Scoping.Spellings

/-! Interning. A table of spellings lists the strings that it has seen in the order of their first
    sight, after the empty string. The two tables of an interner say the same as such a list, the
    one where a spelling stands and the other what stands at a position, and entering a string keeps
    them in step. Looking a string up before it is entered makes no difference, so it does not
    matter what other handles do in between, and since a list only grows at its end, an identifier
    keeps its spelling for ever. -/

namespace Scoping

namespace Spellings

variable {t : Spellings} {ss : List String} {s : String} {n : Ident}

/-! ### First sights -/

/-- One more string is a first sight unless it has been seen. -/
theorem eraseDups_concat (ss : List String) (s : String) :
    (ss ++ [s]).eraseDups = if s ∈ ss then ss.eraseDups else ss.eraseDups ++ [s] := by
  rw [List.eraseDups_append]
  by_cases seen : s ∈ ss
  · simp [List.removeAll, seen]
  · simp [List.removeAll, seen, List.eraseDups_cons]

theorem nodup_eraseDups (ss : List String) : ss.eraseDups.Nodup := by
  induction ss using List.reverseRecOn with
  | nil => simp
  | append_singleton ss s ih =>
    rw [eraseDups_concat]
    split_ifs with seen
    · exact ih
    · rw [← List.concat_eq_append]
      exact ih.concat (mt List.mem_eraseDups.mp seen)

theorem get?_eq (t : Spellings) (s : String) :
    t.get? s = if s ∈ t.toList then some ⟨t.toList.idxOf s⟩ else none := by
  rw [get?]
  split_ifs with listed
  · have found := List.idxOf_eq_getD_idxOf? s t.toList
    obtain ⟨i, hi⟩ := Option.ne_none_iff_exists'.mp (mt List.idxOf?_eq_none_iff.mp (not_not.mpr listed))
    rw [hi] at found ⊢
    simp [found]
  · simp [List.idxOf?_eq_none_iff.mpr listed]

theorem toList_intern (t : Spellings) (s : String) :
    (t.intern s).2.toList = if s ∈ t.toList then t.toList else t.toList ++ [s] := by
  rw [intern, get?_eq]
  split_ifs <;> rfl

/-- The identifier of a string is its position in the list that it is in afterwards. -/
theorem intern_fst (t : Spellings) (s : String) : (t.intern s).1 = ⟨(t.intern s).2.toList.idxOf s⟩ := by
  rw [toList_intern, intern, get?_eq]
  split_ifs with listed
  · rfl
  · simp [List.idxOf_append, listed, size]

theorem ofList_concat (ss : List String) (s : String) : ofList (ss ++ [s]) = ((ofList ss).intern s).2 :=
  List.foldl_concat ..

/-- A table lists the first sights of what it has seen. -/
theorem toList_ofList (ss : List String) : (ofList ss).toList = ("" :: ss).eraseDups := by
  induction ss using List.reverseRecOn with
  | nil => rfl
  | append_singleton ss s ih =>
    rw [ofList_concat, toList_intern, ih, ← List.cons_append, eraseDups_concat]
    simp only [List.mem_eraseDups]

/-- An identifier is found under its spelling and nowhere else, as long as no spelling is
    listed twice. -/
theorem get?_eq_some (distinct : t.toList.Nodup) :
    t.get? s = some n ↔ t.spell n = s ∧ n.index < t.size := by
  rw [get?_eq, spell, size, List.getD_eq_getElem?_getD]
  constructor
  · intro found
    split_ifs at found with listed
    obtain rfl := Option.some.inj found
    have inside := List.idxOf_lt_length_of_mem listed
    simp [inside]
  · rintro ⟨rfl, inside⟩
    simp [inside, distinct.idxOf_getElem]

theorem spell_of_size_le (outside : t.size ≤ n.index) : t.spell n = "" := by
  rw [spell, List.getD_eq_getElem?_getD, List.getElem?_eq_none outside, Option.getD_none]

end Spellings

namespace Interner

variable {i after : Interner} {t : Spellings} {s : String} {n : Ident}

/-! ### The two tables -/

/-- An interner whose two tables both say what a list of spellings says. -/
structure Lists (i : Interner) (t : Spellings) : Prop where
  spellings : i.spellings.toList = t.toList
  names : ∀ s, i.get? s = t.get? s

theorem lists_new : new.Lists .empty where
  spellings := rfl
  names s := by
    rw [get?, new, Std.ExtTreeMap.getElem?_insert, Spellings.get?_eq]
    by_cases empty : s = ""
    · simp [empty, Spellings.empty, Spellings.toList, Ident.empty]
    · simp [empty, Ne.symm empty, Spellings.empty, Spellings.toList]

namespace Lists

theorem size (l : i.Lists t) : i.size = t.size := by
  rw [Interner.size, ← Array.length_toList, l.spellings, Spellings.size]

theorem spell (l : i.Lists t) (n : Ident) : i.spell n = t.spell n := by
  rw [Interner.spell, ← Array.getElem?_toList, l.spellings, Spellings.spell, List.getD_eq_getElem?_getD]

/-- Entering a string keeps the two tables in step, if the string is listed or an identifier is left. -/
theorem enter (l : i.Lists t) (room : s ∈ t.toList ∨ t.size < capacity) :
    ∃ after, i.enter s = some ((t.intern s).1, after) ∧ after.Lists (t.intern s).2 := by
  rw [Interner.enter, Spellings.intern, l.names, Spellings.get?_eq]
  by_cases listed : s ∈ t.toList
  · rw [if_pos listed]
    exact ⟨i, rfl, l⟩
  · have free : i.size < capacity := l.size ▸ room.resolve_left listed
    rw [if_neg listed]
    refine ⟨⟨i.names.insert s ⟨i.size⟩, i.spellings.push s⟩, ?_, ?_, fun r => ?_⟩
    · rw [if_pos free, l.size]
    · rw [Array.toList_push, l.spellings]
      rfl
    · have old : i.names[r]? = t.get? r := l.names r
      have grown : Spellings.toList ⟨t.later ++ [s]⟩ = t.toList ++ [s] := rfl
      rw [get?, Std.ExtTreeMap.getElem?_insert, old, Spellings.get?_eq, Spellings.get?_eq, grown, l.size]
      by_cases same : s = r
      · subst same
        simp [listed, List.idxOf_append, Spellings.size]
      · by_cases there : r ∈ t.toList
        · simp [same, there, List.idxOf_append]
        · simp [same, there, Ne.symm same]

end Lists

/-- Looking a string up before it is entered makes no difference. -/
theorem intern_eq_enter (i : Interner) (s : String) : i.intern s = i.enter s := by
  rw [intern, enter]
  cases i.get? s <;> rfl

/-- An interner that another has grown out of: what was listed is still listed, at the same position. -/
structure Grows (i after : Interner) : Prop where
  spellings : i.spellings.toList <+: after.spellings.toList
  names : ∀ s n, i.get? s = some n → after.get? s = some n

namespace Grows

theorem refl (i : Interner) : i.Grows i := ⟨List.prefix_refl _, fun _ _ => id⟩

theorem trans {last : Interner} (g : i.Grows after) (l : after.Grows last) : i.Grows last :=
  ⟨g.spellings.trans l.spellings, fun s n found => l.names s n (g.names s n found)⟩

/-- Entering a string adds at the end, and only what is not listed. -/
theorem enter (entered : i.enter s = some (n, after)) : i.Grows after := by
  rw [Interner.enter] at entered
  split at entered
  · cases entered
    exact .refl _
  · rename_i missing
    split_ifs at entered
    cases entered
    refine ⟨⟨[s], (Array.toList_push ..).symm⟩, fun r m found => ?_⟩
    have other : s ≠ r := by
      rintro rfl
      simp [missing] at found
    simpa [get?, Std.ExtTreeMap.getElem?_insert, other] using found

theorem spell (g : i.Grows after) (inside : n.index < i.size) : after.spell n = i.spell n := by
  obtain ⟨more, eq⟩ := g.spellings
  have inside : n.index < i.spellings.toList.length := inside
  rw [Interner.spell, Interner.spell, ← Array.getElem?_toList, ← Array.getElem?_toList, ← eq,
    List.getElem?_append_left inside]

end Grows

end Interner

namespace Interners

variable {x : Interners} {k place : Nat} {s : String} {i after : Interner} {n : Ident} {c : InternerCall}
  {seen : Nat → List String}

/-! ### One call -/

theorem perform_intern (x : Interners) (k : Nat) (s : String) :
    x.perform (.intern k s) = x.perform (.enter k s) := by
  have same : (fun i : Interner => i.intern s) = fun i => i.enter s :=
    funext fun i => i.intern_eq_enter s
  rw [perform, perform, same]

theorem perform_enter (linked : x.links[k]? = some place) (here : x.tables[place]? = some i) :
    x.perform (.enter k s) = (i.enter s).elim (.full, x) fun r =>
      (.name r.1, { x with tables := x.tables.setIfInBounds place r.2 }) := by
  rw [perform, change, table?, linked, Option.bind_some, here, Option.map_some]
  cases i.enter s <;> rfl

theorem perform_of_not_linked (free : x.links[k]? = none) (s : String) :
    (x.perform (.enter k s)).2 = x := by
  rw [perform, change, free]

/-- The strings that a call interns in the interner at a place. -/
def stringsOf (x : Interners) (place : Nat) : InternerCall → List String
  | .enter k s | .intern k s => if x.links[k]? = some place then [s] else []
  | .new | .clone _ | .get _ _ | .spell _ _ => []

/-- The strings that calls intern in the interner at a place, in order, through whatever handles. -/
def internedIn (place : Nat) : Interners → List InternerCall → List String
  | _, [] => []
  | x, c :: calls => x.stringsOf place c ++ internedIn place (x.perform c).2 calls

/-! ### All calls -/

/-- Whether there are identifiers for all the strings of a list. -/
def Fits (ss : List String) : Prop := ("" :: ss).eraseDups.length ≤ Interner.capacity

theorem fits_of_append {ss more : List String} (fits : Fits (ss ++ more)) : Fits ss := by
  rw [Fits, ← List.cons_append, List.eraseDups_append, List.length_append] at fits
  exact Nat.le_of_add_right_le fits

/-- Fewer distinct strings than there are identifiers leave one for the empty string. -/
theorem fits_of_few {ss : List String} (few : ss.eraseDups.length < Interner.capacity) : Fits ss := by
  have kept : (ss.filter fun s => !s == "").eraseDups ⊆ ss.eraseDups := by
    intro s hs
    rw [List.mem_eraseDups] at hs ⊢
    exact List.mem_of_mem_filter hs
  have le := (Spellings.nodup_eraseDups _).length_le_of_subset kept
  rw [Fits, List.eraseDups_cons, List.length_cons]
  omega

/-- Interners that have been told what is noted for each place, and list it. -/
structure Told (x : Interners) (seen : Nat → List String) : Prop where
  linked : ∀ k place : Nat, x.links[k]? = some place → place < x.tables.size
  lists : ∀ (place : Nat) (i : Interner), x.tables[place]? = some i → Fits (seen place) →
    i.Lists (.ofList (seen place))
  unseen : ∀ place : Nat, x.tables.size ≤ place → seen place = []

theorem told_start : start.Told fun _ => [] where
  linked k place linked := by
    rcases k with _ | k
    · cases linked
      exact Nat.zero_lt_one
    · cases linked
  lists place i here _ := by
    rcases place with _ | place
    · cases here
      exact Interner.lists_new
    · cases here
  unseen _ _ := rfl

theorem Told.room (told : x.Told seen) (here : x.tables[place]? = some i)
    (fits : Fits (seen place ++ [s])) : i.Lists (.ofList (seen place)) ∧
      (s ∈ (Spellings.ofList (seen place)).toList ∨
        (Spellings.ofList (seen place)).size < Interner.capacity) := by
  refine ⟨told.lists place i here (fits_of_append fits), ?_⟩
  rw [Fits, ← List.cons_append, Spellings.eraseDups_concat] at fits
  rw [Spellings.size, Spellings.toList_ofList, List.mem_eraseDups]
  split_ifs at fits with listed
  · exact .inl listed
  · rw [List.length_append] at fits
    exact .inr fits

theorem Told.enter (told : x.Told seen) (k : Nat) (s : String) :
    (x.perform (.enter k s)).2.Told fun place => seen place ++ x.stringsOf place (.enter k s) := by
  cases linked : x.links[k]? with
  | none =>
    rw [perform_of_not_linked linked]
    simpa [stringsOf, linked] using told
  | some p =>
    have inside := told.linked k p linked
    have here : x.tables[p]? = some x.tables[p] := Array.getElem?_eq_getElem inside
    have unseen (place : Nat) (out : x.tables.size ≤ place) :
        seen place ++ x.stringsOf place (.enter k s) = [] := by
      have away : p ≠ place := Nat.ne_of_lt (Nat.lt_of_lt_of_le inside out)
      simp [stringsOf, linked, told.unseen place out, away]
    rw [perform_enter linked here]
    cases entered : x.tables[p].enter s with
    | none =>
      refine ⟨told.linked, fun place i found fits => ?_, unseen⟩
      by_cases own : p = place
      · subst own
        obtain rfl : x.tables[p] = i := Option.some.inj (here.symm.trans found)
        simp only [stringsOf, linked, if_true] at fits
        obtain ⟨lists, room⟩ := told.room here fits
        obtain ⟨after, done, -⟩ := lists.enter room
        rw [entered] at done
        cases done
      · simp only [stringsOf, linked, Option.some.injEq, own, if_false, List.append_nil] at fits ⊢
        exact told.lists place i found fits
    | some r =>
      refine ⟨fun j place link => ?_, fun place i found fits => ?_, fun place out => unseen place ?_⟩
      · simpa using told.linked j place link
      · rw [Option.elim_some, Array.getElem?_setIfInBounds] at found
        by_cases own : p = place
        · subst own
          simp only [inside, if_true, Option.some.injEq] at found
          subst found
          simp only [stringsOf, linked, if_true] at fits ⊢
          obtain ⟨lists, room⟩ := told.room here fits
          obtain ⟨after, done, grown⟩ := lists.enter room
          rw [entered] at done
          cases done
          rwa [Spellings.ofList_concat]
        · rw [if_neg own] at found
          simp only [stringsOf, linked, Option.some.injEq, own, if_false, List.append_nil] at fits ⊢
          exact told.lists place i found fits
      · simpa using out

theorem Told.perform (told : x.Told seen) (c : InternerCall) :
    (x.perform c).2.Told fun place => seen place ++ x.stringsOf place c := by
  cases c with
  | enter k s => exact told.enter k s
  | intern k s =>
    rw [perform_intern]
    exact told.enter k s
  | get k s | spell k n => simpa [Interners.perform, stringsOf] using told
  | clone k =>
    cases link : x.links[k]? with
    | none => simpa [Interners.perform, link, stringsOf] using told
    | some p =>
      refine ⟨fun j place linked => ?_, ?_, ?_⟩
      · simp only [Interners.perform, link, Array.getElem?_push] at linked ⊢
        split_ifs at linked
        · exact Option.some.inj linked ▸ told.linked k p link
        · exact told.linked j place linked
      · simpa [Interners.perform, link, stringsOf] using told.lists
      · simpa [Interners.perform, link, stringsOf] using told.unseen
  | new =>
    simp only [Interners.perform, stringsOf, List.append_nil]
    refine ⟨fun j place linked => ?_, fun place i found fits => ?_, fun place out => ?_⟩
    · rw [Array.getElem?_push] at linked
      rw [Array.size_push]
      split_ifs at linked
      · cases linked
        exact Nat.lt_succ_self _
      · exact Nat.lt_succ_of_lt (told.linked j place linked)
    · rw [Array.getElem?_push] at found
      split_ifs at found with last
      · cases found
        rw [last, told.unseen _ (Nat.le_refl _)]
        exact Interner.lists_new
      · exact told.lists place i found fits
    · rw [Array.size_push] at out
      exact told.unseen place (Nat.le_of_succ_le out)

theorem Told.performAll (told : x.Told seen) (calls : List InternerCall) :
    (x.performAll calls).Told fun place => seen place ++ internedIn place x calls := by
  induction calls generalizing x seen with
  | nil => simpa [Interners.performAll, internedIn] using told
  | cons c calls ih => simpa [Interners.performAll, internedIn] using ih (told.perform c)

theorem performAll_append (calls more : List InternerCall) (x : Interners) :
    x.performAll (calls ++ more) = (x.performAll calls).performAll more := by
  induction calls generalizing x with
  | nil => rfl
  | cons c calls ih => exact ih (x.perform c).2

theorem internedIn_append (place : Nat) (calls more : List InternerCall) (x : Interners) :
    internedIn place x (calls ++ more) =
      internedIn place x calls ++ internedIn place (x.performAll calls) more := by
  induction calls generalizing x with
  | nil => rfl
  | cons c calls ih => simp [internedIn, performAll, ih]

/-- Whatever is called, an interner stays where it is and grows. -/
theorem grows_perform (here : x.tables[place]? = some i) (c : InternerCall) :
    ∃ after, (x.perform c).2.tables[place]? = some after ∧ i.Grows after := by
  have same : ∃ after, x.tables[place]? = some after ∧ i.Grows after := ⟨i, here, .refl i⟩
  have inside := (Array.getElem?_eq_some_iff.mp here).1
  have change (k : Nat) (s : String) :
      ∃ after, (x.perform (.enter k s)).2.tables[place]? = some after ∧ i.Grows after := by
    rw [perform, Interners.change]
    split
    · rename_i p n last linked entered
      rw [Array.getElem?_setIfInBounds]
      by_cases own : p = place
      · subst own
        simp only [table?, linked, Option.bind_some, here, Option.map_some, Option.some.injEq] at entered
        exact ⟨last, by rw [if_pos rfl, if_pos inside], .enter entered⟩
      · rwa [if_neg own]
    · exact same
    · exact same
  cases c with
  | enter k s => exact change k s
  | intern k s => exact perform_intern x k s ▸ change k s
  | get k s | spell k n => exact same
  | clone k =>
    rw [perform]
    split <;> exact same
  | new => exact ⟨i, by rw [perform, Array.getElem?_push, if_neg (Nat.ne_of_lt inside), here], .refl i⟩

theorem grows_performAll (calls : List InternerCall) (here : x.tables[place]? = some i) :
    ∃ after, (x.performAll calls).tables[place]? = some after ∧ i.Grows after := by
  induction calls generalizing x i with
  | nil => exact ⟨i, here, .refl i⟩
  | cons c calls ih =>
    obtain ⟨next, there, grows⟩ := grows_perform here c
    obtain ⟨after, last, further⟩ := ih there
    exact ⟨after, last, grows.trans further⟩

/-- An interner answers with the position of a string in the list that it has in the end. -/
theorem Told.answer (told : x.Told seen) (linked : x.links[k]? = some place)
    (fits : Fits (seen place ++ [s]))
    (calls : List InternerCall)
    (last : ((x.perform (.enter k s)).2.performAll calls).tables[place]? = some i) :
    (x.perform (.enter k s)).1 = .name ⟨i.spellings.toList.idxOf s⟩ := by
  have inside := told.linked k place linked
  have here : x.tables[place]? = some x.tables[place] := Array.getElem?_eq_getElem inside
  obtain ⟨lists, room⟩ := told.room here fits
  obtain ⟨after, entered, grown⟩ := lists.enter room
  rw [perform_enter linked here, entered, Option.elim_some] at last ⊢
  have there : { x with tables := x.tables.setIfInBounds place after : Interners }.tables[place]? =
    some after := by
    simp [inside]
  obtain ⟨final, eq, grows⟩ := grows_performAll calls there
  obtain rfl : final = i := Option.some.inj (eq.symm.trans last)
  have listed : s ∈ after.spellings.toList := by
    rw [grown.spellings, Spellings.toList_intern]
    split_ifs with old <;> simp [old]
  obtain ⟨more, eq⟩ := grows.spellings
  rw [Spellings.intern_fst, ← grown.spellings, ← eq, List.idxOf_append_of_mem listed]

/-! ### Main result -/

/-- What an interner tells after calls in which some strings were interned in it. -/
structure ListsFirstSights (calls : List InternerCall) (place : Nat) (i : Interner) : Prop where
  list : i.spellings.toList = ("" :: internedIn place start calls).eraseDups
  /-- A string gets its position in the list, at any time, whether it is looked up first or not. -/
  answers : ∀ before after k s, calls = before ++ .intern k s :: after ∨
    calls = before ++ .enter k s :: after → (start.performAll before).links[k]? = some place →
      ((start.performAll before).perform (.intern k s)).1 = .name ⟨i.spellings.toList.idxOf s⟩ ∧
      (start.performAll before).perform (.intern k s) = (start.performAll before).perform (.enter k s)
  found : ∀ s n, i.get? s = some n ↔ i.spell n = s ∧ n.index < i.size
  missing : ∀ s, i.get? s = none ↔ s ≠ "" ∧ s ∉ internedIn place start calls
  outside : ∀ n, i.size ≤ n.index → i.spell n = ""
  distinct : ∀ r s n, i.get? r = some n → i.get? s = some n → r = s
  /-- Later calls only add to the list. -/
  stable : ∀ more, ∃ later, ((start.performAll calls).performAll more).tables[place]? = some later ∧
    i.spellings.toList <+: later.spellings.toList ∧
    (∀ n, n.index < i.size → later.spell n = i.spell n) ∧ ∀ s n, i.get? s = some n →
      later.get? s = some n
  get : ∀ k, (start.performAll calls).links[k]? = some place → ∀ s,
    (start.performAll calls).perform (.get k s) = (.found (i.get? s), start.performAll calls)
  spell : ∀ k, (start.performAll calls).links[k]? = some place → ∀ n,
    (start.performAll calls).perform (.spell k n) = (.spelling (i.spell n), start.performAll calls)
  clone : ∀ k, (start.performAll calls).links[k]? = some place →
    let r := (start.performAll calls).perform (.clone k)
    r.1 = .handle (start.performAll calls).links.size ∧
      r.2.links[(start.performAll calls).links.size]? = some place ∧
      r.2.tables = (start.performAll calls).tables
  /-- A table of spellings that has seen the same strings lists the same. -/
  spellings : i.Lists (Spellings.ofList (internedIn place start calls))
  further : ∀ s, (internedIn place start calls ++ [s]).eraseDups.length < Interner.capacity →
    let r := (Spellings.ofList (internedIn place start calls)).intern s
    ∃ after, i.intern s = some (r.1, after) ∧ after.Lists r.2

/-- An interner lists the strings ever interned in it in the order of their first
    sight, after the empty one, and each is found under its position there for good. -/
theorem lists_first_sights {calls : List InternerCall} {x : Interners} {place : Nat} {i : Interner}
    (ran : start.performAll calls = x) (here : x.tables[place]? = some i)
    (few : (internedIn place start calls).eraseDups.length < Interner.capacity) :
    ListsFirstSights calls place i := by
  subst ran
  have told := told_start.performAll calls
  simp only [List.nil_append] at told
  have fits := fits_of_few few
  have lists := told.lists place i here fits
  have list : i.spellings.toList = ("" :: internedIn place start calls).eraseDups := by
    rw [lists.spellings, Spellings.toList_ofList]
  have distinct : (Spellings.ofList (internedIn place start calls)).toList.Nodup := by
    rw [Spellings.toList_ofList]
    exact Spellings.nodup_eraseDups _
  have found (s : String) (n : Ident) : i.get? s = some n ↔ i.spell n = s ∧ n.index < i.size := by
    rw [lists.names, lists.spell, lists.size]
    exact Spellings.get?_eq_some distinct
  have table {k : Nat} (linked : (start.performAll calls).links[k]? = some place) :
      (start.performAll calls).table? k = some i := by
    rw [table?, linked, Option.bind_some, here]
  refine {
    list := list
    answers := fun before after k s split linked => ⟨?_, perform_intern ..⟩
    found := found
    missing := fun s => ?_
    outside := fun n outside => ?_
    distinct := fun r s n hr hs => ?_
    stable := fun more => ?_
    get := fun k linked s => by simp [perform, table linked]
    spell := fun k linked n => by simp [perform, table linked]
    clone := fun k linked => by simp [perform, linked]
    spellings := lists
    further := fun s few => ?_ }
  · -- one of the two calls stands here, and they are the same
    obtain ⟨c, rfl, same, strings⟩ : ∃ c, calls = before ++ c :: after ∧
        (start.performAll before).perform c = (start.performAll before).perform (.enter k s) ∧
        (start.performAll before).stringsOf place c = [s] := by
      rcases split with eq | eq
      · exact ⟨_, eq, perform_intern .., if_pos linked⟩
      · exact ⟨_, eq, rfl, if_pos linked⟩
    have first := told_start.performAll before
    simp only [List.nil_append] at first
    rw [internedIn_append, internedIn, strings, ← List.append_assoc] at fits
    rw [performAll_append, performAll, same] at here
    rw [perform_intern]
    exact first.answer linked (fits_of_append fits) after here
  · rw [lists.names, Spellings.get?_eq, Spellings.toList_ofList]
    simp
  · rw [lists.size] at outside
    rw [lists.spell, Spellings.spell_of_size_le outside]
  · rw [← ((found r n).mp hr).1, ← ((found s n).mp hs).1]
  · obtain ⟨later, there, grows⟩ := grows_performAll more here
    exact ⟨later, there, grows.spellings, fun n inside => grows.spell inside, grows.names⟩
  · rw [Interner.intern_eq_enter]
    obtain ⟨-, room⟩ := told.room here (fits_of_few few)
    exact lists.enter room

/-- Strings that are interned through three handles, of which two stand for one interner. -/
def threeHandles : List InternerCall :=
  [.intern 0 "x", .clone 0, .new, .intern 1 "y", .intern 2 "z", .get 1 "w", .intern 0 "y", .intern 1 "",
   .spell 0 ⟨2⟩, .enter 0 "x", .intern 1 "w"]

theorem lists_first_sights_threeHandles : ∃ i,
    (start.performAll threeHandles).tables[0]? = some i ∧ i.spellings.toList = ["", "x", "y", "w"] ∧
      ((start.performAll (threeHandles.take 6)).perform (.intern 0 "y")).1 = .name ⟨2⟩ ∧
      i.get? "z" = none ∧ i.spell ⟨7⟩ = "" ∧
      (start.performAll threeHandles).perform (.get 1 "w") =
        (.found (some ⟨3⟩), start.performAll threeHandles) := by
  have strings : internedIn 0 start threeHandles = ["x", "y", "y", "", "x", "w"] := by decide +kernel
  have sights : ("" :: internedIn 0 start threeHandles).eraseDups = ["", "x", "y", "w"] := by
    rw [strings]
    decide +kernel
  obtain ⟨i, here⟩ : ∃ i, (start.performAll threeHandles).tables[0]? = some i := ⟨_, rfl⟩
  have few : (internedIn 0 start threeHandles).eraseDups.length < Interner.capacity := by
    rw [strings]
    decide +kernel
  have lists := lists_first_sights rfl here few
  have list := lists.list
  rw [sights] at list
  have size : i.size = 4 := by rw [Interner.size, ← Array.length_toList, list]; rfl
  have spelled : i.spell ⟨3⟩ = "w" := by rw [Interner.spell, ← Array.getElem?_toList, list]; rfl
  refine ⟨i, here, list, ?_, (lists.missing "z").mpr ?_, lists.outside ⟨7⟩ (by rw [size]; decide), ?_⟩
  · rw [(lists.answers _ _ 0 "y" (.inl rfl) (by decide +kernel)).1, list]
    rfl
  · rw [strings]
    decide
  · rw [lists.get 1 (by decide +kernel) "w", (lists.found "w" ⟨3⟩).mpr ⟨spelled, by rw [size]; decide⟩]

end Interners

end Scoping
