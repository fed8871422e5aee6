import Scoping.Proofs.Resolution

/-! The nearest binder. A search outward ends at the first closed scope with something definite to say
    of the name, and a scope that captures the name passes on the target that it has recorded, whatever
    the scopes between have come to say since. The target of a search need therefore not be the nearest
    scope that binds the name. It is in a straight tree, where no scope between one that captures a
    name and the target speaks for the name otherwise; and settling leaves a straight tree straight. -/

namespace Scoping

namespace ScopeTree

variable {π : Type} {t u : ScopeTree π} {s target : ScopeId} {n : Ident}

/-! ### Searches that end at the nearest binder -/

/-- The closed scopes around the first of those around a scope are the others. -/
theorem WellFormed.closedAround_cons (h : t.WellFormed) {a : ScopeId} {rest : List ScopeId}
    (way : t.closedAround s = a :: rest) : a ≠ ScopeId.root ∧ t.closedAround a = rest := by
  have split : t.closedAround s = [] ++ a :: rest := way
  refine ⟨?_, h.closedAround_split split⟩
  rintro rfl
  exact h.root_not_mem_closedAround s (way ▸ List.mem_cons_self)

/-- Along a list of scopes the first to bind a name is the target, and each before it leaves the
    name open or captures it from there. -/
inductive Nearest (t : ScopeTree π) (n : Ident) (target : ScopeId) : List ScopeId → Prop
  | here (bound : t.entryAt? target n = some .bound) (rest : List ScopeId) :
      Nearest t n target (target :: rest)
  | further {a : ScopeId} {rest : List ScopeId}
      (passes : t.Undecided a n ∨ t.entryAt? a n = some (.captured target))
      (onward : Nearest t n target rest) : Nearest t n target (a :: rest)

namespace Nearest

variable {around : List ScopeId}

theorem bound (k : t.Nearest n target around) : t.entryAt? target n = some .bound := by
  induction k with
  | here bound => exact bound
  | further _ _ ih => exact ih

theorem split (k : t.Nearest n target around) : ∃ before after, around = before ++ target :: after ∧
    ∀ a ∈ before, t.Undecided a n ∨ t.entryAt? a n = some (.captured target) := by
  induction k with
  | here bound rest => exact ⟨[], rest, rfl, fun _ ha => absurd ha List.not_mem_nil⟩
  | @further a rest passes _ ih =>
    obtain ⟨before, after, rfl, between⟩ := ih
    exact ⟨a :: before, after, rfl, List.forall_mem_cons.mpr ⟨passes, between⟩⟩

theorem captureAmong? (k : t.Nearest n target around) : t.captureAmong? n around = some target := by
  induction k with
  | here bound rest => rw [ScopeTree.captureAmong?, bound]
  | further passes _ ih =>
    rcases passes with (absent | used) | captured
    · rw [ScopeTree.captureAmong?, absent, ih]
    · rw [ScopeTree.captureAmong?, used, ih]
    · rw [ScopeTree.captureAmong?, captured]

/-- Only the scopes of the list matter. -/
theorem congr (k : t.Nearest n target around) (same : ∀ a ∈ around, u.entryAt? a n = t.entryAt? a n) :
    u.Nearest n target around := by
  induction k with
  | here bound rest => exact .here ((same target List.mem_cons_self).trans bound) rest
  | @further a rest passes _ ih =>
    obtain ⟨first, others⟩ := List.forall_mem_cons.mp same
    exact .further (by rwa [Undecided, first]) (ih others)

end Nearest

/-- Every scope that captures a name captures it from the nearest scope that binds it. -/
def Straight (t : ScopeTree π) : Prop :=
  ∀ s n target, t.entryAt? s n = some (.captured target) → t.Nearest n target (t.closedAround s)

theorem straight_new (payload : π) : (ScopeTree.new payload).Straight := by
  intro s n target captured
  have absent : (ScopeTree.new payload).entryAt? s n = none := by
    cases s <;> rfl
  rw [absent] at captured
  cases captured

/-- In a straight tree a search ends at the nearest scope that binds the name. -/
theorem Straight.captureAmong? (k : t.Straight) (h : t.WellFormed) :
    ∀ (around : List ScopeId) {s : ScopeId},
    t.closedAround s = around → t.captureAmong? n around = some target → t.Nearest n target around
  | [], _, _, found => by cases found
  | a :: rest, s, way, found => by
    have around := (h.closedAround_cons way).2
    rw [ScopeTree.captureAmong?] at found
    split at found
    · rename_i bound
      cases found
      exact .here bound rest
    · rename_i recorded captured
      cases found
      exact .further (.inr captured) (around ▸ k a n _ captured)
    · cases found
    · rename_i used
      exact .further (.inl (.inr used)) (k.captureAmong? h rest around found)
    · rename_i absent
      exact .further (.inl (.inl absent)) (k.captureAmong? h rest around found)

theorem Straight.capture? (k : t.Straight) (h : t.WellFormed) (found : t.capture? s n = some target) :
    t.Nearest n target (t.closedAround s) :=
  k.captureAmong? h _ rfl found

/-! ### Straight trees that are settled -/

/-- An entry that was settled before stays. -/
theorem Settled.entryAt?_eq (k : Settled t u) (inner : s ≠ ScopeId.root) {e : Option Entry}
    (entry : t.entryAt? s n = e) (settled : e ≠ some .used) : u.entryAt? s n = e :=
  (k.kept s n inner (entry ▸ settled)).trans entry

/-- A name that is captured once the tree is settled was captured before, or a search has
    found its target. -/
theorem Settled.captured_cases (k : Settled t u) (h : t.WellFormed)
    (captured : u.entryAt? s n = some (.captured target)) :
    t.entryAt? s n = some (.captured target) ∨ t.capture? s n = some target := by
  cases entry : t.entryAt? s n with
  | none =>
    rcases k.of_absent entry with absent | ⟨-, noted⟩
    · rw [absent] at captured
      cases captured
    · rw [noted] at captured
      cases captured
  | some e =>
    by_cases used : e = .used
    · subst used
      rw [k.of_used h entry] at captured
      cases found : t.capture? s n with
      | none =>
        rw [found] at captured
        cases captured
      | some target' =>
        rw [found] at captured
        cases captured
        exact .inr rfl
    · rw [k.of_ne_used entry used] at captured
      exact .inl captured

/-- A name that was open in a scope before the target is captured from there as well. -/
theorem Nearest.settled {around : List ScopeId} (nearest : t.Nearest n target around) (k : Settled t u)
    (h : t.WellFormed) (way : t.closedAround s = around) : u.Nearest n target around := by
  induction nearest generalizing s with
  | here bound rest =>
    have inner := (h.closedAround_cons way).1
    exact .here (k.entryAt?_eq inner bound (by rintro ⟨⟩)) rest
  | @further a rest passes onward ih =>
    obtain ⟨inner, around⟩ := h.closedAround_cons way
    refine .further ?_ (ih around)
    rcases passes with (absent | used) | captured
    · exact .inl (.inl (k.entryAt?_eq inner absent (by rintro ⟨⟩)))
    · have found : t.capture? a n = some target := by rw [capture?, around, onward.captureAmong?]
      exact .inr (k.captured a n target inner used found)
    · exact .inr (k.entryAt?_eq inner captured (by rintro ⟨⟩))

theorem Straight.settled (k : t.Straight) (h : t.WellFormed) (settled : Settled t u) : u.Straight := by
  intro s n target captured
  have before : t.Nearest n target (t.closedAround s) := by
    rcases settled.captured_cases h captured with captured | found
    · exact k s n target captured
    · exact k.capture? h found
  rw [settled.same.closedAround]
  exact before.settled settled h rfl

/-! ### Names that fall through -/

/-- A name that is global for want of a declaration has fallen through. -/
theorem Settled.fallsThrough (k : Settled t u) (inner : s ≠ ScopeId.root)
    (recorded : t.entryAt? s n ≠ some (.global false)) (global : u.entryAt? s n = some (.global false)) :
    t.FallsThrough s n := by
  by_cases used : t.entryAt? s n = some .used
  · refine ⟨used, ?_⟩
    cases found : t.capture? s n with
    | none => rfl
    | some target =>
      rw [k.captured s n target inner used found] at global
      cases global
  · rw [k.kept s n inner used] at global
    exact absurd global recorded

/-- Whether a scope says itself where a name lives: it binds the name, captures it, or
    declares it global. -/
def speaksFor (t : ScopeTree π) (n : Ident) (a : ScopeId) : Bool :=
  match t.entryAt? a n with
  | some .bound | some (.captured _) | some (.global true) => true
  | some (.global false) | some .used | none => false

/-- A search that finds nothing meets no scope that speaks for the name, or first one that declares it
    global. Settling brings no such scope about. -/
theorem find?_speaksFor (k : Settled t u) (h : t.WellFormed)
    (declared : ∀ a, t.entryAt? a n ≠ some (.global false)) : ∀ (around : List ScopeId) {s a : ScopeId},
    t.closedAround s = around → t.captureAmong? n around = none → around.find? (u.speaksFor n) = some a →
      u.entryAt? a n = some (.global true)
  | [], _, _, _, _, first => by cases first
  | b :: rest, s, a, way, lost, first => by
    obtain ⟨inner, around⟩ := h.closedAround_cons way
    rw [captureAmong?] at lost
    split at lost
    iterate 2 cases lost
    · rename_i d global
      cases d with
      | false => exact absurd global (declared b)
      | true =>
        have kept := k.entryAt?_eq inner global (by rintro ⟨⟩)
        rw [List.find?_cons_of_pos (by rw [speaksFor, kept])] at first
        cases first
        exact kept
    · rename_i used
      have falls := k.defaulted b n inner ⟨used, by rw [capture?, around, lost]⟩
      rw [List.find?_cons_of_neg (by rw [speaksFor, falls]; decide)] at first
      exact find?_speaksFor k h declared rest around lost first
    · rename_i absent
      have silent := k.entryAt?_eq inner absent (by rintro ⟨⟩)
      rw [List.find?_cons_of_neg (by rw [speaksFor, silent]; decide)] at first
      exact find?_speaksFor k h declared rest around lost first

end ScopeTree

end Scoping
