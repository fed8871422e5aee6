import Scoping.Proofs.Growth

/-! The targets of captured names. A captured name is bound by its target, and the target is around the
    scope that captures. Two reports record targets, and so does settling; a target is found by a search,
    which may copy what a scope on its way has recorded, or it is toplevel code around a comprehension.
    Toplevel code is a target for nothing but comprehensions that stand in it, one directly below it. A
    name that a scope binds stays bound there, so a target once recorded is good for ever. -/

namespace Scoping

namespace ScopeTree

variable {π : Type} {t u : ScopeTree π} {s target : ScopeId} {n : Ident}

/-- What is true of the target of a name that a scope captures. -/
structure SoundTarget (t : ScopeTree π) (s : ScopeId) (n : Ident) (target : ScopeId) : Prop where
  around : target ∈ t.enclosing s
  bound : t.entryAt? target n = some .bound
  kind : t.isClosed target ∨ t.kind? target = some .toplevel
  inner : t.kind? s ≠ some .toplevel
  child : t.kind? target = some .toplevel →
    ∃ c ∈ t.path s, t.parent? c = some target ∧ t.kind? c = some .comprehension

/-- Every recorded target is sound. -/
def TargetsSound (t : ScopeTree π) : Prop :=
  ∀ s n target, t.entryAt? s n = some (.captured target) → SoundTarget t s n target

theorem targetsSound_new (payload : π) : (ScopeTree.new payload).TargetsSound := by
  intro s n target h
  have : (ScopeTree.new payload).entryAt? s n = none := by
    cases s <;> rfl
  rw [this] at h
  cases h

/-- A target stays sound while a tree grows. -/
theorem SoundTarget.transfer (k : SoundTarget t s n target) (h : t.WellFormed) (g : Grows t u) :
    SoundTarget u s n target := by
  have hs : s ∈ t := (h.enclosing_eq (List.ne_nil_of_mem k.around)).1
  have ht : target ∈ t := mem_of_entryAt? k.bound
  refine ⟨by rw [g.enclosing s hs]; exact k.around, g.bound k.bound, ?_,
    by rw [g.kind? s hs]; exact k.inner, fun top => ?_⟩
  · rw [isClosed, g.kind? target ht]
    exact k.kind
  · obtain ⟨c, hc, hp, hk⟩ := k.child (by rw [← g.kind? target ht, top])
    have mem : c ∈ t := (h.enclosing_of_parent? hp).1
    refine ⟨c, by rwa [g.path hs], ?_, by rw [g.kind? c mem, hk]⟩
    rw [parent?, g.enclosing c mem, ← hp, parent?]

/-! ### Searches -/

/-- A search ends at a scope that binds the name or that has recorded a target for it. -/
theorem captureAmong?_eq_some : ∀ {around : List ScopeId}, t.captureAmong? n around = some target →
    ∃ a ∈ around, t.entryAt? a n = some .bound ∧ a = target ∨ t.entryAt? a n = some (.captured target)
  | [], h => by cases h
  | a :: rest, h => by
    rw [captureAmong?] at h
    have onward : t.captureAmong? n rest = some target → ∃ b ∈ a :: rest,
        t.entryAt? b n = some .bound ∧ b = target ∨ t.entryAt? b n = some (.captured target) := by
      intro h
      obtain ⟨b, hb, found⟩ := captureAmong?_eq_some h
      exact ⟨b, List.mem_cons_of_mem a hb, found⟩
    split at h
    · rename_i bound
      exact ⟨a, List.mem_cons_self, .inl ⟨bound, Option.some.inj h⟩⟩
    · rename_i recorded captured
      cases h
      exact ⟨a, List.mem_cons_self, .inr captured⟩
    · cases h
    iterate 2 exact onward h

/-- The scope a name is captured from is a sound target. -/
theorem TargetsSound.capture (k : t.TargetsSound) (h : t.WellFormed)
    (found : t.capture? s n = some target) : SoundTarget t s n target := by
  obtain ⟨a, ha, stop⟩ := captureAmong?_eq_some found
  obtain ⟨around, closed⟩ := List.mem_filter.mp ha
  have inner : t.kind? s ≠ some .toplevel := by
    intro top
    rw [h.closedAround_toplevel top] at ha
    cases ha
  rcases stop with ⟨bound, rfl⟩ | recorded
  · refine ⟨around, bound, .inl closed, inner, fun top => ?_⟩
    rw [isClosed, top] at closed
    cases closed
  · -- the search copies the target of a scope further out
    have outer := k a n target recorded
    refine ⟨h.enclosing_subset around outer.around, outer.bound, outer.kind, inner, fun top => ?_⟩
    obtain ⟨c, hc, below⟩ := outer.child top
    refine ⟨c, List.mem_cons_of_mem s ?_, below⟩
    rcases List.mem_cons.mp hc with rfl | hc
    · exact around
    · exact h.enclosing_subset around hc

/-- Toplevel code is the home of the names that it binds, and of no others. -/
theorem TargetsSound.home_toplevel (k : t.TargetsSound) (h : t.WellFormed)
    (top : t.kind? target = some .toplevel) (home : t.home target n = target) :
    t.entryAt? target n = some .bound := by
  have ne_root : ScopeId.root ≠ target := by
    rintro rfl
    rw [h.kind_root] at top
    cases top
  have none : t.capture? target n = none := by
    rw [capture?, h.closedAround_toplevel top]
    rfl
  unfold ScopeTree.home at home
  split at home
  · assumption
  · rename_i recorded captured
    exact absurd top (k target n recorded captured).inner
  · exact absurd home ne_root
  iterate 2
    rw [none] at home
    exact absurd home ne_root

/-! ### Elementary changes -/

theorem Reason.sound {target : ScopeId} (k : t.TargetsSound) (h : t.WellFormed)
    (reason : Reason t s n (.captured target)) : SoundTarget t s n target := by
  cases reason with
  | capture free found => exact k.capture h found
  | note free inside child top home =>
    obtain ⟨c, hc, hp, hk⟩ := child
    have outer : target ∈ t.enclosing c := List.mem_of_mem_head? hp
    refine ⟨?_, k.home_toplevel h top home, .inr top, ?_, fun _ => ⟨c, hc, hp, hk⟩⟩
    · rcases List.mem_cons.mp hc with rfl | hc
      · exact outer
      · exact h.enclosing_subset hc outer
    · rw [inside]
      rintro ⟨⟩

theorem targetsSound_change (h : t.WellFormed) (change : Change t u) (k : t.TargetsSound) :
    u.TargetsSound := by
  intro a m target ha
  refine SoundTarget.transfer (t := t) ?_ h change.grows
  cases change with
  | @entry s n e mem reason =>
    rw [entryAt?_setEntry t mem] at ha
    split_ifs at ha with here
    · obtain ⟨rfl, rfl⟩ := here
      cases ha
      exact reason.sound k h
    · exact k a m target ha
  | @push p kind mem fit name payload =>
    rw [entryAt?_push t kind name payload mem] at ha
    exact k a m target ha
  | mark s on =>
    rw [entryAt?_setInIterable] at ha
    exact k a m target ha
  | complete => exact k a m target ha

theorem Reachable.targetsSound (h : t.Reachable) : t.TargetsSound :=
  (h.induction targetsSound_new fun _ _ => targetsSound_change).2

/-- An assignment expression in a comprehension in toplevel code. -/
def expressionInToplevel : ScopeTree Unit :=
  (ScopeTree.new ()).recordAll
    [(0, .nest .toplevel none ()), (1, .nest .comprehension none ()), (2, .nest .comprehension none ()),
     (3, .assignExpr ⟨1⟩)]

/-- The target of a captured name is around the scope that captures it and binds the name: a closed
    scope, or toplevel code to which the way leads through a comprehension. -/
theorem captured_target_sound (h : t.Reachable) (recorded : t.entryAt? s n = some (.captured target)) :
    target ∈ t.enclosing s ∧ t.entryAt? target n = some .bound ∧
      (t.isClosed target ∨ t.kind? target = some .toplevel) ∧
      s ≠ ScopeId.root ∧ t.kind? s ≠ some .toplevel ∧
      (t.kind? target = some .toplevel → ∃ c before after,
        t.path s = before ++ c :: target :: after ∧ t.kind? c = some .comprehension) := by
  have k := h.targetsSound s n target recorded
  refine ⟨k.around, k.bound, k.kind, ?_, k.inner, fun top => ?_⟩
  · rintro rfl
    have around := k.around
    rw [h.wellFormed.enclosing_root] at around
    cases around
  · obtain ⟨c, hc, hp, hk⟩ := k.child top
    obtain ⟨before, after, way⟩ := List.append_of_mem hc
    rw [parent?, h.wellFormed.path_split way] at hp
    obtain ⟨rest, rfl⟩ := List.head?_eq_some_iff.mp hp
    exact ⟨c, before, rest, way, hk⟩

theorem captured_target_sound_toplevel :
    expressionInToplevel.entryAt? 3 ⟨1⟩ = some (.captured 1) ∧
      1 ∈ expressionInToplevel.enclosing 3 ∧ expressionInToplevel.entryAt? 1 ⟨1⟩ = some .bound ∧
      ∃ c before after, expressionInToplevel.path 3 = before ++ c :: 1 :: after ∧
        expressionInToplevel.kind? c = some .comprehension := by
  have recorded : expressionInToplevel.entryAt? 3 ⟨1⟩ = some (.captured 1) := by decide
  have sound := captured_target_sound (Reachable.recordAll _ (Reachable.new ())) recorded
  exact ⟨recorded, sound.1, sound.2.1, sound.2.2.2.2.2 (by decide)⟩

end ScopeTree

end Scoping
