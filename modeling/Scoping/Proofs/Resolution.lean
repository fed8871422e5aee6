import Scoping.Proofs.Reachable

/-! The end of the analysis. Settling turns every use into the outcome of its search in the tree as
    it was recorded, lets the global scope take note of the names that nobody decides, and touches
    nothing else. It is invisible to whoever asks where a name lives: the answer is the same before
    and after, for every scope and for every name, whether the name occurs there or not. -/

namespace Scoping

namespace ScopeTree

variable {π : Type} {t u : ScopeTree π} {s : ScopeId} {n : Ident}

/-! ### Where names live -/

theorem home_of_undecided (free : t.Undecided s n) :
    t.home s n = (t.capture? s n).getD ScopeId.root := by
  rcases free with free | free <;> simp only [home, free]

theorem home_of_settled (found : Option ScopeId) (settled : t.entryAt? s n = some (.ofCapture found)) :
    t.home s n = found.getD ScopeId.root := by
  rw [home, settled]
  cases found <;> rfl

theorem home_congr (h : u.entryAt? s n = t.entryAt? s n) (search : u.capture? s n = t.capture? s n) :
    u.home s n = t.home s n := by
  rw [home, home, h, search]

/-- Marking the analysis as complete moves no name. -/
theorem home_finish (t : ScopeTree π) (s : ScopeId) (n : Ident) :
    t.finish.home s n = t.settle.home s n := by
  have search : t.finish.captureAmong? n (t.settle.closedAround s) = t.settle.capture? s n :=
    captureAmong?_congr (t := t.settle) (u := t.finish) (fun _ => rfl) _
  exact home_congr rfl search

namespace Settled

/-- What is not a mere use keeps its entry, in the global scope as in every other. -/
theorem of_ne_used (k : Settled t u) {e : Entry} (he : t.entryAt? s n = some e) (free : e ≠ .used) :
    u.entryAt? s n = some e := by
  by_cases hs : s = ScopeId.root
  · subst hs
    exact k.root_kept n e he free
  · rw [k.kept s n hs, he]
    rw [he]
    exact fun hx => free (Option.some.inj hx)

/-- A use becomes the outcome of its search, in the global scope as in every other. -/
theorem of_used (k : Settled t u) (h : t.WellFormed) (used : t.entryAt? s n = some .used) :
    u.entryAt? s n = some (.ofCapture (t.capture? s n)) := by
  by_cases hs : s = ScopeId.root
  · subst hs
    rw [k.root_used n used, h.capture?_root]
    rfl
  · cases found : t.capture? s n with
    | none => exact k.defaulted s n hs ⟨used, found⟩
    | some target => exact k.captured s n target hs used found

/-- A name that does not occur still does not occur, or else the global scope has taken note of it. -/
theorem of_absent (k : Settled t u) (absent : t.entryAt? s n = none) :
    u.entryAt? s n = none ∨ s = ScopeId.root ∧ u.entryAt? s n = some (.global false) := by
  by_cases hs : s = ScopeId.root
  · subst hs
    by_cases noted : ∃ s, s ≠ ScopeId.root ∧ t.FallsThrough s n
    · exact .inr ⟨rfl, k.root_noted n absent noted⟩
    · exact .inl (k.root_absent n absent noted)
  · refine .inl ((k.kept s n hs ?_).trans absent)
    rw [absent]
    exact (Option.some_ne_none _).symm

theorem home (k : Settled t u) (h : t.WellFormed) (s : ScopeId) (n : Ident) :
    u.home s n = t.home s n := by
  cases he : t.entryAt? s n with
  | none =>
    rcases k.of_absent he with absent | ⟨rfl, noted⟩
    · exact home_congr (absent.trans he.symm) (k.search s n)
    · rw [home_of_settled none noted, home_of_undecided (.inl he), h.capture?_root]
  | some e =>
    by_cases used : e = .used
    · subst used
      rw [home_of_settled _ (k.of_used h he), home_of_undecided (.inr he)]
    · exact home_congr ((k.of_ne_used he used).trans he.symm) (k.search s n)

end Settled

/-! ### Main results -/

/-- A lambda in a function in a class, with a name bound by the function, one bound by the class and one
    bound by nobody. -/
def methodInClass : ScopeTree Unit :=
  (ScopeTree.new ()).recordAll
    [(0, .nest .classBody none ()), (1, .store ⟨2⟩), (1, .nest .function none ()), (2, .store ⟨1⟩),
     (2, .nest .lambda none ()), (3, .load ⟨1⟩), (3, .load ⟨2⟩), (3, .load ⟨3⟩)]

/-- Settling gives each use the outcome of its search in the tree as recorded, lets the global scope take
    note of exactly the names that some other scope uses and nobody decides, and changes nothing else. -/
theorem settle_exact (h : t.Reachable) :
    (∀ s n, s ≠ ScopeId.root → t.entryAt? s n ≠ some .used →
      t.settle.entryAt? s n = t.entryAt? s n) ∧
    (∀ s n target, s ≠ ScopeId.root → t.entryAt? s n = some .used → t.capture? s n = some target →
      t.settle.entryAt? s n = some (.captured target)) ∧
    (∀ s n, s ≠ ScopeId.root → t.entryAt? s n = some .used → t.capture? s n = none →
      t.settle.entryAt? s n = some (.global false)) ∧
    (∀ n e, t.entryAt? ScopeId.root n = some e → e ≠ .used → t.settle.entryAt? ScopeId.root n = some e) ∧
    (∀ n, t.entryAt? ScopeId.root n = some .used →
      t.settle.entryAt? ScopeId.root n = some (.global false)) ∧
    (∀ n, t.entryAt? ScopeId.root n = none →
      (∃ s, s ≠ ScopeId.root ∧ t.entryAt? s n = some .used ∧ t.capture? s n = none) →
      t.settle.entryAt? ScopeId.root n = some (.global false)) ∧
    (∀ n, t.entryAt? ScopeId.root n = none →
      (¬∃ s, s ≠ ScopeId.root ∧ t.entryAt? s n = some .used ∧ t.capture? s n = none) →
      t.settle.entryAt? ScopeId.root n = none) ∧
    (∀ s n, t.settle.entryAt? s n ≠ some .used) ∧
    SameScopes t t.settle := by
  have k := h.wellFormed.settled
  refine ⟨k.kept, k.captured, ?_, k.root_kept, k.root_used, k.root_noted, k.root_absent, k.complete,
    k.same⟩
  intro s n hs used lost
  exact k.defaulted s n hs ⟨used, lost⟩

theorem settle_exact_methodInClass :
    methodInClass.Reachable ∧
      methodInClass.settle.entryAt? 3 ⟨1⟩ = some (.captured 2) ∧
      methodInClass.settle.entryAt? 3 ⟨2⟩ = some (.global false) ∧
      methodInClass.settle.entryAt? ScopeId.root ⟨3⟩ = some (.global false) := by
  have h : methodInClass.Reachable := Reachable.recordAll _ (Reachable.new ())
  obtain ⟨-, captured, defaulted, -, -, noted, -⟩ := settle_exact h
  exact ⟨h, captured 3 ⟨1⟩ 2 (by decide) (by decide) (by decide),
    defaulted 3 ⟨2⟩ (by decide) (by decide) (by decide),
    noted ⟨3⟩ (by decide) ⟨3, by decide, by decide, by decide⟩⟩

/-- Where a name lives does not depend on whether the analysis is complete. No search is affected by
    settling all names, nor by settling any single one, and neither is any answer. -/
theorem home_settle (h : t.Reachable) {σ : Type} (x : σ) (s : ScopeId) (n : Ident) :
    t.settle.home s n = t.home s n ∧ t.settle.capture? s n = t.capture? s n ∧
      (∀ a m, t.entryAt? a m = some .used → (t.settleName a m).capture? s n = t.capture? s n) ∧
      ∃ u, (Walker.idle : Walker σ π).build (x, t) = .ok () (x, u) ∧ u.home s n = t.home s n := by
  have wf := h.wellFormed
  have k := wf.settled
  refine ⟨k.home wf s n, k.search s n, fun a m used => capture?_settleName wf used s n, t.finish, ?_, ?_⟩
  · exact Walker.build_idle (x, t)
  · exact (home_finish t s n).trans (k.home wf s n)

theorem home_settle_methodInClass :
    methodInClass.Reachable ∧ methodInClass.settle.home 3 ⟨1⟩ = methodInClass.home 3 ⟨1⟩ ∧
      methodInClass.home 3 ⟨1⟩ = 2 := by
  have h : methodInClass.Reachable := Reachable.recordAll _ (Reachable.new ())
  exact ⟨h, (home_settle h () 3 ⟨1⟩).1, by decide⟩

end ScopeTree

end Scoping
