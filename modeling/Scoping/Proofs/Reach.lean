import Mathlib.Data.List.TakeWhile
import Scoping.Proofs.Beside
import Scoping.Proofs.Home

/-! The reach of a binding. A search for a name goes outward from the scope at hand as long as the
    scopes on its way leave the name open. A new binding in one of these scopes ends the search there,
    and a search that does not come to that scope, or that has ended before it, takes no notice. So a
    binding captures for its own scope and for what is nested in it, and only if its scope is closed,
    since no search looks into an open scope around. A binding that is passed on to the global scope
    is seen by no search at all: the global scope is where a search ends that finds nothing. -/

namespace Scoping

namespace ScopeTree

variable {π : Type} {t u : ScopeTree π} {s a : ScopeId} {n m : Ident}

/-! ### The way of a search -/

/-- The scopes that a search for a name passes, from the scope at hand outward: the name is
    open in each. -/
def passed (t : ScopeTree π) (s : ScopeId) (n : Ident) : List ScopeId :=
  (s :: t.closedAround s).takeWhile fun a => t.Undecided a n

theorem undecided_of_mem_passed (ha : a ∈ t.passed s n) : t.Undecided a n := by
  simpa using List.mem_takeWhile_imp ha

/-- A search passes the scope at hand, and otherwise closed scopes around it. -/
theorem eq_or_closed_of_mem_passed (ha : a ∈ t.passed s n) :
    s = a ∨ t.isClosed a ∧ a ∈ t.enclosing s := by
  rcases List.mem_cons.mp ((List.takeWhile_sublist _).mem ha) with here | around
  · exact .inl here.symm
  · obtain ⟨outer, closed⟩ := List.mem_filter.mp around
    exact .inr ⟨closed, outer⟩

theorem mem_passed_self : s ∈ t.passed s n ↔ t.Undecided s n := by
  refine ⟨undecided_of_mem_passed, fun free => ?_⟩
  simp [passed, free]

/-- From a scope that leaves the name open a search goes on to the closed scopes around. -/
theorem mem_passed_of_ne (free : t.Undecided s n) (away : a ≠ s) :
    a ∈ t.passed s n ↔ a ∈ (t.closedAround s).takeWhile fun b => t.Undecided b n := by
  simp [passed, free, away]

/-! ### One new binding -/

/-- A scope that binds a name it has left open ends the searches that have passed it, and no others. -/
theorem captureAmong?_setEntry_bound (ha : a ∈ t) (free : t.Undecided a n) : ∀ around : List ScopeId,
    (t.setEntry a n .bound).captureAmong? n around =
      if a ∈ around.takeWhile fun b => t.Undecided b n then some a else t.captureAmong? n around
  | [] => rfl
  | b :: rest => by
    have onward := captureAmong?_setEntry_bound ha free rest
    rw [captureAmong?, captureAmong?, entryAt?_setEntry t ha, onward]
    by_cases here : a = b
    · subst here
      simp [free]
    · have skipped : ¬(a = b ∧ n = n) := fun both => here both.1
      by_cases searched : t.Undecided b n
      · rw [if_neg skipped, List.takeWhile_cons_of_pos (by simpa using searched)]
        simp only [List.mem_cons, here, false_or]
        rcases searched with entry | entry <;> rw [entry]
      · -- a scope that decides the name ends both searches alike
        rw [if_neg skipped, List.takeWhile_cons_of_neg (by simpa using searched),
          if_neg List.not_mem_nil]
        cases entry : t.entryAt? b n with
        | none => exact absurd (.inl entry) searched
        | some e =>
          cases e with
          | used => exact absurd (.inr entry) searched
          | bound => rfl
          | captured target => rfl
          | global declared => rfl

/-- A name that is bound where it has been open now lives there for the scopes whose searches pass. -/
theorem home_setEntry_bound (ha : a ∈ t) (free : t.Undecided a n) (s : ScopeId) (m : Ident) :
    (t.setEntry a n .bound).home s m = if m = n ∧ a ∈ t.passed s n then a else t.home s m := by
  have same := sameScopes_setEntry t a n .bound
  have entries := entryAt?_setEntry t ha n .bound
  by_cases name : m = n
  · subst name
    by_cases here : s = a
    · subst here
      have bound : (t.setEntry s m .bound).entryAt? s m = some .bound := by simp [entries]
      rw [home_of_bound bound, if_pos ⟨rfl, mem_passed_self.mpr free⟩]
    · have kept :
          (t.setEntry a m .bound).entryAt? s m = t.entryAt? s m := by simp [entries, Ne.symm here]
      by_cases searched : t.Undecided s m
      · have searched' : (t.setEntry a m .bound).Undecided s m := by rwa [Undecided, kept]
        have onward := mem_passed_of_ne searched (Ne.symm here)
        rw [home_of_undecided searched, home_of_undecided searched', capture?, same.closedAround,
          captureAmong?_setEntry_bound ha free]
        by_cases passes : a ∈ t.passed s m
        · rw [if_pos (onward.mp passes), if_pos ⟨rfl, passes⟩]
          rfl
        · rw [if_neg (mt onward.mpr passes), if_neg fun both => passes both.2]
          rfl
      · rw [home_congr_of_decided searched kept, if_neg]
        rintro ⟨-, around⟩
        rw [passed, List.takeWhile_cons_of_neg (by simpa using searched)] at around
        cases around
  · rw [if_neg fun k => name k.1]
    have kept (b : ScopeId) : (t.setEntry a n .bound).entryAt? b m = t.entryAt? b m := by
      simp [entries, Ne.symm name]
    exact home_congr (kept s) (same.capture? kept s)

/-- Nothing lives elsewhere because the global scope binds a name. -/
theorem home_setEntry_root (h : t.Reachable) (n : Ident) (s : ScopeId) (m : Ident) :
    (t.setEntry ScopeId.root n .bound).home s m = t.home s m := by
  have wf := h.wellFormed
  have same := sameScopes_setEntry t ScopeId.root n .bound
  have entries := entryAt?_setEntry t wf.root_mem n .bound
  by_cases root : s = ScopeId.root
  · subst root
    by_cases name : n = m
    · subst name
      rw [h.targetsSound.home_root wf]
      exact home_of_bound (by rw [entries, if_pos ⟨rfl, rfl⟩])
    · have kept (b : ScopeId) : (t.setEntry ScopeId.root n .bound).entryAt? b m = t.entryAt? b m := by
        rw [entries, if_neg fun both => name both.2]
      exact home_congr (kept _) (same.capture? kept _)
  · have kept {b : ScopeId} (inner : b ≠ ScopeId.root) :
        (t.setEntry ScopeId.root n .bound).entryAt? b m = t.entryAt? b m := by
      simp [entries, Ne.symm inner]
    refine home_congr (kept root) (same.capture?_of_mem fun b hb => kept ?_)
    rintro rfl
    exact wf.root_not_mem_closedAround s hb

/-- Binding a name in a scope moves the name for the scopes whose searches pass this one,
    and nothing else. -/
theorem home_store (h : t.Reachable) (ha : a ∈ t) (n : Ident) (s : ScopeId) (m : Ident) :
    (t.store a n).home s m = if m = n ∧ a ∈ t.passed s n then a else t.home s m := by
  by_cases free : t.Undecided a n
  · rw [store_of_undecided free, home_setEntry_bound ha free]
  · rw [if_neg fun k => free (undecided_of_mem_passed k.2), store]
    split
    · rename_i absent
      exact absurd (.inl absent) free
    · rename_i used
      exact absurd (.inr used) free
    · exact home_setEntry_root h n s m
    iterate 2 rfl

/-- A new scope moves no name of the scopes that were there. -/
theorem home_push (h : t.WellFormed) {p : ScopeId} (hp : p ∈ t) {kind : ScopeKind} (fit : fits kind p)
    (name : Option Ident) (payload : π) (hs : s ∈ t) (m : Ident) :
    (t.push p kind name payload).home s m = t.home s m := by
  have grows : Grows t (t.push p kind name payload) := Change.grows (.push hp fit name payload)
  have entries := entryAt?_push t kind name payload hp
  refine home_congr (entries s m) ?_
  rw [capture?, capture?, grows.closedAround h hs, captureAmong?_congr fun b => entries b m]

/-- Opening a scope moves no name but its own, and that one as the binding of it does. -/
theorem home_nest (h : t.WellFormed) {kind : ScopeKind} {payload : π}
    (accepted : t.perform a (.nest kind (some n) payload) = .ok u) (hs : s ∈ t) (m : Ident) :
    u.home s m = if kind.bindsName then (t.store a n).home s m else t.home s m := by
  obtain ⟨ha, acted⟩ := perform_eq_ok.mp accepted
  obtain ⟨fit, -, rfl⟩ := nest_eq_ok acted
  have same := sameScopes_bindOwnName t a kind (some n)
  have mem {b : ScopeId} (hb : b ∈ t) : b ∈ t.bindOwnName a kind (some n) :=
    (mem_congr same.size b).mpr hb
  rw [home_push (h.of_sameScopes same) (mem ha) fit _ _ (mem hs), bindOwnName]
  split_ifs <;> rfl

/-- A binding in the global scope, or one that is passed on to it, moves nothing. -/
theorem home_store_of_global (h : t.Reachable) (ha : a ∈ t)
    (passedOn : a = ScopeId.root ∨ ∃ declared, t.entryAt? a n = some (.global declared)) (s : ScopeId)
    (m : Ident) : (t.store a n).home s m = t.home s m := by
  have wf := h.wellFormed
  rw [home_store h ha]
  split_ifs with here
  · obtain ⟨rfl, around⟩ := here
    rcases passedOn with rfl | ⟨declared, global⟩
    · rcases eq_or_closed_of_mem_passed around with rfl | ⟨closed, -⟩
      · exact (h.targetsSound.home_root wf m).symm
      · simp [wf.not_isClosed_root] at closed
    · have free := undecided_of_mem_passed around
      simp [Undecided, global] at free
  · rfl

/-! ### Main result -/

/-- Where a name lives changes between two trees only if it is the given name, and then it lives in
    the given scope, for that scope itself or for one nested in it. -/
def CapturesBelow (t u : ScopeTree π) (a : ScopeId) (n : Ident) : Prop :=
  ∀ s ∈ t, ∀ m, u.home s m ≠ t.home s m →
    m = n ∧ u.home s m = a ∧ (s = a ∨ t.isClosed a ∧ a ∈ t.enclosing s)

theorem capturesBelow_store (h : t.Reachable) (ha : a ∈ t) (n : Ident) :
    CapturesBelow t (t.store a n) a n := by
  intro s _ m moved
  rw [home_store h ha] at moved ⊢
  split_ifs at moved ⊢ with here
  · exact ⟨here.1, rfl, eq_or_closed_of_mem_passed here.2⟩
  · exact absurd rfl moved

/-- Binding a name in a scope moves that name alone, to that scope, and for those scopes alone whose
    searches for it pass the scope. -/
theorem binding_captures_below (h : t.Reachable) (ha : a ∈ t) (n : Ident) :
    (∀ s m, (t.store a n).home s m = if m = n ∧ a ∈ t.passed s n then a else t.home s m) ∧
    CapturesBelow t (t.store a n) a n ∧
    (¬t.isClosed a → ∀ s m, ¬(s = a ∧ m = n) → (t.store a n).home s m = t.home s m) ∧
    (a = ScopeId.root ∨ (∃ declared, t.entryAt? a n = some (.global declared)) →
      ∀ s m, (t.store a n).home s m = t.home s m) ∧
    ∀ kind payload u, t.perform a (.nest kind (some n) payload) = .ok u →
      CapturesBelow t u a n ∧
      ∀ s ∈ t, ∀ m, u.home s m = if kind.bindsName then (t.store a n).home s m else t.home s m := by
  refine ⟨home_store h ha n, capturesBelow_store h ha n, fun visible s m other => ?_,
    home_store_of_global h ha, fun kind payload u accepted =>
    ⟨fun s hs m => ?_, fun s => home_nest h.wellFormed accepted⟩⟩
  · rw [home_store h ha, if_neg]
    rintro ⟨rfl, around⟩
    rcases eq_or_closed_of_mem_passed around with here | ⟨closed, -⟩
    · exact other ⟨here, rfl⟩
    · exact visible closed
  · rw [home_nest h.wellFormed accepted hs]
    split_ifs
    · exact capturesBelow_store h ha n s hs m
    · exact fun moved => absurd rfl moved

/-- The lambda in the method comes to capture a name that the method binds, be it by a nested
    function of that name, and not one that the class binds. -/
theorem binding_captures_below_methodInClass :
    methodInClass.Reachable ∧ 2 ∈ methodInClass ∧ methodInClass.home 3 ⟨3⟩ = 0 ∧
      (methodInClass.store 2 ⟨3⟩).home 3 ⟨3⟩ = 2 ∧ (methodInClass.store 2 ⟨3⟩).home 1 ⟨3⟩ = 0 ∧
      (∃ u, methodInClass.perform 2 (.nest .function (some ⟨3⟩) ()) = .ok u ∧ u.home 3 ⟨3⟩ = 2) ∧
      1 ∈ methodInClass ∧ (methodInClass.store 1 ⟨3⟩).home 1 ⟨3⟩ = 1 ∧
      (methodInClass.store 1 ⟨3⟩).home 3 ⟨3⟩ = 0 := by
  have h : methodInClass.Reachable := Reachable.recordAll _ (Reachable.new ())
  have method : 2 ∈ methodInClass := by decide
  have body : 1 ∈ methodInClass := by decide
  have inMethod := binding_captures_below h method ⟨3⟩
  have inClass := binding_captures_below h body ⟨3⟩
  have captured : (methodInClass.store 2 ⟨3⟩).home 3 ⟨3⟩ = 2 := by
    rw [inMethod.1]
    decide
  refine ⟨h, method, by decide, captured, ?_, ⟨_, rfl, ?_⟩, body, by decide, ?_⟩
  · rw [inMethod.1]
    decide
  · have nested := inMethod.2.2.2.2 .function () _ rfl
    rw [nested.2 3 (by decide)]
    exact captured
  · rw [inClass.2.2.1 (by decide) 3 ⟨3⟩ (by decide)]
    decide

end ScopeTree

end Scoping
