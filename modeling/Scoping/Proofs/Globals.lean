import Scoping.Proofs.Targets

/-! Global names. A name that some scope takes from the global scope is known there: the global scope
    binds it, or has taken note of it. Declarations see to it at once. Settling does not: it lets the
    global scope use a name that falls through and settles that use last of all, so in between a name
    is global in an inner scope and open in the global scope. The part of the invariant that survives
    every elementary change is therefore kept apart from the part that holds between the steps only. -/

namespace Scoping

namespace ScopeTree

variable {π : Type} {t u v : ScopeTree π} {s a : ScopeId} {n m : Ident} {e : Entry} {declared : Bool}

open Relation

/-! ### New entries and their reasons -/

/-- An entry that a change leaves is an old one, or there is a reason for it. -/
theorem Change.entry_cases (change : Change t u) (entry : u.entryAt? a m = some e) :
    t.entryAt? a m = some e ∨ Reason t a m e := by
  cases change with
  | entry mem reason =>
    rw [entryAt?_setEntry t mem] at entry
    split_ifs at entry with here
    · obtain ⟨rfl, rfl⟩ := here
      cases entry
      exact .inr reason
    · exact .inl entry
  | push mem fit name payload => exact .inl ((entryAt?_push t _ name payload mem a m).symm.trans entry)
  | mark s on => exact .inl ((entryAt?_setInIterable ..).symm.trans entry)
  | complete => exact .inl entry

/-! ### What every change keeps -/

/-- The global scope as every elementary change leaves it. -/
structure KnowsGlobals (t : ScopeTree π) : Prop where
  plain : ∀ n e, t.entryAt? ScopeId.root n = some e → e = .used ∨ e = .bound ∨ e = .global false
  noted : ∀ s n declared, s ≠ ScopeId.root → t.entryAt? s n = some (.global declared) →
    t.entryAt? ScopeId.root n ≠ none
  declared : ∀ s n, s ≠ ScopeId.root → t.entryAt? s n = some (.global true) →
    t.entryAt? ScopeId.root n = some .bound

theorem knowsGlobals_new (payload : π) : (ScopeTree.new payload).KnowsGlobals := by
  have blank (s : ScopeId) (n : Ident) : (ScopeTree.new payload).entryAt? s n = none := by
    cases s <;> rfl
  constructor <;> simp [blank]

/-- The global scope captures nothing and declares nothing. -/
theorem Reason.plain (h : t.WellFormed) (reason : Reason t ScopeId.root n e) :
    e = .used ∨ e = .bound ∨ e = .global false := by
  cases reason with
  | use => exact .inl rfl
  | bind => exact .inr (.inl rfl)
  | bindGlobal => exact .inr (.inl rfl)
  | capture _ found => simp [h.capture?_root] at found
  | note _ inside => simp [h.kind_root] at inside
  | declare inner => exact absurd rfl inner
  | fallThrough => exact .inr (.inr rfl)

theorem KnowsGlobals.inner_of_captured (k : t.KnowsGlobals) {target : ScopeId}
    (captured : t.entryAt? s n = some (.captured target)) : s ≠ ScopeId.root := by
  rintro rfl
  simpa using k.plain n _ captured

/-- When a name becomes global the global scope has an entry for it, and binds it if it is declared. -/
theorem KnowsGlobals.reason (k : t.KnowsGlobals) (reason : Reason t s n (.global declared)) :
    t.entryAt? ScopeId.root n ≠ none ∧ (declared = true → t.entryAt? ScopeId.root n = some .bound) := by
  cases reason with
  | declare _ _ bound =>
    have bound : t.entryAt? ScopeId.root n = some .bound := by
      refine bound.resolve_right ?_
      rintro ⟨target, captured⟩
      exact k.inner_of_captured captured rfl
    exact ⟨by simp [bound], fun _ => bound⟩
  | fallThrough _ noted => exact ⟨noted, by simp⟩

theorem Grows.ne_none (g : Grows t u) (known : t.entryAt? s n ≠ none) : u.entryAt? s n ≠ none := by
  obtain ⟨e, entry⟩ := Option.ne_none_iff_exists'.mp known
  obtain ⟨f, later, -⟩ := g.entry s n e entry
  simp [later]

theorem KnowsGlobals.change (k : t.KnowsGlobals) (h : t.WellFormed) (change : Change t u) :
    u.KnowsGlobals where
  plain n e entry := (change.entry_cases entry).elim (k.plain n e) (Reason.plain h)
  noted s n declared inner global := by
    refine change.grows.ne_none ?_
    rcases change.entry_cases global with old | reason
    · exact k.noted s n declared inner old
    · exact (k.reason reason).1
  declared s n inner global := by
    refine change.grows.bound ?_
    rcases change.entry_cases global with old | reason
    · exact k.declared s n inner old
    · exact (k.reason reason).2 rfl

theorem Reachable.knowsGlobals (h : t.Reachable) : t.KnowsGlobals :=
  (h.induction knowsGlobals_new fun _ _ wf change k => k.change wf change).2

/-! ### What a report makes global -/

/-- No name is global afterwards that was not so before. -/
def NoneGlobal (t u : ScopeTree π) : Prop :=
  ∀ a m declared, u.entryAt? a m = some (.global declared) → t.entryAt? a m = some (.global declared)

namespace NoneGlobal

theorem refl (t : ScopeTree π) : NoneGlobal t t := fun _ _ _ global => global

theorem trans (first : NoneGlobal t u) (second : NoneGlobal u v) : NoneGlobal t v :=
  fun a m declared global => first a m declared (second a m declared global)

theorem setEntry (hs : s ∈ t) (n : Ident) (other : ∀ declared, e ≠ .global declared) :
    NoneGlobal t (t.setEntry s n e) := by
  intro a m declared global
  rw [entryAt?_setEntry t hs] at global
  split_ifs at global with here
  · exact absurd (Option.some.inj global) (other declared)
  · exact global

theorem load (hs : s ∈ t) (n : Ident) : NoneGlobal t (t.load s n) := by
  rw [ScopeTree.load]
  split
  · exact setEntry hs n (by simp)
  · exact refl t

theorem store (hr : ScopeId.root ∈ t) (hs : s ∈ t) (n : Ident) : NoneGlobal t (t.store s n) := by
  rw [ScopeTree.store]
  split
  iterate 2 exact setEntry hs n (by simp)
  · exact setEntry hr n (by simp)
  iterate 2 exact refl t

theorem noteToplevel (hs : s ∈ t) (target : ScopeId) (n : Ident) :
    NoneGlobal t (t.noteToplevel s target n) := by
  rw [ScopeTree.noteToplevel]
  split
  iterate 2 exact setEntry hs n (by simp)
  · exact refl t

theorem assignExpr (h : t.WellFormed) (hs : s ∈ t) (acted : t.assignExpr s n = .ok u) :
    NoneGlobal t u := by
  obtain ⟨target, found, cases⟩ := assignExpr_eq_ok acted
  obtain ⟨inner, outer, way, -⟩ := expressionTarget_eq_ok found
  have around : target ∈ t.path s := by
    rw [path, way]
    exact List.mem_append_right inner List.mem_cons_self
  have bound := store h.root_mem (h.mem_around hs around) n
  have hs' : s ∈ t.store target n := (mem_congr (sameScopes_store t target n).size s).mpr hs
  rcases cases with ⟨rfl, rfl⟩ | ⟨-, -, -, rfl⟩ | ⟨-, -, rfl⟩
  · exact bound
  · exact bound.trans (noteToplevel hs' target n)
  · exact bound.trans (load hs' n)

theorem nest (h : t.WellFormed) {kind : ScopeKind} {name : Option Ident} {payload : π}
    (acted : t.nest s kind name payload = .ok u) : NoneGlobal t u := by
  obtain ⟨-, hs, rfl⟩ := nest_eq_ok acted
  have hs' : s ∈ t.bindOwnName s kind name :=
    (mem_congr (sameScopes_bindOwnName t s kind name).size s).mpr hs
  have own : NoneGlobal t (t.bindOwnName s kind name) := by
    rcases t.bindOwnName_cases s kind name with eq | ⟨n, eq⟩ <;> rw [eq]
    · exact refl t
    · exact store h.root_mem hs n
  intro a m declared global
  rw [entryAt?_push _ kind name payload hs'] at global
  exact own a m declared global

end NoneGlobal

/-- A report makes a name global by a declaration alone, in a scope that has no other use for it. -/
theorem global_of_act (h : t.WellFormed) (hs : s ∈ t) {r : Action π} (acted : t.act s r = .ok u)
    (global : u.entryAt? a m = some (.global declared)) : t.entryAt? a m = some (.global declared) ∨
      declared = true ∧ (t.entryAt? a m = none ∨ ∃ before, t.entryAt? a m = some (.global before)) := by
  have spared (k : NoneGlobal t u) := k a m declared global
  cases r with
  | load n =>
    cases acted
    exact .inl (spared (.load hs n))
  | store n =>
    cases acted
    exact .inl (spared (.store h.root_mem hs n))
  | assignExpr n => exact .inl (spared (.assignExpr h hs acted))
  | declareNonlocal n =>
    rcases declareNonlocal_eq_ok acted with rfl | ⟨target, -, -, rfl⟩
    · exact .inl global
    · exact .inl (spared (.setEntry hs n (by simp)))
  | declareGlobal n =>
    rcases declareGlobal_eq_ok hs acted with ⟨-, rfl⟩ | ⟨inner, rule, rfl⟩
    · exact .inl (spared (.store h.root_mem hs n))
    · have hs' : s ∈ t.store ScopeId.root n := (mem_congr (sameScopes_store t _ n).size s).mpr hs
      rw [entryAt?_setEntry _ hs'] at global
      split_ifs at global with here
      · obtain ⟨rfl, rfl⟩ := here
        cases global
        exact .inr ⟨rfl, rule⟩
      · exact .inl (NoneGlobal.store h.root_mem h.root_mem n a m declared global)
  | nest kind name payload => exact .inl (spared (.nest h acted))
  | setInIterable on =>
    cases acted
    rw [entryAt?_setInIterable] at global
    exact .inl global

/-! ### Between the steps -/

/-- A name that is global in some other scope is not open in the global scope. -/
def SettledAtRoot (t : ScopeTree π) : Prop :=
  ∀ s n declared, s ≠ ScopeId.root → t.entryAt? s n = some (.global declared) →
    t.entryAt? ScopeId.root n ≠ some .used

theorem SettledAtRoot.step (k : t.SettledAtRoot) (h : t.Reachable) (step : Step t u) :
    u.SettledAtRoot := by
  intro s n declared inner global
  cases step with
  | @perform _ b r accepted =>
    obtain ⟨mem, acted⟩ := perform_eq_ok.mp accepted
    have grows := Grows.perform h.wellFormed accepted
    rcases global_of_act h.wellFormed mem acted global with old | ⟨rfl, -⟩
    · intro used
      exact (grows.undecided (.inr used)).elim (h.knowsGlobals.noted s n declared inner old)
        (k s n declared inner old)
    · have bound := (h.step (.perform accepted)).knowsGlobals.declared s n inner global
      simp [bound]
  | finish => exact h.wellFormed.settled.complete ScopeId.root n

theorem Reachable.settledAtRoot (h : t.Reachable) : t.SettledAtRoot := by
  obtain ⟨payload, steps⟩ := h
  induction steps with
  | refl =>
    intro s n declared _ global
    cases s <;> cases global
  | tail steps last ih => exact ih.step ⟨payload, steps⟩ last

/-! ### What is declared once -/

/-- Steps are chains of elementary changes. -/
theorem WellFormed.steps (h : t.WellFormed) (steps : ReflTransGen Step t u) :
    u.WellFormed ∧ Changes t u := by
  induction steps with
  | refl => exact ⟨h, .refl⟩
  | tail _ last ih =>
    have changes := last.changes ih.1
    exact ⟨changes.wellFormed ih.1, ih.2.trans changes⟩

/-- A declaration has the global scope bind the name, in whichever scope it stands. -/
theorem Reachable.bound_of_declareGlobal (h : t.Reachable)
    (accepted : t.perform s (.declareGlobal n) = .ok u) : u.entryAt? ScopeId.root n = some .bound := by
  have k := (h.step (.perform accepted)).knowsGlobals
  obtain ⟨mem, acted⟩ := perform_eq_ok.mp accepted
  rcases declareGlobal_eq_ok mem acted with ⟨rfl, rfl⟩ | ⟨inner, -, rfl⟩
  · refine (entryAt?_store_root mem n).resolve_right ?_
    rintro ⟨target, captured⟩
    exact k.inner_of_captured captured rfl
  · refine k.declared s n inner ?_
    have mem' : s ∈ t.store ScopeId.root n := (mem_congr (sameScopes_store t _ n).size s).mpr mem
    rw [entryAt?_setEntry _ mem', if_pos ⟨rfl, rfl⟩]

/-! ### Main result -/

/-- What the global scope has to do with the names that other scopes take from it. -/
structure GlobalsKept (t : ScopeTree π) : Prop where
  noted : ∀ s n declared, s ≠ ScopeId.root → t.entryAt? s n = some (.global declared) →
    t.entryAt? ScopeId.root n = some .bound ∨ t.entryAt? ScopeId.root n = some (.global false)
  status : ∀ s n declared, s ≠ ScopeId.root → t.entryAt? s n = some (.global declared) →
    t.status ScopeId.root n = .top ∨ t.status ScopeId.root n = .global
  declared : ∀ s n, t.declaresGlobal s n → t.entryAt? ScopeId.root n = some .bound
  /-- A declaration binds the name at once and for good. -/
  bound : ∀ s n u v, t.perform s (.declareGlobal n) = .ok u → ReflTransGen Step u v →
    v.entryAt? ScopeId.root n = some .bound
  captures : ∀ n target, t.entryAt? ScopeId.root n ≠ some (.captured target)
  declares : ∀ n, t.entryAt? ScopeId.root n ≠ some (.global true)
  toplevel : ∀ s n target, t.kind? s = some .toplevel → t.entryAt? s n ≠ some (.captured target)
  builds : ∀ (σ : Type) (w : Walker σ π), (∀ s, Walking.Keeps Reachable (w s)) →
    Walking.Keeps Reachable w.build

/-- A name that some other scope takes from the global scope is bound or noted there, and it is
    bound there once a scope has declared it, whatever is reported and however many builds fail. -/
theorem global_scope_knows (h : t.Reachable) : GlobalsKept t := by
  have k := h.knowsGlobals
  have root {s : ScopeId} {n : Ident} {declared : Bool} (inner : s ≠ ScopeId.root)
      (global : t.entryAt? s n = some (.global declared)) :
      t.entryAt? ScopeId.root n = some .bound ∨ t.entryAt? ScopeId.root n = some (.global false) := by
    obtain ⟨e, entry⟩ := Option.ne_none_iff_exists'.mp (k.noted s n declared inner global)
    rcases k.plain n e entry with rfl | rfl | rfl
    · exact absurd entry (h.settledAtRoot s n declared inner global)
    · exact .inl entry
    · exact .inr entry
  refine {
    noted := fun s n declared => root
    status := fun s n declared inner global => (root inner global).imp (fun entry => ?_) fun entry => ?_
    declared := fun s n declares => ?_
    bound := fun s n u v accepted steps => ?_
    captures := fun n target captured => k.inner_of_captured captured rfl
    declares := fun n declared => ?_
    toplevel := fun s n target top captured => (h.targetsSound s n target captured).inner top
    builds := fun σ w hw => Walker.build_reachable hw }
  · simp [ScopeTree.status, entry, Status.ofEntry]
  · simp [ScopeTree.status, entry, Status.ofEntry]
  · have declared : t.entryAt? s n = some (.global true) := by simpa [declaresGlobal] using declares
    by_cases inner : s = ScopeId.root
    · subst inner
      simpa using k.plain n _ declared
    · exact k.declared s n inner declared
  · have wf := (h.step (.perform accepted)).wellFormed
    exact (wf.steps steps).2.grows.bound (h.bound_of_declareGlobal accepted)
  · simpa using k.plain n _ declared

/-- Two functions, one of which declares a name global. The other reads it, and one that nobody binds. -/
def declaredAndRead : ScopeTree Unit :=
  ((ScopeTree.new ()).recordAll
    [(0, .nest .function none ()), (1, .declareGlobal ⟨1⟩), (0, .nest .function none ()), (2, .load ⟨1⟩),
     (2, .load ⟨2⟩)]).finish

theorem global_scope_knows_declaredAndRead :
    declaredAndRead.Reachable ∧ declaredAndRead.entryAt? 2 ⟨2⟩ = some (.global false) ∧
      (declaredAndRead.status ScopeId.root ⟨2⟩ = .top ∨
        declaredAndRead.status ScopeId.root ⟨2⟩ = .global) ∧
      declaredAndRead.declaresGlobal 1 ⟨1⟩ ∧
      declaredAndRead.entryAt? ScopeId.root ⟨1⟩ = some .bound := by
  have h : declaredAndRead.Reachable := (Reachable.recordAll _ (Reachable.new ())).step (.finish _)
  have global : declaredAndRead.entryAt? 2 ⟨2⟩ = some (.global false) := by decide
  have declares : declaredAndRead.declaresGlobal 1 ⟨1⟩ := by decide
  have known := global_scope_knows h
  exact ⟨h, global, known.status 2 ⟨2⟩ false (by decide) global, declares, known.declared 1 ⟨1⟩ declares⟩

end ScopeTree

end Scoping
