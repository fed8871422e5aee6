import Scoping.Proofs.Globals
import Scoping.Proofs.Resolution

/-! Classifications move forward. A caller sees a tree between calls alone, and asks what may have
    become of an entry in the meantime. Growth and the invariants of the global scope say most of
    it. Two things are left. A declaration is never taken back, which every elementary change has to
    show. And an open name becomes declared global only if the end of an analysis has made it global
    before, which no elementary change can show, since it is about the calls in between: the proof
    goes along the calls to the first one after which the name is open no longer. -/

namespace Scoping

namespace ScopeTree

variable {π : Type} {t u v : ScopeTree π} {s : ScopeId} {n : Ident} {e : Entry}

open Relation

/-! ### Calls -/

/-- One call on a tree: a report, be it accepted or refused, or the end of the analysis. -/
inductive Call (π : Type)
  | report (s : ScopeId) (r : Action π)
  | finish

/-- The tree after a call. -/
def after (t : ScopeTree π) : Call π → ScopeTree π
  | .report s r => t.record (s, r)
  | .finish => t.finish

/-- The tree after a list of calls. -/
def afterAll (t : ScopeTree π) (calls : List (Call π)) : ScopeTree π := calls.foldl after t

@[simp] theorem afterAll_nil (t : ScopeTree π) : t.afterAll [] = t := rfl

@[simp] theorem afterAll_cons (t : ScopeTree π) (call : Call π) (calls : List (Call π)) :
    t.afterAll (call :: calls) = (t.after call).afterAll calls := rfl

@[simp] theorem afterAll_append (t : ScopeTree π) (calls more : List (Call π)) :
    t.afterAll (calls ++ more) = (t.afterAll calls).afterAll more := List.foldl_append

theorem steps_after (t : ScopeTree π) (call : Call π) : ReflTransGen Step t (t.after call) := by
  cases call with
  | report s r =>
    rw [after, record]
    split
    · rename_i u accepted
      exact .single (.perform accepted)
    · exact .refl
  | finish => exact .single (.finish t)

theorem steps_afterAll (calls : List (Call π)) (t : ScopeTree π) :
    ReflTransGen Step t (t.afterAll calls) := by
  induction calls generalizing t with
  | nil => exact .refl
  | cons call calls ih => exact (t.steps_after call).trans (ih (t.after call))

theorem Reachable.steps (h : t.Reachable) (steps : ReflTransGen Step t u) : u.Reachable := by
  obtain ⟨payload, before⟩ := h
  exact ⟨payload, before.trans steps⟩

theorem after_of_ok {r : Action π} (performed : t.perform s r = .ok u) : t.after (.report s r) = u := by
  rw [after, ScopeTree.record, performed]

theorem after_of_error {r : Action π} {refusal : Refusal} (refused : t.perform s r = .error refusal) :
    t.after (.report s r) = t := by
  rw [after, ScopeTree.record, refused]

/-- A report that is made in the course of a build is a call, or none if it is about no
    scope of the tree. -/
theorem exists_calls_of_act {r : Action π} (acted : t.act s r = .ok u) :
    ∃ calls, u = t.afterAll calls := by
  have called {s : ScopeId} {r : Action π} (mem : s ∈ t) (acted : t.act s r = .ok u) :
      ∃ calls, u = t.afterAll calls :=
    ⟨[.report s r], (after_of_ok (perform_eq_ok.mpr ⟨mem, acted⟩)).symm⟩
  by_cases mem : s ∈ t
  · exact called mem acted
  · rcases act_of_not_mem mem acted with rfl | ⟨n, rfl⟩
    · exact ⟨[], rfl⟩
    · by_cases hr : ScopeId.root ∈ t
      · exact called hr (r := .store n) rfl
      · refine ⟨[], ?_⟩
        rw [store_of_undecided (.inl (entryAt?_of_not_mem hr n))]
        exact modifyScope_of_not_mem hr _

/-! ### What is never taken back -/

/-- What a tree shows of another that it has grown out of, besides the entries that are settled. -/
structure Retains (t u : ScopeTree π) : Prop where
  size : t.size ≤ u.size
  name? : ∀ a ∈ t, u.name? a = t.name? a
  nested : ∀ a, t.nested a <+: u.nested a
  declared : ∀ a n, a ≠ ScopeId.root → t.entryAt? a n = some (.global true) →
    u.entryAt? a n = some (.global true)

namespace Retains

theorem refl (t : ScopeTree π) : Retains t t :=
  ⟨Nat.le_refl _, fun _ _ => rfl, fun _ => List.prefix_refl _, fun _ _ _ => id⟩

theorem trans (first : Retains t u) (second : Retains u v) : Retains t v where
  size := Nat.le_trans first.size second.size
  name? a ha := by
    have mem : a ∈ u := Nat.lt_of_lt_of_le ha first.size
    rw [second.name? a mem, first.name? a ha]
  nested a := (first.nested a).trans (second.nested a)
  declared a n inner declared := second.declared a n inner (first.declared a n inner declared)

end Retains

/-- In a scope that has declared a name there is no reason for another entry of the name. -/
theorem Reason.eq_declared (reason : Reason t s n e) (inner : s ≠ ScopeId.root)
    (declared : t.entryAt? s n = some (.global true)) : e = .global true := by
  cases reason with
  | declare => rfl
  | bindGlobal here => exact absurd here inner
  | _ => simp_all [Undecided]

theorem Change.retains (change : Change t u) : Retains t u := by
  cases change with
  | @entry s n e mem reason =>
    have same := sameScopes_setEntry t s n e
    refine ⟨Nat.le_of_eq same.size.symm, fun a _ => same.name? a,
      fun a => (same.nested a).symm ▸ List.prefix_refl _, fun a m inner declared => ?_⟩
    rw [entryAt?_setEntry t mem]
    split_ifs with here
    · obtain ⟨rfl, rfl⟩ := here
      rw [reason.eq_declared inner declared]
    · exact declared
  | @push p kind mem fit name payload =>
    refine ⟨by simp, fun a ha => ?_, fun a => ?_, fun a m _ declared => ?_⟩
    · rw [name?_push t kind name payload mem, if_neg (Nat.ne_of_lt ha)]
    · rw [nested_push t kind name payload mem]
      split_ifs with new
      · subst new
        simp [nested_of_not_mem (Nat.lt_irrefl t.size)]
      · exact List.prefix_append ..
      · exact List.prefix_refl _
    · rwa [entryAt?_push t kind name payload mem]
  | mark s on => exact ⟨by simp, by simp, by simp, by simp⟩
  | complete => exact ⟨Nat.le_refl _, fun _ _ => rfl, fun _ => List.prefix_refl _, fun _ _ _ => id⟩

theorem Changes.retains (changes : Changes t u) : Retains t u := by
  induction changes with
  | refl => exact .refl t
  | tail _ last ih => exact ih.trans last.retains

/-! ### What is open -/

/-- What one call makes of a use. No report makes it global. -/
theorem Reachable.used_after (h : t.Reachable) (used : t.entryAt? s n = some .used) (call : Call π) :
    (t.after call).entryAt? s n = some .used ∨ (t.after call).entryAt? s n = some .bound ∨
      (s ≠ ScopeId.root ∧ ∃ target, (t.after call).entryAt? s n = some (.captured target)) ∨
      call = .finish ∧ (t.after call).entryAt? s n = some (.global false) := by
  have inner {target : ScopeId} (captured : (t.after call).entryAt? s n = some (.captured target)) :
      s ≠ ScopeId.root := (h.steps (t.steps_after call)).knowsGlobals.inner_of_captured captured
  cases call with
  | report b r =>
    cases performed : t.perform b r with
    | error refusal =>
      rw [after_of_error performed]
      exact .inl used
    | ok u =>
      obtain ⟨mem, acted⟩ := perform_eq_ok.mp performed
      rw [after_of_ok performed] at inner ⊢
      obtain ⟨e, entry, -⟩ := (Grows.perform h.wellFormed performed).entry s n _ used
      cases e with
      | used => exact .inl entry
      | bound => exact .inr (.inl entry)
      | captured target => exact .inr (.inr (.inl ⟨inner entry, target, entry⟩))
      | global declared => simpa [used] using global_of_act h.wellFormed mem acted entry
  | finish =>
    have settled : t.finish.entryAt? s n = some (.ofCapture (t.capture? s n)) :=
      h.wellFormed.settled.of_used h.wellFormed used
    cases found : t.capture? s n with
    | none =>
      rw [found] at settled
      exact .inr (.inr (.inr ⟨rfl, settled⟩))
    | some target =>
      rw [found] at settled
      exact .inr (.inr (.inl ⟨inner settled, target, settled⟩))

/-- What a list of calls makes of a use. If the name is global in the end, then among the calls the
    end of an analysis came upon it when it was still open, and settled it without a declaration. -/
theorem Reachable.used_afterAll (h : t.Reachable) (used : t.entryAt? s n = some .used)
    (calls : List (Call π)) :
    (t.afterAll calls).entryAt? s n = some .used ∨ (t.afterAll calls).entryAt? s n = some .bound ∨
      (s ≠ ScopeId.root ∧ ∃ target, (t.afterAll calls).entryAt? s n = some (.captured target)) ∨
      (∃ declared, (t.afterAll calls).entryAt? s n = some (.global declared)) ∧
        ∃ before rest, calls = before ++ .finish :: rest ∧
        (t.afterAll before).entryAt? s n = some .used ∧
          (t.afterAll before).finish.entryAt? s n = some (.global false) := by
  induction calls generalizing t with
  | nil => exact .inl used
  | cons call calls ih =>
    have reached := h.steps (t.steps_after call)
    have onward := (reached.wellFormed.steps ((t.after call).steps_afterAll calls)).2.grows
    -- while the name is open the later calls decide, and once it is settled it only grows
    rcases h.used_after used call with still | bound | ⟨inner, target, captured⟩ | ⟨rfl, global⟩
    · refine (ih reached still).imp_right fun later => later.imp_right fun later => later.imp_right ?_
      rintro ⟨global, before, rest, rfl, opened, settled⟩
      exact ⟨global, call :: before, rest, rfl, opened, settled⟩
    · exact .inr (.inl (onward.bound bound))
    · exact .inr (.inr (.inl ⟨inner, target, onward.captured inner captured⟩))
    · have here : ∃ before rest, Call.finish :: calls = before ++ .finish :: rest ∧
          (t.afterAll before).entryAt? s n = some .used ∧
          (t.afterAll before).finish.entryAt? s n = some (.global false) :=
            ⟨[], calls, rfl, used, global⟩
      obtain ⟨f, later, ⟨declared, rfl⟩ | ⟨-, rfl⟩⟩ := onward.entry s n _ global
      · exact .inr (.inr (.inr ⟨⟨declared, later⟩, here⟩))
      · exact .inr (.inl later)

end ScopeTree

/-! ### Builds as calls -/

namespace Walking

open Steps ScopeTree

variable {σ π α : Type}

/-- What calls on a tree make of it. -/
def Calls (x y : σ × ScopeTree π) : Prop := ∃ calls, y.2 = x.2.afterAll calls

instance : IsPreorder (σ × ScopeTree π) Calls where
  refl _ := ⟨[], rfl⟩
  trans := by
    rintro x y z ⟨first, hy⟩ ⟨more, hz⟩
    exact ⟨first ++ more, by rw [hz, hy, afterAll_append]⟩

/-- Steps that do nothing to a tree but call on it, whether they fail or not. -/
def MakesCalls (m : Walking σ π α) : Prop := Within Calls m

theorem MakesCalls.report (s : ScopeId) (r : Action π) :
    MakesCalls (Walking.attempt fun t => t.act s r : Walking σ π Unit) := by
  rintro ⟨x, t⟩
  cases acted : t.act s r with
  | error e =>
    rw [attempt_of_error acted]
    exact ⟨[], rfl⟩
  | ok u =>
    rw [attempt_of_ok acted]
    exact exists_calls_of_act acted

/-- A build makes the calls of its walker, and the end of the analysis if none of them fails. -/
theorem MakesCalls.build {w : Walker σ π} (hw : ∀ s, MakesCalls (w s)) : MakesCalls w.build :=
  Walker.build_within hw fun _ => ⟨[.finish], rfl⟩

end Walking

namespace ScopeTree

variable {π : Type} {t : ScopeTree π}

/-! ### Main result -/

/-- What calls make of the entries and the scopes of a tree. -/
structure MovesForward (t : ScopeTree π) (calls : List (Call π)) : Prop where
  stays : ∀ s n, t.entryAt? s n ≠ none → (t.afterAll calls).entryAt? s n ≠ none
  bound : ∀ s n, t.entryAt? s n = some .bound → (t.afterAll calls).entryAt? s n = some .bound
  captured : ∀ s n target, t.entryAt? s n = some (.captured target) →
    (t.afterAll calls).entryAt? s n = some (.captured target)
  global : ∀ s n declared, s ≠ ScopeId.root → t.entryAt? s n = some (.global declared) →
    ∃ later, (t.afterAll calls).entryAt? s n = some (.global later) ∧ (declared → later)
  /-- A use is global only after the end of an analysis has settled it, and no declaration
      has a part in that. -/
  used : ∀ s n, t.entryAt? s n = some .used →
    (t.afterAll calls).entryAt? s n = some .used ∨ (t.afterAll calls).entryAt? s n = some .bound ∨
    (s ≠ ScopeId.root ∧ ∃ target, (t.afterAll calls).entryAt? s n = some (.captured target)) ∨
    (∃ declared, (t.afterAll calls).entryAt? s n = some (.global declared)) ∧
      ∃ before rest, calls = before ++ .finish :: rest ∧ (t.afterAll before).entryAt? s n = some .used ∧
        (t.afterAll before).finish.entryAt? s n = some (.global false)
  rootEntries : ∀ n e, (t.afterAll calls).entryAt? ScopeId.root n = some e →
    e = .used ∨ e = .bound ∨ e = .global false
  rootGlobal : ∀ n declared, t.entryAt? ScopeId.root n = some (.global declared) →
    (t.afterAll calls).entryAt? ScopeId.root n = some (.global false) ∨
    (t.afterAll calls).entryAt? ScopeId.root n = some .bound
  mem : ∀ s ∈ t, s ∈ t.afterAll calls
  kind? : ∀ s ∈ t, (t.afterAll calls).kind? s = t.kind? s
  parent? : ∀ s ∈ t, (t.afterAll calls).parent? s = t.parent? s
  name? : ∀ s ∈ t, (t.afterAll calls).name? s = t.name? s
  nested : ∀ s, t.nested s <+: (t.afterAll calls).nested s
  builds : ∀ (σ : Type) (w : Walker σ π), (∀ s, (w s).MakesCalls) → w.build.MakesCalls

/-- What a tree says of a name is only ever made more definite, whatever is called on the tree and
    whether it is refused or not. -/
theorem entries_move_forward (h : t.Reachable) (calls : List (Call π)) : MovesForward t calls := by
  have steps := t.steps_afterAll calls
  have changes := (h.wellFormed.steps steps).2
  have grows := changes.grows
  have kept := changes.retains
  have plain := (h.steps steps).knowsGlobals.plain
  refine {
    stays := fun s n => grows.ne_none
    bound := fun s n => grows.bound
    captured := fun s n target captured => ?_
    global := fun s n declared inner global => ?_
    used := fun s n used => h.used_afterAll used calls
    rootEntries := plain
    rootGlobal := fun n declared global => ?_
    mem := grows.mem
    kind? := grows.kind?
    parent? := fun s mem => ?_
    name? := kept.name?
    nested := kept.nested
    builds := fun σ w hw => .build hw }
  · exact grows.captured (h.knowsGlobals.inner_of_captured captured) captured
  · cases declared with
    | false =>
      obtain ⟨later, global⟩ := grows.global inner global
      exact ⟨later, global, by simp⟩
    | true => exact ⟨true, kept.declared s n inner global, id⟩
  · obtain ⟨f, later, ⟨d, rfl⟩ | ⟨-, rfl⟩⟩ := grows.entry ScopeId.root n _ global
    · obtain rfl : d = false := by simpa using plain n _ later
      exact .inl later
    · exact .inr later
  · rw [ScopeTree.parent?, grows.enclosing s mem, ScopeTree.parent?]

/-- A function that reads a name. -/
def readsOnce : ScopeTree Unit :=
  (ScopeTree.new ()).recordAll [(0, .nest .function none ()), (1, .load ⟨1⟩)]

/-- A declaration that comes too late is refused, and once a build has settled the name it
    is accepted. -/
theorem entries_move_forward_readsOnce :
    readsOnce.Reachable ∧ readsOnce.entryAt? 1 ⟨1⟩ = some .used ∧
      (readsOnce.afterAll [.report 1 (.declareGlobal ⟨1⟩)]).entryAt? 1 ⟨1⟩ = some .used ∧
      (readsOnce.afterAll [.finish, .report 1 (.declareGlobal ⟨1⟩)]).entryAt? 1 ⟨1⟩ =
        some (.global true) ∧
      (readsOnce.afterAll [.finish, .report 1 (.declareGlobal ⟨1⟩)]).parent? 1 = readsOnce.parent? 1 ∧
      ((Walker.build fun s => Walking.attempt fun t => t.act s (.load ⟨2⟩) :
        Walking Unit Unit Unit).MakesCalls) := by
  have h : readsOnce.Reachable := Reachable.recordAll _ (Reachable.new ())
  have forward := entries_move_forward h [.finish, .report 1 (.declareGlobal ⟨1⟩)]
  exact ⟨h, by decide, by decide, by decide, forward.parent? 1 (by decide),
    forward.builds Unit _ fun s => .report s _⟩

end ScopeTree

end Scoping
