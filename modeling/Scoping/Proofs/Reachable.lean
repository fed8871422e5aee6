import Scoping.Proofs.Change
import Scoping.Proofs.Within
import Scoping.Scope.Walk

/-! Reachable trees. A tree comes into being with the global scope alone and then goes through
    reports that are accepted and ends of the analysis; a refused report leaves it as it is. Every
    step is a chain of elementary changes, so what these keep is true of every reachable tree. A
    build is made of such steps as well, whatever its walker reports and whether it fails or not. -/

namespace Scoping

namespace ScopeTree

variable {π : Type} {t u : ScopeTree π} {s : ScopeId} {n : Ident}

open Relation

/-! ### Reachable trees -/

/-- One step in the life of a tree: a report that is accepted, or the end of the analysis. -/
inductive Step : ScopeTree π → ScopeTree π → Prop
  | perform {t u : ScopeTree π} {s : ScopeId} {a : Action π} (accepted : t.perform s a = .ok u) :
      Step t u
  | finish (t : ScopeTree π) : Step t t.finish

/-- The trees that come into being by such steps. -/
def Reachable (t : ScopeTree π) : Prop := ∃ payload, ReflTransGen Step (.new payload) t

/-- A report is accepted only in a scope of the tree. -/
theorem perform_eq_ok {a : Action π} : t.perform s a = .ok u ↔ s ∈ t ∧ t.act s a = .ok u := by
  rw [perform]
  split_ifs with hs
  · cases hu : t.act s a with
    | error e => simp [Except.mapError]
    | ok v =>
      have mem : s ∈ t := by
        refine hs.elim id fun out => ?_
        cases a with
        | nest kind name payload => exact (nest_eq_ok hu).2.1
        | _ => cases out
      simp [Except.mapError, mem]
  · simp only [false_iff]
    exact fun h => hs (.inl h.1)

theorem WellFormed.perform (h : t.WellFormed) {a : Action π} (performed : t.perform s a = .ok u) :
    u.WellFormed := by
  obtain ⟨mem, acted⟩ := perform_eq_ok.mp performed
  exact (changes_act h mem acted).wellFormed h

theorem Step.changes (h : t.WellFormed) (hu : Step t u) : Changes t u := by
  cases hu with
  | perform accepted =>
    obtain ⟨mem, acted⟩ := perform_eq_ok.mp accepted
    exact changes_act h mem acted
  | finish => exact changes_finish h

/-- What holds of new trees and is kept by every elementary change holds of every reachable tree. -/
theorem Reachable.induction {P : ScopeTree π → Prop} (h : t.Reachable)
    (new : ∀ payload, P (.new payload))
    (change : ∀ t u, t.WellFormed → Change t u → P t → P u) : t.WellFormed ∧ P t := by
  obtain ⟨payload, steps⟩ := h
  have along : ∀ {v w : ScopeTree π}, Changes v w → v.WellFormed ∧ P v → w.WellFormed ∧ P w := by
    intro v w changes hv
    induction changes with
    | refl => exact hv
    | tail _ last ih => exact ⟨last.wellFormed ih.1, change _ _ ih.1 last ih.2⟩
  induction steps with
  | refl => exact ⟨.new payload, new payload⟩
  | tail _ last ih => exact along (last.changes ih.1) ih

theorem Reachable.wellFormed (h : t.Reachable) : t.WellFormed :=
  (h.induction (P := fun _ => True) (fun _ => trivial) fun _ _ _ _ _ => trivial).1

theorem Reachable.new (payload : π) : (ScopeTree.new payload).Reachable := ⟨payload, .refl⟩

theorem Reachable.step (h : t.Reachable) (hu : Step t u) : u.Reachable := by
  obtain ⟨payload, steps⟩ := h
  exact ⟨payload, steps.tail hu⟩

/-! ### Lists of reports -/

/-- The tree after a report on one of its scopes. A refused report leaves the tree as it is. -/
def record (t : ScopeTree π) (report : ScopeId × Action π) : ScopeTree π :=
  match t.perform report.1 report.2 with
  | .ok u => u
  | .error _ => t

/-- The tree after a list of reports. -/
def recordAll (t : ScopeTree π) (reports : List (ScopeId × Action π)) : ScopeTree π :=
  reports.foldl record t

theorem Reachable.record (h : t.Reachable) (report : ScopeId × Action π) :
    (t.record report).Reachable := by
  rw [ScopeTree.record]
  split
  · rename_i u accepted
    exact h.step (.perform accepted)
  · exact h

theorem Reachable.recordAll : ∀ (reports : List (ScopeId × Action π)) {t : ScopeTree π}, t.Reachable →
    (t.recordAll reports).Reachable
  | [], _, h => h
  | report :: reports, _, h => Reachable.recordAll reports (h.record report)

section cons

variable {report : ScopeId × Action π} (reports : List (ScopeId × Action π))

theorem recordAll_cons_of_ok (performed : t.perform report.1 report.2 = .ok u) :
    t.recordAll (report :: reports) = u.recordAll reports := by
  rw [recordAll, List.foldl_cons, record, performed]
  rfl

theorem recordAll_cons_of_error {e : Refusal} (refused : t.perform report.1 report.2 = .error e) :
    t.recordAll (report :: reports) = t.recordAll reports := by
  rw [recordAll, List.foldl_cons, record, refused]
  rfl

end cons

/-- A report on a scope that the tree does not hold changes nothing, or else what it does is a
    binding in the global scope. -/
theorem act_of_not_mem (hs : s ∉ t) {a : Action π} (acted : t.act s a = .ok u) :
    u = t ∨ ∃ n, u = t.store ScopeId.root n := by
  have entry := entryAt?_of_not_mem hs
  have kept (n : Ident) (e : Entry) : t.setEntry s n e = t := modifyScope_of_not_mem hs _
  have stored (n : Ident) : t.store s n = t := by rw [store_of_undecided (.inl (entry n)), kept]
  cases a with
  | load n =>
    cases acted
    refine .inl ?_
    rw [load, entry]
    exact kept n _
  | store n =>
    cases acted
    exact .inl (stored n)
  | assignExpr n =>
    obtain ⟨target, found, cases⟩ := assignExpr_eq_ok acted
    rw [enclosing_of_not_mem hs] at found
    obtain ⟨inner, outer, way, -⟩ := expressionTarget_eq_ok found
    have here : target = s := by
      have : target ∈ [s] := way ▸ List.mem_append_right inner List.mem_cons_self
      exact List.mem_singleton.mp this
    rcases cases with ⟨-, rfl⟩ | ⟨ne, -⟩ | ⟨ne, -⟩
    · exact .inl (stored n)
    iterate 2 exact absurd here ne
  | declareNonlocal n =>
    have unknown : t.kind? s = none := by rw [kind?, scope?_of_not_mem hs]; rfl
    rw [act, declareNonlocal, unknown] at acted
    cases acted
  | declareGlobal n =>
    rw [act, declareGlobal, entry, kept] at acted
    split_ifs at acted with root
    · exact .inr ⟨n, by rw [← root]; exact (Except.ok.inj acted).symm⟩
    · exact .inr ⟨n, (Except.ok.inj acted).symm⟩
  | nest kind name payload => exact absurd (nest_eq_ok acted).2.1 hs
  | setInIterable on =>
    cases acted
    exact .inl (modifyScope_of_not_mem hs _)

/-- A report leads from reachable trees to reachable trees, whatever scope it is about. -/
theorem Reachable.act (h : t.Reachable) {a : Action π} (acted : t.act s a = .ok u) : u.Reachable := by
  by_cases hs : s ∈ t
  · exact h.step (.perform (perform_eq_ok.mpr ⟨hs, acted⟩))
  · rcases act_of_not_mem hs acted with rfl | ⟨n, rfl⟩
    · exact h
    · have bound : t.act ScopeId.root (.store n) = .ok (t.store ScopeId.root n) := rfl
      exact h.step (.perform (perform_eq_ok.mpr ⟨h.wellFormed.root_mem, bound⟩))

end ScopeTree

/-! ### Builds -/

namespace Walking

open Steps

variable {σ π α : Type} {P : ScopeTree π → Prop}

section attempt

variable {f : ScopeTree π → Except BindingError (ScopeTree π)} {x : σ} {t u : ScopeTree π}

theorem attempt_apply : attempt f (x, t) = match f t with
    | .ok u => .ok () (x, u)
    | .error e => .error e (x, t) := rfl

theorem attempt_of_ok (done : f t = .ok u) : attempt f (x, t) = .ok () (x, u) := by
  rw [attempt_apply, done]

theorem attempt_of_error {e : BindingError} (refused : f t = .error e) :
    attempt f (x, t) = .error e (x, t) := by
  rw [attempt_apply, refused]

end attempt

theorem within_tree {R : σ × ScopeTree π → σ × ScopeTree π → Prop} [IsPreorder _ R] :
    Within R (Walking.tree : Walking σ π (ScopeTree π)) := refl

/-- What steps in an iterable leave. The mark is taken back to what it was. -/
theorem left_withIterable (s : ScopeId) (m : Walking σ π Unit) (x : σ × ScopeTree π) :
    left (withIterable s m x) = ((left (m (x.1, x.2.setInIterable s true))).1,
      (left (m (x.1, x.2.setInIterable s true))).2.setInIterable s (x.2.inIterable s)) := by
  rw [withIterable, ScopeTree.withIterable]
  cases m (x.1, x.2.setInIterable s true) <;> rfl

/-- Steps that keep a property of the tree, whether they fail or not. -/
def Keeps (P : ScopeTree π → Prop) (m : Walking σ π α) : Prop := Within (fun x y => P x.2 → P y.2) m

theorem Keeps.update {f : ScopeTree π → ScopeTree π} (h : ∀ t, P t → P (f t)) :
    Keeps P (Walking.update f : Walking σ π Unit) := fun x hx => h x.2 hx

end Walking

namespace Walker

open Steps Walking ScopeTree

variable {σ π : Type} {P : ScopeTree π → Prop} {w : Walker σ π}

section within

variable {R : σ × ScopeTree π → σ × ScopeTree π → Prop} [IsPreorder _ R]

theorem walkNested_within (hw : ∀ s, Within R (w s)) : ∀ fuel s i, Within R (w.walkNested fuel s i)
  | 0, _, _ => .pure ()
  | fuel + 1, s, i => by
    refine .bind within_tree fun t => ?_
    split
    · exact .pure ()
    · rename_i child _
      exact .bind (hw child) fun _ =>
        .bind (walkNested_within hw fuel child 0) fun _ => walkNested_within hw fuel s (i + 1)

theorem walk_within (hw : ∀ s, Within R (w s)) : Within R w.walk :=
  .bind (hw _) fun _ => walkNested_within hw _ _ _

/-- A build stays within what its walker and the end of the analysis stay within. -/
theorem build_within (hw : ∀ s, Within R (w s))
    (hf : Within R (Walking.update finish : Walking σ π Unit)) : Within R w.build := by
  refine .bind within_tree fun t => ?_
  dsimp only
  split
  · exact hf
  · exact .bind (walk_within hw) fun _ => hf

end within

theorem build_keeps (hw : ∀ s, Keeps P (w s)) (hf : ∀ t, P t → P t.finish) : Keeps P w.build :=
  build_within hw (Keeps.update hf)

/-- Builds, whether they fail or not, lead from reachable trees to reachable trees. -/
theorem build_reachable (hw : ∀ s, Keeps Reachable (w s)) : Keeps Reachable w.build :=
  build_keeps hw fun t h => h.step (.finish t)

theorem walkNested_idle (x : σ × ScopeTree π) : ∀ fuel s i,
    (idle : Walker σ π).walkNested fuel s i x = .ok () x
  | 0, _, _ => rfl
  | fuel + 1, s, i => by
    unfold walkNested
    change EStateM.bind Walking.tree _ x = _
    simp only [EStateM.bind, Walking.tree]
    cases (x.2.nested s)[i]? with
    | none => rfl
    | some child =>
      change EStateM.bind ((idle : Walker σ π).walkNested fuel child 0) _ x = _
      rw [EStateM.bind, walkNested_idle x fuel child 0]
      exact walkNested_idle x fuel s (i + 1)

/-- On a tree whose analysis is complete a build does not call its walker. -/
theorem build_of_built (w : Walker σ π) {x : σ × ScopeTree π} (built : x.2.built) :
    w.build x = .ok () (x.1, x.2.finish) := by
  change (if x.2.built then Walking.update finish else do
    w.walk
    Walking.update finish) x = _
  rw [if_pos built]
  rfl

theorem build_of_not_built (w : Walker σ π) {x : σ × ScopeTree π} (fresh : x.2.built = false) :
    w.build x = (do w.walk; Walking.update finish : Walking σ π Unit) x := by
  change (if x.2.built then Walking.update finish else do
    w.walk
    Walking.update finish) x = _
  rw [fresh]
  rfl

/-- A build that succeeds ends with the end of the analysis. -/
theorem build_eq_ok (hw : ∀ s, Keeps P (w s)) {x y : σ × ScopeTree π} (hx : P x.2)
    (done : w.build x = .ok () y) : ∃ t, P t ∧ y.2 = t.finish := by
  cases built : x.2.built with
  | true =>
    rw [build_of_built w built] at done
    cases done
    exact ⟨x.2, hx, rfl⟩
  | false =>
    rw [build_of_not_built w built] at done
    obtain ⟨_, z, walked, finished⟩ := bind_eq_ok done
    cases finished
    exact ⟨z.2, (walk_within hw).of_ok walked hx, rfl⟩

/-- A build with a walker that reports nothing is the end of the analysis. -/
theorem build_idle (x : σ × ScopeTree π) : (idle : Walker σ π).build x = .ok () (x.1, x.2.finish) := by
  change (if x.2.built then Walking.update finish else do
    (idle : Walker σ π).walk
    Walking.update finish) x = _
  cases x.2.built with
  | true => rfl
  | false =>
    change EStateM.bind ((idle : Walker σ π).walkNested capacity ScopeId.root 0) _ x = _
    rw [EStateM.bind, walkNested_idle]
    rfl

end Walker

end Scoping
