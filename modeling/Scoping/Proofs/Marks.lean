import Scoping.Proofs.Refusal
import Scoping.Proofs.Payload
import Scoping.Scope.Passage

/-! Marks for iterables. The mark is not looked up but copied: a scope takes it over from the scope
    below which it is opened. So while a passage runs in an iterable of a scope, the mark is on this
    scope and on all that is opened below it, at whatever depth, as long as it is not taken away
    there; an inner passage in an iterable puts back what it found. An assignment expression looks
    at the mark of its own scope before anything else and is refused, and in the end the mark of the
    outer scope alone is put back. -/

namespace Scoping

open Relation

namespace ScopeTree

variable {π : Type} {t u : ScopeTree π} {s a b : ScopeId} {n : Ident}

/-! ### The mark of a scope -/

/-- In an iterable an assignment expression is refused, whatever is around. -/
theorem assignExpr_of_inIterable (marked : t.inIterable s = true) (n : Ident) :
    t.assignExpr s n = .error ⟨.assignmentInIterable, n, s⟩ := by
  have refused : t.expressionTarget n s (t.enclosing s) = .error .assignmentInIterable := by
    cases t.enclosing s <;> simp [expressionTarget, marked]
  rw [assignExpr, refused]

theorem Reachable.setInIterable (h : t.Reachable) (mem : s ∈ t) (on : Bool) :
    (t.setInIterable s on).Reachable :=
  have acted : t.act s (.setInIterable on) = .ok (t.setInIterable s on) := rfl
  h.step (.perform (perform_eq_ok.mpr ⟨mem, acted⟩))

/-- After a report a scope has the mark that it had, or the one that the report gives it, or, if it
    is new, the mark of the scope around it. -/
theorem inIterable_of_act {r : Action π} (mem : b ∈ t) (acted : t.act b r = .ok u) (ha : a ∈ u) :
    a ∈ t ∧ u.inIterable a = t.inIterable a ∨
      (∃ on, a = b ∧ r = .setInIterable on ∧ u.inIterable a = on) ∨
      a ∉ t ∧ u.parent? a = some b ∧ u.inIterable a = t.inIterable b := by
  have same_case (same : SameScopes t u) : a ∈ t ∧ u.inIterable a = t.inIterable a :=
    ⟨(mem_congr same.size a).mp ha, same.inIterable a⟩
  cases r with
  | nest kind name payload =>
    obtain ⟨-, -, rfl⟩ := nest_eq_ok acted
    have own := sameScopes_bindOwnName t b kind name
    have mem' := (mem_congr own.size b).mpr mem
    rw [inIterable_push _ kind name payload mem', parent?_push _ kind name payload mem', own.inIterable,
      own.inIterable, own.size]
    rcases (mem_push ..).mp ha with old | new
    · have old : a ∈ t := (mem_congr own.size a).mp old
      exact .inl ⟨old, if_neg (Nat.ne_of_lt old)⟩
    · have new : a = t.size := own.size ▸ new
      subst new
      exact .inr (.inr ⟨Nat.lt_irrefl _, if_pos rfl, if_pos rfl⟩)
  | setInIterable on =>
    cases acted
    have old : a ∈ t := (mem_congr (size_setInIterable ..) a).mp ha
    by_cases here : b = a
    · exact .inr (.inl ⟨on, here.symm, rfl, by rw [inIterable_setInIterable t on a mem, if_pos here]⟩)
    · exact .inl ⟨old, by rw [inIterable_setInIterable t on a mem, if_neg here]⟩
  | load n | store n | assignExpr n | declareNonlocal n | declareGlobal n =>
    exact .inl (same_case (sameScopes_act mem rfl acted))

end ScopeTree

/-! ### Stretches -/

/-- A stretch of analysis in an iterable of a scope, with the id of the first scope that is
    opened in its course. -/
structure Stretch where
  scope : ScopeId
  first : ScopeId

namespace Stretch

open ScopeTree

variable {π : Type} {k : Stretch} {t u : ScopeTree π} {a b : ScopeId}

/-- The scopes that belong to a stretch: the scope that it is in, and what is opened in its
    course below one of them. -/
inductive Covers (k : Stretch) (t : ScopeTree π) : ScopeId → Prop
  | here : Covers k t k.scope
  | opened {a p : ScopeId} (new : k.first ≤ a) (parent : t.parent? a = some p) (outer : Covers k t p) :
      Covers k t a

theorem Covers.mem (covered : k.Covers t a) (wf : t.WellFormed) (mem : k.scope ∈ t) : a ∈ t := by
  cases covered with
  | here => exact mem
  | opened _ parent _ => exact (wf.enclosing_of_parent? parent).1

/-- A scope that was there before belongs to a stretch if it did before. -/
theorem Covers.of_grows (covered : k.Covers u a) (wf : t.WellFormed) (g : Grows t u) (ha : a ∈ t) :
    k.Covers t a := by
  induction covered with
  | here => exact .here
  | @opened a p new parent _ ih =>
    have parent : t.parent? a = some p := by
      rwa [parent?, ← g.enclosing a ha]
    obtain ⟨-, lt, -⟩ := wf.enclosing_of_parent? parent
    exact .opened new parent (ih (Nat.lt_trans lt ha))

/-- The mark is on every scope that belongs to a stretch. -/
def Marked (k : Stretch) (t : ScopeTree π) : Prop := ∀ a, k.Covers t a → t.inIterable a = true

/-- Whether a report takes the mark away from a scope of a stretch. -/
def Unmarks (k : Stretch) (m : Filed π) : Prop :=
  m.action = .setInIterable false ∧ k.Covers m.before m.scope

/-- An assignment expression in a scope of a stretch is refused for that reason, and changes nothing. -/
def Refuses (k : Stretch) (m : Filed π) : Prop :=
  ∀ n, m.action = .assignExpr n → k.Covers m.before m.scope →
    m.refusal = some ⟨.assignmentInIterable, n, m.scope⟩ ∧ m.after = m.before

/-- Marks stay where a tree grows but opens no scope and gives no mark. -/
theorem Marked.of_grows (marked : k.Marked t) (wf : t.WellFormed) (wf' : u.WellFormed) (hk : k.scope ∈ t)
    (g : Grows t u) (size : u.size = t.size) (same : ∀ a, u.inIterable a = t.inIterable a) :
    k.Marked u := by
  intro a covered
  have ha := covered.mem wf' (g.mem _ hk)
  rw [same]
  exact marked a (covered.of_grows wf g ((mem_congr size a).mp ha))

/-- A report that does not take the mark away lets it stay, and gives it to a scope that it
    opens below a marked one. -/
theorem Marked.act (marked : k.Marked t) (wf : t.WellFormed) (hk : k.scope ∈ t) {r : Action π}
    (mem : b ∈ t)
    (acted : t.act b r = .ok u) (spared : r = .setInIterable false → ¬k.Covers t b) : k.Marked u := by
  have changes := changes_act wf mem acted
  have g := changes.grows
  intro a covered
  have ha := covered.mem (changes.wellFormed wf) (g.mem _ hk)
  rcases inIterable_of_act mem acted ha with ⟨old, same⟩ | ⟨on, rfl, rfl, given⟩ | ⟨new, parent, taken⟩
  · rw [same]
    exact marked a (covered.of_grows wf g old)
  · cases on with
    | true => exact given
    | false => exact absurd (covered.of_grows wf g mem) (spared rfl)
  · cases covered with
    | here => exact absurd hk new
    | opened _ parent' outer =>
      obtain rfl := Option.some.inj (parent.symm.trans parent')
      rw [taken]
      exact marked b (outer.of_grows wf g mem)

/-! ### What steps do to a stretch -/

/-- What a stretch has come to: the marks are on, and what was filed has been refused where
    it had to be. -/
structure Held (k : Stretch) (x : List (Filed π) × ScopeTree π) : Prop where
  mem : k.scope ∈ x.2
  marked : k.Marked x.2
  refused : ∀ m ∈ x.1, k.Refuses m

/-- What steps make of a tree and of what is filed. If none of the reports takes a mark of a stretch
    away, then the stretch holds afterwards if it did before. -/
structure Leads (k : Stretch) (x y : List (Filed π) × ScopeTree π) : Prop where
  reached : y.2.Reachable
  grows : Grows x.2 y.2
  filed : x.1 <+: y.1
  held : (∀ m ∈ y.1, ¬k.Unmarks m) → k.Held x → k.Held y

namespace Leads

variable {x y z : List (Filed π) × ScopeTree π}

theorem refl (h : x.2.Reachable) : k.Leads x x := ⟨h, .refl _, List.prefix_refl _, fun _ held => held⟩

theorem trans (first : k.Leads x y) (second : k.Leads y z) : k.Leads x z where
  reached := second.reached
  grows := first.grows.trans second.grows
  filed := first.filed.trans second.filed
  held spared held := second.held spared
    (first.held (fun m filed => spared m (second.filed.subset filed)) held)

end Leads

/-- What a reachable tree comes to. -/
def Outlasts (k : Stretch) (x y : List (Filed π) × ScopeTree π) : Prop := x.2.Reachable → k.Leads x y

instance (k : Stretch) : IsPreorder (List (Filed π) × ScopeTree π) k.Outlasts where
  refl _ := .refl
  trans _ _ _ first second h := (first h).trans (second (first h).reached)

end Stretch

namespace Walking

open Steps ScopeTree

variable {π α : Type} {k : Stretch} {x : List (Filed π) × ScopeTree π}

theorem within_outcome {R : List (Filed π) × ScopeTree π → List (Filed π) × ScopeTree π → Prop}
    {m : Walking (List (Filed π)) π α} (hm : Within R m) : Within R (Walking.outcome m) := hm

/-- Steps that a stretch outlasts. -/
def Lets (k : Stretch) (m : Walking (List (Filed π)) π α) : Prop := Within k.Outlasts m

/-! ### Reports -/

/-- A report in place is the report as a function also where it is out of place. -/
theorem report_apply_of_outOfPlace {t : ScopeTree π} (h : t.Reachable) {s : ScopeId} {r : Action π}
    (out : outOfPlace s r) : InPlace.report s r ((), t) = attempt (·.act s r) ((), t) := by
  cases r with
  | nest kind name payload =>
    have misplaced : ¬(fits kind s ∧ s ∈ t) := by
      rintro ⟨fit, -⟩
      simp [outOfPlace, fit] at out
    have made := InPlace.nest_apply (x := ()) h s kind name payload
    rw [nest, if_pos misplaced] at made
    rw [InPlace.report, bind_of_error made, attempt_apply, act, nest, if_pos misplaced]
  | _ => cases out

/-- A report that is filed has its outcome as a function, and if it is refused then nothing
    has changed. -/
theorem file_apply (h : x.2.Reachable) (s : ScopeId) (r : Action π) :
    file s r x = match x.2.perform s r with
      | .ok u => .ok none (x.1 ++ [⟨s, r, x.2, none, u⟩], u)
      | .error (.binding e) => .ok (some e) (x.1 ++ [⟨s, r, x.2, some e, x.2⟩], x.2)
      | .error (.noSuchScope _) => .ok none x := by
  rw [file, perform]
  by_cases possible : s ∈ x.2 ∨ outOfPlace s r
  · have made : InPlace.report s r ((), x.2) = attempt (·.act s r) ((), x.2) := by
      by_cases mem : s ∈ x.2
      · exact InPlace.report_apply h mem r
      · exact report_apply_of_outOfPlace h (possible.resolve_left mem)
    rw [if_pos possible, if_pos possible, made, attempt_apply]
    cases x.2.act s r <;> rfl
  · rw [if_neg possible, if_neg possible]

theorem Lets.file (s : ScopeId) (r : Action π) : Lets k (Walking.file s r) := by
  intro x h
  have wf := h.wellFormed
  rw [file_apply h]
  cases performed : x.2.perform s r with
  | ok u =>
    obtain ⟨mem, acted⟩ := perform_eq_ok.mp performed
    have grows := (changes_act wf mem acted).grows
    refine ⟨h.step (.perform performed), grows, List.prefix_append .., fun spared held => ?_⟩
    have kept : r = .setInIterable false → ¬k.Covers x.2 s := fun takes covered =>
      spared ⟨s, r, x.2, none, u⟩ (by simp [left]) ⟨takes, covered⟩
    refine ⟨grows.mem _ held.mem, held.marked.act wf held.mem mem acted kept, ?_⟩
    simp only [left, List.mem_append, List.mem_singleton]
    rintro m (before | rfl)
    · exact held.refused m before
    · -- an assignment expression in a marked scope would not have been accepted
      rintro n rfl covered
      rw [act, assignExpr_of_inIterable (held.marked s covered) n] at acted
      cases acted
  | error refusal =>
    cases refusal with
    | binding e =>
      refine ⟨h, .refl _, List.prefix_append .., fun _ held => ⟨held.mem, held.marked, ?_⟩⟩
      simp only [left, List.mem_append, List.mem_singleton]
      rintro m (before | rfl)
      · exact held.refused m before
      · rintro n rfl covered
        have refused := assignExpr_of_inIterable (held.marked s covered) n
        rw [perform, if_pos (.inl (covered.mem wf held.mem)), act, refused] at performed
        obtain rfl := Refusal.binding.inj (Except.error.inj performed)
        exact ⟨rfl, rfl⟩
    | noSuchScope a => exact .refl h

/-- Payloads have nothing to do with marks. -/
theorem Lets.setPayload (s : ScopeId) (payload : π) :
    Lets k (Walking.update (ScopeTree.setPayload · s payload) : Walking (List (Filed π)) π Unit) := by
  intro x h
  have reached := h.setPayload s payload
  have grows : Grows x.2 (x.2.setPayload s payload) := by
    rw [setPayload_eq]
    exact ⟨fun a ha => (mem_withPayloads ..).mpr ha, fun a _ => enclosing_withPayloads ..,
      fun a _ => kind?_withPayloads ..,
      fun a n e entry => ⟨e, by rw [entryAt?_withPayloads, entry], .refl e⟩⟩
  have same (a : ScopeId) : (x.2.setPayload s payload).inIterable a = x.2.inIterable a := by
    rw [setPayload_eq, inIterable_withPayloads]
  exact ⟨reached, grows, List.prefix_refl _, fun _ held => ⟨grows.mem _ held.mem,
    held.marked.of_grows h.wellFormed reached.wellFormed held.mem grows (size_modifyScope ..) same,
    held.refused⟩⟩

/-! ### Inner stretches and builds -/

/-- A scope that belongs to a stretch is marked when an inner passage in an iterable of it begins,
    so the mark is what it gets back in the end. -/
theorem Lets.withIterable {s : ScopeId} {m : Walking (List (Filed π)) π Unit} (hm : Lets k m) :
    Lets k (ifThere s (Walking.withIterable s m)) := by
  intro x h
  rw [ifThere]
  split_ifs with mem
  · rw [left_withIterable]
    have wf := h.wellFormed
    have giving : x.2.act s (.setInIterable true) = .ok (x.2.setInIterable s true) := rfl
    have given : k.Leads x (x.1, x.2.setInIterable s true) :=
      ⟨h.setInIterable mem true, (Change.mark s true).grows, List.prefix_refl _,
        fun _ held => ⟨(mem_congr (size_setInIterable ..) _).mpr held.mem,
          held.marked.act wf held.mem mem giving nofun, held.refused⟩⟩
    have upto := given.trans (hm _ given.reached)
    generalize left (m (x.1, x.2.setInIterable s true)) = y at upto ⊢
    have mem' := upto.grows.mem s mem
    have back : Grows y.2 (y.2.setInIterable s (x.2.inIterable s)) := (Change.mark s _).grows
    have reached := upto.reached.setInIterable mem' (x.2.inIterable s)
    refine ⟨reached, upto.grows.trans back, upto.filed, fun spared held => ?_⟩
    have inner := upto.held spared held
    refine ⟨back.mem _ inner.mem, fun a covered => ?_, inner.refused⟩
    have ha : a ∈ y.2 :=
      (mem_congr (size_setInIterable ..) a).mp (covered.mem reached.wellFormed (back.mem _ inner.mem))
    have covered := covered.of_grows upto.reached.wellFormed back ha
    rw [inIterable_setInIterable _ _ a mem']
    split_ifs with here
    · subst here
      exact held.marked s (covered.of_grows wf upto.grows mem)
    · exact inner.marked a covered
  · exact .refl h

/-- The end of the analysis leaves all marks alone. -/
theorem Lets.finish : Lets k (Walking.update ScopeTree.finish : Walking (List (Filed π)) π Unit) := by
  intro x h
  have wf := h.wellFormed
  have reached := h.step (.finish x.2)
  have grows := (changes_finish wf).grows
  have same := wf.settled.same
  exact ⟨reached, grows, List.prefix_refl _, fun _ held => ⟨grows.mem _ held.mem,
    held.marked.of_grows wf reached.wellFormed held.mem grows same.size same.inIterable, held.refused⟩⟩

end Walking

/-! ### Passages -/

namespace Passage

open Steps Walking ScopeTree

variable {π : Type} {k : Stretch}

/-- A stretch outlasts every passage. -/
theorem run_lets (f : Passage π) : Lets k f.run := by
  induction f with
  | done => exact .pure ()
  | fail e => exact .throw e
  | look further ih => exact .bind within_tree ih
  | report s r further ih => exact .bind (Lets.file s r) ih
  | attach s payload further ih => exact .bind (Lets.setPayload s payload) fun _ => ih
  | inIterable s inner further inner_ih ih =>
    exact .bind (within_outcome (Lets.withIterable inner_ih)) ih
  | build walker further walker_ih ih =>
    exact .bind (within_outcome (Walker.build_within walker_ih Lets.finish)) ih

/-! ### Main result -/

variable {t : ScopeTree π} {s : ScopeId}

/-- What becomes of a stretch if no mark of it is taken away, in the course of a passage and after it. -/
structure Sheltered (k : Stretch) (inside outside : List (Filed π) × ScopeTree π) : Prop where
  refuses : ∀ m ∈ inside.1, ∀ n, m.action = .assignExpr n → k.Covers m.before m.scope →
    m.refusal = some ⟨.assignmentInIterable, n, m.scope⟩ ∧ m.after = m.before
  marked : ∀ a, k.Covers inside.2 a → inside.2.inIterable a = true
  stays : ∀ a ≠ k.scope, k.Covers outside.2 a → outside.2.inIterable a = true

/-- What a passage in an iterable of a scope comes to, from what the passage itself does there. -/
structure InIterable (t : ScopeTree π) (s : ScopeId)
    (inside outside : EStateM.Result BindingError (List (Filed π) × ScopeTree π) Unit) : Prop where
  sheltered : (∀ m ∈ (left inside).1, ¬Stretch.Unmarks ⟨s, t.size⟩ m) →
    Sheltered ⟨s, t.size⟩ (left inside) (left outside)
  failure : failure? outside = failure? inside
  filed : (left outside).1 = (left inside).1
  tree : (left outside).2 = (left inside).2.setInIterable s (t.inIterable s)
  restored : (left outside).2.inIterable s = t.inIterable s
  others : ∀ a ≠ s, (left outside).2.inIterable a = (left inside).2.inIterable a

/-- In an iterable no assignment expression gets through, in the scope itself or below
    it, unless a mark is taken away there; in the end the scope is marked as before. -/
theorem iterable_refuses_assignments (h : t.Reachable) (hs : s ∈ t) (f : Passage π) :
    InIterable t s (f.run ([], t.setInIterable s true)) (withIterable s f.run ([], t)) := by
  let k : Stretch := ⟨s, t.size⟩
  let inside := f.run ([], t.setInIterable s true)
  let outside := withIterable s f.run ([], t)
  have begun : (t.setInIterable s true).Reachable := h.setInIterable hs true
  have leads : k.Leads ([], t.setInIterable s true) (left inside) := f.run_lets _ begun
  have mem : s ∈ (left inside).2 := leads.grows.mem s ((mem_congr (size_setInIterable ..) s).mpr hs)
  have after : left outside = ((left inside).1, (left inside).2.setInIterable s (t.inIterable s)) :=
    left_withIterable s f.run ([], t)
  have ended : failure? outside = failure? inside := by
    simp only [outside, inside, Walking.withIterable, ScopeTree.withIterable]
    cases f.run ([], t.setInIterable s true) <;> rfl
  have mark (a : ScopeId) := inIterable_setInIterable (left inside).2 (t.inIterable s) a mem
  have others : ∀ a ≠ s, (left outside).2.inIterable a = (left inside).2.inIterable a := by
    intro a other
    rw [after, mark, if_neg (Ne.symm other)]
  have restored : (left outside).2.inIterable s = t.inIterable s := by
    rw [after, mark, if_pos rfl]
  have filed : (left outside).1 = (left inside).1 := by rw [after]
  have tree : (left outside).2 = (left inside).2.setInIterable s (t.inIterable s) := by rw [after]
  refine ⟨fun spared => ?_, ended, filed, tree, restored, others⟩
  have held : k.Held ([], t.setInIterable s true) := by
    refine ⟨(mem_congr (size_setInIterable ..) s).mpr hs, fun a covered => ?_,
      fun m filed => (List.not_mem_nil filed).elim⟩
    -- nothing has been opened yet
    cases covered with
    | here => rw [inIterable_setInIterable t true s hs, if_pos rfl]
    | opened new parent =>
      have old := (begun.wellFormed.enclosing_of_parent? parent).1
      exact absurd ((mem_congr (size_setInIterable ..) a).mp old) (Nat.not_lt.mpr new)
  have held := leads.held spared held
  refine ⟨held.refused, held.marked, fun a other covered => ?_⟩
  rw [after] at covered
  have ended := leads.reached.setInIterable mem (t.inIterable s)
  have old := covered.mem ended.wellFormed ((mem_congr (size_setInIterable ..) s).mpr mem)
  rw [others a other]
  exact held.marked a (covered.of_grows leads.reached.wellFormed (Change.mark s _).grows
    ((mem_congr (size_setInIterable ..) a).mp old))

/-- A function with a comprehension in it. -/
def comprehensionInFunction : ScopeTree Unit :=
  (new ()).recordAll [(0, .nest .function none ()), (1, .nest .comprehension none ())]

/-- Opens a lambda in the comprehension, a class in the lambda and a function in the class, with an
    assignment expression in the innermost, and breaks off an iterable of the class; then there is
    another in a lambda beside the comprehension. -/
def lambdasAround : Passage Unit :=
  report 2 (.nest .lambda none ()) fun _ => report 3 (.nest .classBody none ()) fun _ =>
    inIterable 4 (report 4 (.nest .function none ()) fun _ => report 5 (.assignExpr ⟨1⟩) fun refusal =>
      refusal.elim done fail) fun _ =>
    report 1 (.nest .lambda none ()) fun _ => report 6 (.assignExpr ⟨1⟩) fun _ => done

theorem iterable_refuses_assignments_lambdasAround :
    let inside := lambdasAround.run ([], comprehensionInFunction.setInIterable 2 true)
    let outside := withIterable 2 lambdasAround.run ([], comprehensionInFunction)
    comprehensionInFunction.Reachable ∧
      (∃ m ∈ (left inside).1, m.scope = 5 ∧ m.action = .assignExpr ⟨1⟩ ∧
        m.refusal = some ⟨.assignmentInIterable, ⟨1⟩, 5⟩ ∧ m.after = m.before) ∧
      (∃ m ∈ (left inside).1, m.scope = 6 ∧ m.action = .assignExpr ⟨1⟩ ∧ m.refusal = none) ∧
      (left outside).2.inIterable 2 = false ∧ (left outside).2.inIterable 5 = true ∧
      (left outside).2.inIterable 6 = false := by
  intro inside outside
  have h : comprehensionInFunction.Reachable := Reachable.recordAll _ (.new ())
  have run := iterable_refuses_assignments (s := 2) h (by decide) lambdasAround
  have spared : ∀ m ∈ (left inside).1, m.action ≠ .setInIterable false := by
    have reports : (left inside).1.map Filed.action = [.nest .lambda none (), .nest .classBody none (),
        .nest .function none (), .assignExpr ⟨1⟩, .nest .lambda none (), .assignExpr ⟨1⟩] := rfl
    intro m filed clears
    have reported := List.mem_map_of_mem (f := Filed.action) filed
    rw [reports, clears] at reported
    simp at reported
  have sheltered := run.sheltered fun m filed unmarks => spared m filed unmarks.1
  have parents (t : ScopeTree Unit) (first : t.parent? 3 = some 2) (second : t.parent? 4 = some 3)
      (third : t.parent? 5 = some 4) : Stretch.Covers ⟨2, 3⟩ t 5 :=
    .opened (by decide) third (.opened (by decide) second (.opened (by decide) first .here))
  let m := (left inside).1.get ⟨3, by decide +kernel⟩
  let beside := (left inside).1.get ⟨5, by decide +kernel⟩
  refine ⟨h, ⟨m, List.get_mem .., rfl, rfl, sheltered.refuses m (List.get_mem ..) ⟨1⟩ rfl ?_⟩,
    ⟨beside, List.get_mem .., rfl, rfl, rfl⟩, run.restored.trans (by decide),
    sheltered.stays 5 (by decide) ?_,
    (run.others 6 (by decide)).trans (by decide +kernel)⟩
  · exact parents m.before (by decide +kernel) (by decide +kernel) (by decide +kernel)
  · exact parents (left outside).2 (by decide +kernel) (by decide +kernel) (by decide +kernel)

end Passage

end Scoping
