import Scoping.Proofs.Beside
import Scoping.Proofs.Globals

/-! Late reports. An analysis may be completed, and then more reports come and it is completed
    again. Reports that bind nothing, reads and the opening of scopes without a name, do not mind:
    what they bring is settled in the end as it would have been at once, since searches have the
    same outcome in the settled tree, and a settled tree has nothing else left to settle. So two
    trees that are the same once they are complete stay so under such reports, and a list of them is
    dealt with one after the other. -/

namespace Scoping

/-- Whether a report binds and declares nothing: it reads a name, or opens a scope that
    binds no name around it. -/
def Action.bindsNothing {π : Type} : Action π → Bool
  | .load _ => true
  | .nest kind name _ => !(kind.bindsName && name.isSome)
  | _ => false

namespace ScopeTree

variable {π : Type} {t u : ScopeTree π} {s a p : ScopeId} {n m : Ident}

/-! ### Settled entries compared -/

section Settled

variable {t' u' : ScopeTree π}

/-- An entry is settled alike in two trees in which its search has the same outcome. -/
theorem Settled.entryAt?_congr (k : Settled t u) (k' : Settled t' u') (h : t.WellFormed)
    (h' : t'.WellFormed)
    (entry : t'.entryAt? s n = t.entryAt? s n) (search : t'.capture? s n = t.capture? s n)
    (here : s ≠ ScopeId.root ∨ t.entryAt? s n ≠ none) : u'.entryAt? s n = u.entryAt? s n := by
  by_cases used : t.entryAt? s n = some .used
  · rw [k.of_used h used, k'.of_used h' (entry.trans used), search]
  · cases known : t.entryAt? s n with
    | some e =>
      have settled : e ≠ .used := fun open' => used (open' ▸ known)
      rw [k.of_ne_used known settled, k'.of_ne_used (entry.trans known) settled]
    | none =>
      have inner := here.resolve_right fun occurs => occurs known
      rw [k.kept s n inner used, k'.kept s n inner (entry ▸ used), entry]

/-- The global scope takes note of a name alike in two trees in which the name falls through alike. -/
theorem Settled.entryAt?_root_congr (k : Settled t u) (k' : Settled t' u') (h : t.WellFormed)
    (h' : t'.WellFormed) (entry : t'.entryAt? ScopeId.root n = t.entryAt? ScopeId.root n)
    (falls : (∃ a, a ≠ ScopeId.root ∧ t'.FallsThrough a n) ↔ ∃ a, a ≠ ScopeId.root ∧
      t.FallsThrough a n) :
    u'.entryAt? ScopeId.root n = u.entryAt? ScopeId.root n := by
  by_cases absent : t.entryAt? ScopeId.root n = none
  · by_cases noted : ∃ a, a ≠ ScopeId.root ∧ t.FallsThrough a n
    · rw [k.root_noted n absent noted, k'.root_noted n (entry.trans absent) (falls.mpr noted)]
    · rw [k.root_absent n absent noted, k'.root_absent n (entry.trans absent) (mt falls.mp noted)]
  · refine k.entryAt?_congr k' h h' entry ?_ (.inr absent)
    rw [h.capture?_root, h'.capture?_root]

end Settled

/-! ### Trees that are complete already -/

theorem SameScopes.finish (same : SameScopes t u) (h : t.WellFormed) : SameScopes t.finish u.finish := by
  have settled := (h.settled.same.symm.trans same).trans (h.of_sameScopes same).settled.same
  exact { settled with built := rfl }

/-- With nothing left to settle there is nothing to do. -/
theorem finish_of_complete (h : t.WellFormed) (built : t.built)
    (complete : ∀ s n, t.entryAt? s n ≠ some .used) : t.finish = t := by
  have settled := h.settled
  have same : SameScopes t t.finish := { settled.same with built := built.symm }
  refine same.ext fun s n => ?_
  cases entry : t.entryAt? s n with
  | some e => exact settled.of_ne_used entry fun used => complete s n (used ▸ entry)
  | none =>
    by_cases root : s = ScopeId.root
    · subst root
      exact settled.root_absent n entry fun ⟨a, _, falls⟩ => complete a n falls.1
    · exact (settled.kept s n root (complete s n)).trans entry

theorem entryAt?_finish (t : ScopeTree π) (s : ScopeId) (n : Ident) :
    t.finish.entryAt? s n = t.settle.entryAt? s n := rfl

theorem WellFormed.finish (h : t.WellFormed) : t.finish.WellFormed := (changes_finish h).wellFormed h

theorem finish_finish (h : t.WellFormed) : t.finish.finish = t.finish :=
  finish_of_complete h.finish rfl h.settled.complete

/-! ### Late reads -/

/-- A search passes a name that is merely used as it passes one that does not occur. -/
theorem captureAmong?_load (hs : s ∈ t) : ∀ around : List ScopeId,
    (t.load s n).captureAmong? m around = t.captureAmong? m around
  | [] => rfl
  | b :: rest => by
    rw [captureAmong?, captureAmong?, entryAt?_load t hs, captureAmong?_load hs rest]
    split_ifs with here
    · obtain ⟨rfl, rfl⟩ := here
      cases t.entryAt? s n <;> rfl
    · rfl

theorem capture?_load (hs : s ∈ t) (n : Ident) (a : ScopeId) (m : Ident) :
    (t.load s n).capture? a m = t.capture? a m := by
  rw [capture?, capture?, (sameScopes_load t s n).closedAround, captureAmong?_load hs]

/-- Completing the analysis changes the outcome of no search. -/
theorem capture?_finish (h : t.WellFormed) (s : ScopeId) (n : Ident) :
    t.finish.capture? s n = t.capture? s n := by
  have marked : t.finish.capture? s n = t.settle.capture? s n :=
    captureAmong?_congr (t := t.settle) (u := t.finish) (fun _ => rfl) _
  rw [marked, h.settled.search]

theorem entryAt?_load_of_ne (hs : s ∈ t) (other : ¬(a = s ∧ m = n)) :
    (t.load s n).entryAt? a m = t.entryAt? a m := by
  rw [entryAt?_load t hs, if_neg fun both => other ⟨both.1.symm, both.2.symm⟩]

/-- A name that is found where it is read for the first time does not fall through, and no
    other name is read there. -/
theorem fallsThrough_load (hs : s ∈ t) (absent : t.entryAt? s n = none)
    (found : m = n → t.capture? s n ≠ none) : (t.load s n).FallsThrough a m ↔ t.FallsThrough a m := by
  rw [FallsThrough, FallsThrough, capture?_load hs]
  by_cases read : a = s ∧ m = n
  · obtain ⟨rfl, rfl⟩ := read
    simp [absent, found]
  · rw [entryAt?_load_of_ne hs read]

/-- The global scope takes note of a name that is read for the first time and found nowhere,
    if it has not by then. -/
theorem entryAt?_settle_load_root (h : t.WellFormed) (hs : s ∈ t) (inner : s ≠ ScopeId.root)
    (absent : t.entryAt? s n = none) (lost : t.capture? s n = none) :
    (t.load s n).settle.entryAt? ScopeId.root n =
      (t.settle.entryAt? ScopeId.root n).or (some (.global false)) := by
  have wf := h.of_sameScopes (sameScopes_load t s n)
  have before := h.settled
  have after := wf.settled
  have kept : (t.load s n).entryAt? ScopeId.root n = t.entryAt? ScopeId.root n :=
    entryAt?_load_of_ne hs fun here => inner here.1.symm
  by_cases unknown : t.entryAt? ScopeId.root n = none
  · have used : (t.load s n).entryAt? s n = some .used := by simp [entryAt?_load t hs, absent]
    have falls : (t.load s n).FallsThrough s n := ⟨used, (capture?_load hs n s n).trans lost⟩
    rw [after.root_noted n (kept.trans unknown) ⟨s, inner, falls⟩]
    rcases before.of_absent unknown with none | ⟨-, global⟩
    · rw [none, Option.none_or]
    · rw [global, Option.some_or]
  · rw [before.entryAt?_congr after h wf kept (capture?_load hs n _ n) (.inr unknown)]
    obtain ⟨e, known⟩ := Option.ne_none_iff_exists'.mp ((changes_finish h).grows.ne_none unknown)
    rw [entryAt?_finish] at known
    rw [known, Option.some_or]

/-- A name that is read for the first time is settled by its search, the global scope takes note of
    it if it falls through, and all else is settled as without it. -/
theorem entryAt?_settle_load (h : t.WellFormed) (hs : s ∈ t) (absent : t.entryAt? s n = none)
    (a : ScopeId) (m : Ident) : (t.load s n).settle.entryAt? a m =
      if a = s ∧ m = n then some (.ofCapture (t.capture? s n))
      else if a = ScopeId.root ∧ m = n ∧ t.capture? s n = none then
        (t.settle.entryAt? a m).or (some (.global false))
      else t.settle.entryAt? a m := by
  have wf := h.of_sameScopes (sameScopes_load t s n)
  have before := h.settled
  have after := wf.settled
  split_ifs with here noted
  · obtain ⟨rfl, rfl⟩ := here
    have used : (t.load a m).entryAt? a m = some .used := by simp [entryAt?_load t hs, absent]
    rw [after.of_used wf used, capture?_load hs]
  · obtain ⟨rfl, rfl, lost⟩ := noted
    exact entryAt?_settle_load_root h hs (fun root => here ⟨root.symm, rfl⟩) absent lost
  · by_cases root : a = ScopeId.root
    · subst root
      have found : m = n → t.capture? s n ≠ none := fun same lost => noted ⟨rfl, same, lost⟩
      exact before.entryAt?_root_congr after h wf (entryAt?_load_of_ne hs here)
        (exists_congr fun b => and_congr_right fun _ => fallsThrough_load hs absent found)
    · exact before.entryAt?_congr after h wf (entryAt?_load_of_ne hs here) (capture?_load hs n a m)
        (.inl root)

theorem finish_load_finish (h : t.WellFormed) (hs : s ∈ t) (n : Ident) :
    (t.finish.load s n).finish = (t.load s n).finish := by
  have done := h.finish
  have mem : s ∈ t.finish := (changes_finish h).grows.mem s hs
  have same : SameScopes (t.load s n).finish (t.finish.load s n).finish := by
    have late := (sameScopes_load t.finish s n).finish done
    rw [finish_finish h] at late
    exact ((sameScopes_load t s n).finish h).symm.trans late
  refine same.ext fun a m => ?_
  by_cases absent : t.entryAt? s n = none
  · have once := entryAt?_settle_load h hs absent a m
    by_cases absent' : t.finish.entryAt? s n = none
    · have again := entryAt?_settle_load done mem absent' a m
      rw [capture?_finish h, ← entryAt?_finish t.finish, finish_finish h] at again
      exact again.trans once.symm
    · -- the global scope has taken note of the name, so it is not open there any more
      obtain ⟨rfl, noted⟩ := (h.settled.of_absent absent).resolve_left absent'
      have settled : t.finish.load ScopeId.root n = t.finish := by
        rw [load, entryAt?_finish, noted]
      rw [settled, finish_finish h, entryAt?_finish (t.load ScopeId.root n), once, h.capture?_root]
      split_ifs with here late
      · rw [here.1, here.2]
        exact noted
      · exact absurd ⟨late.1, late.2.1⟩ here
      · rfl
  · obtain ⟨e, known⟩ := Option.ne_none_iff_exists'.mp absent
    obtain ⟨e', known'⟩ := Option.ne_none_iff_exists'.mp ((changes_finish h).grows.ne_none absent)
    rw [load, load, known, known']
    dsimp only
    rw [finish_finish h]

/-! ### Late scopes -/

theorem SameScopes.push (same : SameScopes t u) (hp : p ∈ t) (kind : ScopeKind) (name : Option Ident)
    (payload : π) : SameScopes (t.push p kind name payload) (u.push p kind name payload) := by
  have hp' : p ∈ u := (mem_congr same.size p).mpr hp
  exact {
    size := by rw [size_push, size_push, same.size]
    kind? := fun a => by
      rw [kind?_push _ kind name payload hp, kind?_push _ kind name payload hp', same.size, same.kind?]
    enclosing := fun a => by
      rw [enclosing_push _ kind name payload hp, enclosing_push _ kind name payload hp', same.size,
        same.path, same.enclosing]
    nested := fun a => by
      rw [nested_push _ kind name payload hp, nested_push _ kind name payload hp', same.size,
        same.nested]
    name? := fun a => by
      rw [name?_push _ kind name payload hp, name?_push _ kind name payload hp', same.size, same.name?]
    payload? := fun a => by
      rw [payload?_push _ kind name payload hp, payload?_push _ kind name payload hp', same.size,
        same.payload?]
    inIterable := fun a => by
      rw [inIterable_push _ kind name payload hp, inIterable_push _ kind name payload hp', same.size,
        same.inIterable, same.inIterable]
    built := same.built }

/-- It makes no difference to a new scope, which is empty, whether the others are settled
    before it comes. -/
theorem settle_push (h : t.WellFormed) (hp : p ∈ t) {kind : ScopeKind} (fit : fits kind p)
    (name : Option Ident)
    (payload : π) : (t.push p kind name payload).settle = t.settle.push p kind name payload := by
  have change : Change t (t.push p kind name payload) := .push hp fit name payload
  have wf := change.wellFormed h
  have before := h.settled
  have after := wf.settled
  have entries := entryAt?_push t kind name payload hp
  have searches {a : ScopeId} (ha : a ∈ t) (m : Ident) :
      (t.push p kind name payload).capture? a m = t.capture? a m := by
    rw [capture?, capture?, change.grows.closedAround h ha, captureAmong?_congr fun b => entries b m]
  have falls (a : ScopeId) (m : Ident) :
      (t.push p kind name payload).FallsThrough a m ↔ t.FallsThrough a m := by
    rw [FallsThrough, FallsThrough, entries]
    exact and_congr_right fun used => by rw [searches (mem_of_entryAt? used)]
  refine (((before.same.push hp kind name payload).symm.trans after.same).ext fun a m => ?_)
  have hp' : p ∈ t.settle := (mem_congr before.same.size p).mpr hp
  rw [entryAt?_push t.settle kind name payload hp']
  by_cases root : a = ScopeId.root
  · subst root
    exact before.entryAt?_root_congr after h wf (entries _ m)
      (exists_congr fun b => and_congr_right fun _ => falls b m)
  · by_cases ha : a ∈ t
    · exact before.entryAt?_congr after h wf (entries a m) (searches ha m) (.inl root)
    · have absent := entryAt?_of_not_mem ha m
      have blank : (t.push p kind name payload).entryAt? a m ≠ some .used := by simp [entries, absent]
      rw [after.kept a m root blank, before.kept a m root (by simp [absent]), entries]

theorem finish_push (h : t.WellFormed) (hp : p ∈ t) {kind : ScopeKind} (fit : fits kind p)
    (name : Option Ident)
    (payload : π) : (t.push p kind name payload).finish = t.finish.push p kind name payload := by
  rw [finish, settle_push h hp fit]
  rfl

/-! ### Late reports -/

theorem record_load (t : ScopeTree π) (s : ScopeId) (n : Ident) :
    t.record (s, .load n) = t.load s n := by
  by_cases hs : s ∈ t
  · rw [record, perform, if_pos (.inl hs)]
    rfl
  · rw [record, perform, if_neg (by simp [hs, outOfPlace]), load, entryAt?_of_not_mem hs]
    exact (modifyScope_of_not_mem hs _).symm

/-- Opening a scope that binds no name around it comes down to the new scope. -/
theorem record_nest {kind : ScopeKind} {name : Option Ident} {payload : π}
    (unnamed : (Action.nest kind name payload).bindsNothing) : t.record (p, .nest kind name payload) =
      if fits kind p ∧ p ∈ t ∧ t.size < capacity then t.push p kind name payload else t := by
  have own : t.bindOwnName p kind name = t := by
    cases name with
    | none => rfl
    | some n =>
      rw [bindOwnName, if_neg]
      simpa [Action.bindsNothing] using unnamed
  have nested : t.act p (.nest kind name payload) = t.nest p kind name payload := rfl
  split_ifs with room
  · obtain ⟨fit, mem, small⟩ := room
    have accepted : t.act p (.nest kind name payload) = .ok (t.push p kind name payload) := by
      rw [nested, nest, if_neg (not_not.mpr ⟨fit, mem⟩), if_neg (Nat.not_le.mpr small), own]
    rw [record, perform_eq_ok.mpr ⟨mem, accepted⟩]
  · rw [record]
    split
    · rename_i u accepted
      obtain ⟨mem, acted⟩ := perform_eq_ok.mp accepted
      rw [nested, nest] at acted
      split_ifs at acted with placed full
      exact absurd ⟨placed.1, placed.2, Nat.not_le.mp full⟩ room
    · rfl

/-- A report that binds nothing may come when the analysis is complete, if it is completed again. -/
theorem finish_record_finish (h : t.WellFormed) {report : ScopeId × Action π}
    (plain : report.2.bindsNothing) : (t.finish.record report).finish = (t.record report).finish := by
  have same : t.finish.size = t.size := h.settled.same.size
  obtain ⟨s, r⟩ := report
  cases r with
  | load n =>
    rw [record_load, record_load]
    by_cases hs : s ∈ t
    · exact finish_load_finish h hs n
    · have blank (v : ScopeTree π) (size : v.size = t.size) : v.load s n = v := by
        have hv : s ∉ v := mt (mem_congr size s).mp hs
        rw [load, entryAt?_of_not_mem hv]
        exact modifyScope_of_not_mem hv _
      rw [blank t rfl, blank t.finish same, finish_finish h]
  | nest kind name payload =>
    rw [record_nest plain, record_nest plain, same]
    simp only [mem_congr same]
    split_ifs with room
    · obtain ⟨fit, mem, -⟩ := room
      rw [finish_push h.finish ((mem_congr same s).mpr mem) fit, finish_push h mem fit, finish_finish h]
    · exact finish_finish h
  | _ => cases plain

theorem WellFormed.record (h : t.WellFormed) (report : ScopeId × Action π) :
    (t.record report).WellFormed := by
  rw [ScopeTree.record]
  split
  · rename_i u accepted
    exact h.perform accepted
  · exact h

/-- Two trees that are the same once they are complete are so after reports that bind nothing as well. -/
theorem finish_recordAll_congr :
    ∀ {reports : List (ScopeId × Action π)} {t u : ScopeTree π}, t.WellFormed →
    u.WellFormed → (∀ report ∈ reports, report.2.bindsNothing) → u.finish = t.finish →
    (u.recordAll reports).finish = (t.recordAll reports).finish
  | [], _, _, _, _, _, same => same
  | report :: reports, t, u, h, k, plain, same => by
    obtain ⟨first, others⟩ := List.forall_mem_cons.mp plain
    have one : (u.record report).finish = (t.record report).finish := calc
      (u.record report).finish = (u.finish.record report).finish := (finish_record_finish k first).symm
      _ = (t.finish.record report).finish := by rw [same]
      _ = (t.record report).finish := finish_record_finish h first
    have run (v : ScopeTree π) : v.recordAll (report :: reports) = (v.record report).recordAll reports :=
      rfl
    rw [run, run]
    exact finish_recordAll_congr (h.record report) (k.record report) others one

/-! ### Main result -/

variable {σ : Type}

/-- Reports that bind nothing may as well come between two ends of an analysis, and a tree that a
    build has completed is not changed by another. -/
theorem late_reports_settle_alike (h : t.Reachable) {reports : List (ScopeId × Action π)}
    (plain : ∀ report ∈ reports, report.2.bindsNothing) (x : σ) :
    (t.finish.recordAll reports).finish = (t.recordAll reports).finish ∧
    (do Walker.idle.build; Walking.update (·.recordAll reports); Walker.idle.build : Walking σ π Unit)
    (x, t) =
      (do Walking.update (·.recordAll reports); Walker.idle.build : Walking σ π Unit) (x, t) ∧
    (∀ w : Walker σ π, w.build (x, t.finish) = .ok () (x, t.finish)) ∧
    ∀ (w first : Walker σ π) (y z : σ) (u : ScopeTree π), (∀ s, (first s).Keeps Reachable) →
      first.build (x, t) = .ok () (y, u) → w.build (z, u) = .ok () (z, u) := by
  have wf := h.wellFormed
  have late := finish_recordAll_congr wf wf.finish plain (finish_finish wf)
  have again {v : ScopeTree π} (hv : v.WellFormed) (w : Walker σ π) (z : σ) :
      w.build (z, v.finish) = .ok () (z, v.finish) := by
    rw [Walker.build_of_built w rfl, finish_finish hv]
  refine ⟨late, ?_, fun w => again wf w x, fun w first y z u keeps done => ?_⟩
  · change EStateM.bind (Walker.idle : Walker σ π).build _ (x, t) =
      EStateM.bind (Walking.update _) _ (x, t)
    rw [EStateM.bind, Walker.build_idle]
    change (Walker.idle : Walker σ π).build (x, t.finish.recordAll reports) =
      (Walker.idle : Walker σ π).build (x, t.recordAll reports)
    rw [Walker.build_idle, Walker.build_idle, late]
  · obtain ⟨v, reached, rfl⟩ := Walker.build_eq_ok keeps h done
    exact again reached.wellFormed w z

/-- Reads in the method and in a lambda that is opened late, of a name that the method binds and of
    one that nobody binds. -/
def lateInMethod : List (ScopeId × Action Unit) :=
  [(2, .load ⟨4⟩), (2, .nest .lambda none ()), (4, .load ⟨1⟩), (4, .load ⟨4⟩)]

theorem late_reports_settle_alike_methodInClass :
    methodInClass.Reachable ∧ (∀ report ∈ lateInMethod, report.2.bindsNothing) ∧
      (methodInClass.finish.recordAll lateInMethod).finish =
        (methodInClass.recordAll lateInMethod).finish ∧
      (methodInClass.recordAll lateInMethod).finish.entryAt? 4 ⟨1⟩ = some (.captured 2) ∧
      (methodInClass.recordAll lateInMethod).finish.entryAt? ScopeId.root ⟨4⟩ = some (.global false) ∧
      methodInClass.finish.entryAt? ScopeId.root ⟨4⟩ = none ∧
      ∀ w : Walker Unit Unit, w.build ((), methodInClass.finish) =
      .ok () ((), methodInClass.finish) := by
  have h : methodInClass.Reachable := Reachable.recordAll _ (Reachable.new ())
  have plain : ∀ report ∈ lateInMethod, report.2.bindsNothing := by decide
  obtain ⟨late, -, -, again⟩ := late_reports_settle_alike h plain ()
  refine ⟨h, plain, late, by decide, by decide, by decide, fun w => ?_⟩
  exact again w Walker.idle () () _ (fun _ => .pure ()) (Walker.build_idle _)

end ScopeTree

end Scoping
