import Scoping.Proofs.Reachable
import Scoping.Scope.Event

/-! One name at a time. A report reads and writes the entries of its own name alone, and so does
    settling, so what a trace does to a name can be told from what it says of that name. Two
    trees that agree on a name answer every question about it alike, refuse the same reports on
    it for the same reason, and still agree on it after a report that they accept; reports on
    other names do not count. -/

namespace Scoping

/-! ### What is said of one name -/

/-- The name that a report is about. -/
def Action.subject? {π : Type} : Action π → Option Ident
  | .load n | .store n | .assignExpr n | .declareNonlocal n | .declareGlobal n => some n
  | .nest _ _ _ | .setInIterable _ => none

namespace Event

/-- The name that an event is about. -/
def subject? : Event → Option Ident
  | .load n | .store n | .assignExpr n | .declareNonlocal n | .declareGlobal n => some n
  | .enter _ _ | .leave | .inIterable _ => none

/-- What is left of an event when only one name counts. A scope is still entered, but has
    no other name. -/
def only? (n : Ident) : Event → Option Event
  | .enter kind name => some (.enter kind (name.filter (· = n)))
  | e => if e.subject?.all (· = n) then some e else none

/-- What is left of a trace when only one name counts. -/
def only (n : Ident) (events : List Event) : List Event := events.filterMap (only? n)

end Event

/-- Two outcomes that are failures for the same reason, or results that are related. -/
inductive Alike {ε α : Type} (R : α → α → Prop) : Except ε α → Except ε α → Prop
  | ok {a b : α} (related : R a b) : Alike R (.ok a) (.ok b)
  | error (e : ε) : Alike R (.error e) (.error e)

namespace Alike

variable {ε δ α β : Type} {R : α → α → Prop} {S : β → β → Prop} {x y : Except ε α}

theorem mapError (f : ε → δ) (k : Alike R x y) : Alike R (x.mapError f) (y.mapError f) := by
  cases k with
  | ok related => exact .ok related
  | error e => exact .error (f e)

theorem map {f : α → β} (hf : ∀ a b, R a b → S (f a) (f b)) (k : Alike R x y) :
    Alike S (x.map f) (y.map f) := by
  cases k with
  | ok related => exact .ok (hf _ _ related)
  | error e => exact .error e

theorem of_ok {a : α} (k : Alike R (.ok a) y) : ∃ b, y = .ok b ∧ R a b := by
  cases k with
  | ok related => exact ⟨_, rfl, related⟩

theorem of_error {e : ε} (k : Alike R (.error e) y) : y = .error e := by
  cases k with
  | error => rfl

end Alike

namespace ScopeTree

variable {π : Type} {t u v : ScopeTree π} {s : ScopeId} {n m : Ident}

/-! ### Trees that agree on a name -/

/-- Two trees of scopes of the same kinds in the same places, with the same entries of one name. -/
structure AgreeOn (n : Ident) (t u : ScopeTree π) : Prop where
  size : u.size = t.size
  kind? : ∀ s, u.kind? s = t.kind? s
  enclosing : ∀ s, u.enclosing s = t.enclosing s
  nested : ∀ s, u.nested s = t.nested s
  inIterable : ∀ s, u.inIterable s = t.inIterable s
  built : u.built = t.built
  entry : ∀ s, u.entryAt? s n = t.entryAt? s n

namespace AgreeOn

theorem refl (n : Ident) (t : ScopeTree π) : AgreeOn n t t :=
  ⟨rfl, fun _ => rfl, fun _ => rfl, fun _ => rfl, fun _ => rfl, rfl, fun _ => rfl⟩

theorem symm (k : AgreeOn n t u) : AgreeOn n u t :=
  ⟨k.size.symm, fun s => (k.kind? s).symm, fun s => (k.enclosing s).symm, fun s => (k.nested s).symm,
    fun s => (k.inIterable s).symm, k.built.symm, fun s => (k.entry s).symm⟩

theorem trans (k : AgreeOn n t u) (l : AgreeOn n u v) : AgreeOn n t v where
  size := l.size.trans k.size
  kind? s := (l.kind? s).trans (k.kind? s)
  enclosing s := (l.enclosing s).trans (k.enclosing s)
  nested s := (l.nested s).trans (k.nested s)
  inIterable s := (l.inIterable s).trans (k.inIterable s)
  built := l.built.trans k.built
  entry s := (l.entry s).trans (k.entry s)

theorem of_sameScopes (same : SameScopes t u) (entry : ∀ s, u.entryAt? s n = t.entryAt? s n) :
    AgreeOn n t u :=
  ⟨same.size, same.kind?, same.enclosing, same.nested, same.inIterable, same.built, entry⟩

theorem wellFormed (k : AgreeOn n t u) (h : t.WellFormed) : u.WellFormed :=
  h.congr k.size k.kind? k.enclosing k.nested

/-! ### Questions -/

theorem mem (k : AgreeOn n t u) : s ∈ u ↔ s ∈ t := mem_congr k.size s

theorem path (k : AgreeOn n t u) (s : ScopeId) : u.path s = t.path s := by
  rw [ScopeTree.path, ScopeTree.path, k.enclosing]

theorem capture? (k : AgreeOn n t u) (s : ScopeId) : u.capture? s n = t.capture? s n := by
  have closed : u.isClosed = t.isClosed := funext fun a => by rw [isClosed, isClosed, k.kind?]
  rw [ScopeTree.capture?, ScopeTree.capture?, closedAround, closedAround, k.enclosing, closed,
    captureAmong?_congr k.entry]

theorem home (k : AgreeOn n t u) (s : ScopeId) : u.home s n = t.home s n := by
  rw [ScopeTree.home, ScopeTree.home, k.entry, k.capture?]

/-! ### Reports on the name -/

theorem setEntry (k : AgreeOn n t u) (hs : s ∈ t) (e : Entry) :
    AgreeOn n (t.setEntry s n e) (u.setEntry s n e) where
  size := by simpa using k.size
  kind? a := by simpa using k.kind? a
  enclosing a := by simpa using k.enclosing a
  nested a := by simpa using k.nested a
  inIterable a := by simpa using k.inIterable a
  built := k.built
  entry a := by rw [entryAt?_setEntry t hs, entryAt?_setEntry u (k.mem.mpr hs), k.entry]

theorem load (k : AgreeOn n t u) (hs : s ∈ t) : AgreeOn n (t.load s n) (u.load s n) := by
  rw [ScopeTree.load, ScopeTree.load, k.entry]
  cases t.entryAt? s n with
  | none => exact k.setEntry hs _
  | some e => exact k

theorem store (k : AgreeOn n t u) (hr : ScopeId.root ∈ t) (hs : s ∈ t) :
    AgreeOn n (t.store s n) (u.store s n) := by
  rw [ScopeTree.store, ScopeTree.store, k.entry]
  cases t.entryAt? s n with
  | none => exact k.setEntry hs _
  | some e =>
    cases e with
    | used => exact k.setEntry hs _
    | global declared => exact k.setEntry hr _
    | bound => exact k
    | captured target => exact k

theorem noteToplevel (k : AgreeOn n t u) (hs : s ∈ t) (target : ScopeId) :
    AgreeOn n (t.noteToplevel s target n) (u.noteToplevel s target n) := by
  rw [ScopeTree.noteToplevel, ScopeTree.noteToplevel, k.entry]
  cases t.entryAt? s n with
  | none => exact k.setEntry hs _
  | some e =>
    cases e with
    | used => exact k.setEntry hs _
    | bound => exact k
    | captured _ => exact k
    | global _ => exact k

theorem assignExpr (k : AgreeOn n t u) (h : t.WellFormed) (hs : s ∈ t) :
    Alike (AgreeOn n) (t.assignExpr s n) (u.assignExpr s n) := by
  rw [ScopeTree.assignExpr, ScopeTree.assignExpr, k.enclosing,
    expressionTarget_congr k.kind? k.inIterable (t.enclosing s) s fun a _ _ => k.entry a]
  cases found : t.expressionTarget n s (t.enclosing s) with
  | error fault => exact .error _
  | ok target =>
    have ht : target ∈ t := by
      obtain ⟨inner, outer, way, -⟩ := expressionTarget_eq_ok found
      have around : target ∈ s :: t.enclosing s := way ▸ List.mem_append_right inner List.mem_cons_self
      exact h.mem_around hs around
    have bound := k.store h.root_mem ht
    have hs' : s ∈ t.store target n := (mem_congr (sameScopes_store ..).size s).mpr hs
    dsimp only
    rw [bound.kind?, bound.home]
    split_ifs
    · exact .ok (k.store h.root_mem hs)
    · exact .ok (bound.noteToplevel hs' target)
    · exact .ok (bound.load hs')

theorem declareNonlocal (k : AgreeOn n t u) (hs : s ∈ t) :
    Alike (AgreeOn n) (t.declareNonlocal s n) (u.declareNonlocal s n) := by
  rw [ScopeTree.declareNonlocal, ScopeTree.declareNonlocal, k.kind?, k.entry, k.capture?]
  split_ifs
  · cases t.entryAt? s n with
    | none =>
      cases t.capture? s n with
      | none => exact .error _
      | some target => exact .ok (k.setEntry hs _)
    | some e =>
      cases e with
      | captured target => exact .ok k
      | _ => exact .error _
  · exact .error _

theorem declareGlobal (k : AgreeOn n t u) (hr : ScopeId.root ∈ t) (hs : s ∈ t) :
    Alike (AgreeOn n) (t.declareGlobal s n) (u.declareGlobal s n) := by
  have declared : AgreeOn n ((t.setEntry s n (.global true)).store ScopeId.root n)
      ((u.setEntry s n (.global true)).store ScopeId.root n) := by
    have mem (a : ScopeId) := mem_congr (size_setEntry t s n (.global true)) a
    exact (k.setEntry hs _).store ((mem _).mpr hr) ((mem _).mpr hr)
  rw [ScopeTree.declareGlobal, ScopeTree.declareGlobal, k.entry]
  split_ifs
  · exact .ok (k.store hr hs)
  · cases t.entryAt? s n with
    | none => exact .ok declared
    | some e =>
      cases e with
      | global _ => exact .ok declared
      | _ => exact .error _

/-- Trees that agree on a name take a report on it alike. -/
theorem act (k : AgreeOn n t u) (h : t.WellFormed) (hs : s ∈ t) {a : Action π}
    (about : a.subject? = some n) : Alike (AgreeOn n) (t.act s a) (u.act s a) := by
  cases a with
  | load m =>
    cases about
    exact .ok (k.load hs)
  | store m =>
    cases about
    exact .ok (k.store h.root_mem hs)
  | assignExpr m =>
    cases about
    exact k.assignExpr h hs
  | declareNonlocal m =>
    cases about
    exact k.declareNonlocal hs
  | declareGlobal m =>
    cases about
    exact k.declareGlobal h.root_mem hs
  | nest kind name payload => cases about
  | setInIterable on => cases about

/-! ### Other reports -/

/-- A report on another name leaves a tree in agreement with what it was. -/
theorem of_act (h : t.WellFormed) (hs : s ∈ t) {a : Action π} (about : a.subject? = some m)
    (other : m ≠ n) (acted : t.act s a = .ok u) : AgreeOn n t u := by
  have set {t : ScopeTree π} {a : ScopeId} (ha : a ∈ t) (e : Entry) :
      AgreeOn n t (t.setEntry a m e) := by
    refine of_sameScopes (sameScopes_setEntry ..) fun b => ?_
    rw [entryAt?_setEntry t ha, if_neg fun here => other here.2]
  have stored {a : ScopeId} (ha : a ∈ t) : AgreeOn n t (t.store a m) :=
    of_sameScopes (sameScopes_store ..) fun b => entryAt?_store_other ha h.root_mem (.inl other)
  have loaded {t : ScopeTree π} (hs : s ∈ t) : AgreeOn n t (t.load s m) := by
    refine of_sameScopes (sameScopes_load ..) fun b => ?_
    rw [entryAt?_load t hs, if_neg fun here => other here.2]
  cases a with
  | load m' =>
    cases about
    cases acted
    exact loaded hs
  | store m' =>
    cases about
    cases acted
    exact stored hs
  | assignExpr m' =>
    cases about
    obtain ⟨target, found, cases⟩ := assignExpr_eq_ok acted
    obtain ⟨inner, outer, way, -⟩ := expressionTarget_eq_ok found
    have around : target ∈ s :: t.enclosing s := way ▸ List.mem_append_right inner List.mem_cons_self
    have ht : target ∈ t := h.mem_around hs around
    have hs' : s ∈ t.store target m := (mem_congr (sameScopes_store ..).size s).mpr hs
    rcases cases with ⟨-, rfl⟩ | ⟨-, -, -, rfl⟩ | ⟨-, -, rfl⟩
    · exact stored hs
    · refine (stored ht).trans ?_
      rw [ScopeTree.noteToplevel]
      split
      iterate 2 exact set hs' _
      exact refl ..
    · exact (stored ht).trans (loaded hs')
  | declareNonlocal m' =>
    cases about
    rcases declareNonlocal_eq_ok acted with rfl | ⟨target, -, -, rfl⟩
    · exact refl ..
    · exact set hs _
  | declareGlobal m' =>
    cases about
    rcases declareGlobal_eq_ok hs acted with ⟨-, rfl⟩ | ⟨-, -, rfl⟩
    · exact stored hs
    · exact (stored h.root_mem).trans (set ((mem_congr (sameScopes_store ..).size s).mpr hs) _)
  | nest kind name payload => cases about
  | setInIterable on => cases about

theorem bindOwnName (k : AgreeOn n t u) (hr : ScopeId.root ∈ t) (hs : s ∈ t) (kind : ScopeKind)
    (name : Option Ident) :
    AgreeOn n (t.bindOwnName s kind name) (u.bindOwnName s kind (name.filter (· = n))) := by
  cases name with
  | none => exact k
  | some m =>
    by_cases here : m = n
    · subst here
      rw [Option.filter_some_pos (by simp), ScopeTree.bindOwnName, ScopeTree.bindOwnName]
      split_ifs
      · exact k.store hr hs
      · exact k
    · rw [Option.filter_some_neg (by simpa using here), ScopeTree.bindOwnName, ScopeTree.bindOwnName]
      split_ifs
      · exact (of_sameScopes (sameScopes_store t s m)
          fun b => entryAt?_store_other hs hr (.inl here)).symm.trans k
      · exact k

theorem push (k : AgreeOn n t u) (hs : s ∈ t) (kind : ScopeKind) (name name' : Option Ident)
    (payload : π) : AgreeOn n (t.push s kind name payload) (u.push s kind name' payload) := by
  have hs' := k.mem.mpr hs
  exact {
    size := by rw [size_push, size_push, k.size]
    kind? := fun a => by
      rw [kind?_push _ kind name payload hs, kind?_push _ kind name' payload hs', k.size, k.kind?]
    enclosing := fun a => by
      rw [enclosing_push _ kind name payload hs, enclosing_push _ kind name' payload hs', k.size, k.path,
        k.enclosing]
    nested := fun a => by
      rw [nested_push _ kind name payload hs, nested_push _ kind name' payload hs', k.size, k.nested]
    inIterable := fun a => by
      rw [inIterable_push _ kind name payload hs, inIterable_push _ kind name' payload hs', k.size,
        k.inIterable, k.inIterable]
    built := k.built
    entry := fun a => by
      rw [entryAt?_push _ kind name payload hs, entryAt?_push _ kind name' payload hs', k.entry] }

theorem setInIterable (k : AgreeOn n t u) (hs : s ∈ t) (on : Bool) :
    AgreeOn n (t.setInIterable s on) (u.setInIterable s on) where
  size := by simpa using k.size
  kind? a := by simpa using k.kind? a
  enclosing a := by simpa using k.enclosing a
  nested a := by simpa using k.nested a
  inIterable a := by
    rw [inIterable_setInIterable t on a hs, inIterable_setInIterable u on a (k.mem.mpr hs), k.inIterable]
  built := k.built
  entry a := by simpa using k.entry a

/-- A scope is opened alike, whatever the name that it goes by in the one tree or the other, if only the
    name that counts is bound in both. -/
theorem nest (k : AgreeOn n t u) (h : t.WellFormed) {kind : ScopeKind} {name : Option Ident}
    {payload : π} {t' : ScopeTree π} (nested : t.nest s kind name payload = .ok t') :
    ∃ u', u.nest s kind (name.filter (· = n)) payload = .ok u' ∧ AgreeOn n t' u' := by
  obtain ⟨fit, hs, rfl⟩ := nest_eq_ok nested
  have room : ¬capacity ≤ t.size := by
    intro full
    rw [ScopeTree.nest, if_neg (not_not.mpr ⟨fit, hs⟩), if_pos full] at nested
    cases nested
  refine ⟨(u.bindOwnName s kind (name.filter (· = n))).push s kind (name.filter (· = n)) payload, ?_, ?_⟩
  · rw [ScopeTree.nest, if_neg (not_not.mpr ⟨fit, k.mem.mpr hs⟩), k.size, if_neg room]
  · have hs' := (mem_congr (sameScopes_bindOwnName t s kind name).size s).mpr hs
    exact (k.bindOwnName h.root_mem hs kind name).push hs' kind ..

/-! ### Settling -/

theorem fallsThrough (k : AgreeOn n t u) (s : ScopeId) : u.FallsThrough s n ↔ t.FallsThrough s n := by
  rw [FallsThrough, FallsThrough, k.entry, k.capture?]

theorem settle_root (k : AgreeOn n t u) (h : t.WellFormed) :
    u.settle.entryAt? ScopeId.root n = t.settle.entryAt? ScopeId.root n := by
  have kt := h.settled
  have ku := (k.wellFormed h).settled
  have noted :
      (∃ s, s ≠ ScopeId.root ∧ u.FallsThrough s n) ↔ ∃ s, s ≠ ScopeId.root ∧ t.FallsThrough s n := by
    simp only [k.fallsThrough]
  have same := k.entry ScopeId.root
  cases here : t.entryAt? ScopeId.root n with
  | none =>
    by_cases falls : ∃ s, s ≠ ScopeId.root ∧ t.FallsThrough s n
    · rw [kt.root_noted n here falls, ku.root_noted n (same.trans here) (noted.mpr falls)]
    · rw [kt.root_absent n here falls, ku.root_absent n (same.trans here) (mt noted.mp falls)]
  | some e =>
    by_cases used : e = .used
    · subst used
      rw [kt.root_used n here, ku.root_used n (same.trans here)]
    · rw [kt.root_kept n e here used, ku.root_kept n e (same.trans here) used]

theorem settle_inner (k : AgreeOn n t u) (h : t.WellFormed) (inner : s ≠ ScopeId.root) :
    u.settle.entryAt? s n = t.settle.entryAt? s n := by
  have kt := h.settled
  have ku := (k.wellFormed h).settled
  by_cases used : t.entryAt? s n = some .used
  · have used' := (k.entry s).trans used
    cases found : t.capture? s n with
    | none =>
      rw [kt.defaulted s n inner ⟨used, found⟩,
        ku.defaulted s n inner ⟨used', k.capture? s ▸ found⟩]
    | some target =>
      rw [kt.captured s n target inner used found,
        ku.captured s n target inner used' (k.capture? s ▸ found)]
  · rw [kt.kept s n inner used, ku.kept s n inner (k.entry s ▸ used), k.entry]

/-- Trees that agree on a name still do when their analysis is complete. -/
theorem finish (k : AgreeOn n t u) (h : t.WellFormed) : AgreeOn n t.finish u.finish := by
  have same := h.settled.same
  have same' := (k.wellFormed h).settled.same
  refine ⟨?_, fun s => ?_, fun s => ?_, fun s => ?_, fun s => ?_, rfl, fun s => ?_⟩
  · exact same'.size.trans (k.size.trans same.size.symm)
  · exact (same'.kind? s).trans ((k.kind? s).trans (same.kind? s).symm)
  · exact (same'.enclosing s).trans ((k.enclosing s).trans (same.enclosing s).symm)
  · exact (same'.nested s).trans ((k.nested s).trans (same.nested s).symm)
  · exact (same'.inIterable s).trans ((k.inIterable s).trans (same.inIterable s).symm)
  · by_cases root : s = ScopeId.root
    · exact root ▸ k.settle_root h
    · exact k.settle_inner h root

/-- Trees that agree on a name accept or refuse a report on it alike, whatever scope it is about. -/
theorem perform (k : AgreeOn n t u) (h : t.WellFormed) {a : Action π} (about : a.subject? = some n) :
    Alike (AgreeOn n) (t.perform s a) (u.perform s a) := by
  rw [ScopeTree.perform, ScopeTree.perform]
  by_cases hs : s ∈ t
  · rw [if_pos (.inl hs), if_pos (.inl (k.mem.mpr hs))]
    exact (k.act h hs about).mapError _
  · have placed : outOfPlace s a = false := by
      cases a with
      | nest kind name payload => cases about
      | _ => rfl
    rw [placed, if_neg (by simpa using hs), if_neg (by simpa using mt k.mem.mp hs)]
    exact .error _

end AgreeOn

/-! ### Traces -/

section replay

variable [Inhabited π] {p q : Position} {e : Event} {r : Refusal}

/-- An event on a name is a report on it at the scope at hand. -/
theorem exists_report (about : e.subject? = some n) : ∃ a : Action π, a.subject? = some n ∧
    ∀ (t : ScopeTree π) (p : Position), t.replayOne p e = (t.perform p.current a).map (·, p) := by
  cases e with
  | load m => exact ⟨.load m, about, fun _ _ => rfl⟩
  | store m => exact ⟨.store m, about, fun _ _ => rfl⟩
  | assignExpr m => exact ⟨.assignExpr m, about, fun _ _ => rfl⟩
  | declareNonlocal m => exact ⟨.declareNonlocal m, about, fun _ _ => rfl⟩
  | declareGlobal m => exact ⟨.declareGlobal m, about, fun _ _ => rfl⟩
  | enter kind name => cases about
  | leave => cases about
  | inIterable on => cases about

theorem map_eq_ok {ε α β : Type} {x : Except ε α} {f : α → β} {b : β} (h : x.map f = .ok b) :
    ∃ a, x = .ok a ∧ f a = b := by
  cases x with
  | error e => cases h
  | ok a => exact ⟨a, rfl, Except.ok.inj h⟩

/-- What an event does once it is accepted: a report is made, or a scope is left. -/
theorem replayOne_eq_ok (replayed : t.replayOne p e = .ok (u, q)) :
    (∃ a, t.perform p.current a = .ok u) ∨ e = .leave ∧ u = t ∧ q = p.leave := by
  cases e with
  | leave =>
    cases replayed
    exact .inr ⟨rfl, rfl, rfl⟩
  | _ =>
    obtain ⟨v, performed, eq⟩ := map_eq_ok replayed
    cases eq
    exact .inl ⟨_, performed⟩

theorem WellFormed.replayOne (h : t.WellFormed) (replayed : t.replayOne p e = .ok (u, q)) :
    u.WellFormed := by
  rcases replayOne_eq_ok replayed with ⟨a, performed⟩ | ⟨-, rfl, -⟩
  · exact h.perform performed
  · exact h

theorem replay_cons_of_ok (replayed : t.replayOne p e = .ok (u, q)) (rest : List Event) :
    t.replay p (e :: rest) = u.replay q rest := by
  rw [replay, replayed]

theorem replay_cons_of_error (refused : t.replayOne p e = .error r) (rest : List Event) :
    t.replay p (e :: rest) = (t, .error r) := by
  rw [replay, refused]

theorem only?_of_subject (about : e.subject? = some m) (n : Ident) :
    e.only? n = if m = n then some e else none := by
  cases e with
  | enter kind name => cases about
  | leave => cases about
  | inIterable on => cases about
  | _ =>
    cases about
    simp [Event.only?, Event.subject?]

theorem only_cons (n : Ident) (e : Event) (rest : List Event) :
    Event.only n (e :: rest) = (e.only? n).toList ++ Event.only n rest := by
  rw [Event.only, List.filterMap_cons]
  cases e.only? n <;> rfl

namespace AgreeOn

/-- Trees that agree on a name take an event on it alike. -/
theorem replayOne (k : AgreeOn n t u) (h : t.WellFormed) (about : e.subject? = some n) :
    Alike (fun x y => AgreeOn n x.1 y.1 ∧ y.2 = x.2) (t.replayOne p e) (u.replayOne p e) := by
  obtain ⟨a, about, eq⟩ := exists_report (π := π) about
  rw [eq, eq]
  exact (k.perform h about).map fun _ _ related => ⟨related, rfl⟩

/-- A tree that is told of the name alone follows one that is told everything, event by event. -/
theorem follow (k : AgreeOn n t u) (h : t.WellFormed) (replayed : t.replayOne p e = .ok (v, q)) :
    ∃ w, AgreeOn n v w ∧
      ∀ rest, u.replay p (Event.only n (e :: rest)) = w.replay q (Event.only n rest) := by
  have taken {e' : Event} {w : ScopeTree π} (left : e.only? n = some e')
    (next : u.replayOne p e' = .ok (w, q))
      (rest : List Event) : u.replay p (Event.only n (e :: rest)) = w.replay q (Event.only n rest) := by
    rw [only_cons, left]
    exact replay_cons_of_ok next _
  cases subject : e.subject? with
  | some m =>
    have left := only?_of_subject subject n
    by_cases here : m = n
    · have alike := k.replayOne (p := p) h (here ▸ subject)
      rw [replayed] at alike
      obtain ⟨⟨w, q'⟩, next, agree, rfl⟩ := alike.of_ok
      rw [if_pos here] at left
      exact ⟨w, agree, taken left next⟩
    · -- the event is dropped, and the tree that does not see it stays in agreement
      obtain ⟨a, about, eq⟩ := exists_report (π := π) subject
      rw [eq] at replayed
      obtain ⟨v', performed, same⟩ := map_eq_ok replayed
      obtain ⟨rfl, rfl⟩ := Prod.mk.inj same
      obtain ⟨hs, acted⟩ := perform_eq_ok.mp performed
      rw [if_neg here] at left
      exact ⟨u, (of_act h hs about here acted).symm.trans k, fun rest => by rw [only_cons, left]; rfl⟩
  | none =>
    cases e with
    | enter kind name =>
      obtain ⟨v', performed, same⟩ := map_eq_ok replayed
      obtain ⟨rfl, rfl⟩ := Prod.mk.inj same
      obtain ⟨hs, acted⟩ := perform_eq_ok.mp performed
      obtain ⟨w, acted', agree⟩ := k.nest h acted
      refine ⟨w, agree, taken rfl ?_⟩
      have performed' : u.perform p.current (.nest kind (name.filter (· = n)) default) = .ok w :=
        perform_eq_ok.mpr ⟨k.mem.mpr hs, acted'⟩
      rw [ScopeTree.replayOne, performed', k.size]
      rfl
    | leave =>
      cases replayed
      exact ⟨u, k, taken rfl rfl⟩
    | inIterable on =>
      obtain ⟨v', performed, same⟩ := map_eq_ok replayed
      obtain ⟨rfl, rfl⟩ := Prod.mk.inj same
      obtain ⟨hs, acted⟩ := perform_eq_ok.mp performed
      cases acted
      have performed' : u.perform p.current (.setInIterable on) = .ok (u.setInIterable p.current on) :=
        perform_eq_ok.mpr ⟨k.mem.mpr hs, rfl⟩
      refine ⟨_, k.setInIterable hs on, taken rfl ?_⟩
      rw [ScopeTree.replayOne, performed']
      rfl
    | _ => cases subject

/-- A tree that is told of the name alone follows one that is told everything, to the end of a trace and
    beyond. -/
theorem replay :
    ∀ {events : List Event} {t u : ScopeTree π} {p : Position}, AgreeOn n t u → t.WellFormed →
    t.replay p events = (v, .ok q) → v.WellFormed ∧ ∃ w, AgreeOn n v w ∧
      ∀ rest, u.replay p (Event.only n (events ++ rest)) = w.replay q (Event.only n rest)
  | [], t, u, p, k, h, replayed => by
    cases replayed
    exact ⟨h, u, k, fun _ => rfl⟩
  | e :: events, t, u, p, k, h, replayed => by
    cases one : t.replayOne p e with
    | error r =>
      rw [replay_cons_of_error one] at replayed
      cases replayed
    | ok next =>
      obtain ⟨t', p'⟩ := next
      rw [replay_cons_of_ok one] at replayed
      obtain ⟨u', agree, first⟩ := k.follow h one
      obtain ⟨hv, w, agree, further⟩ := agree.replay (h.replayOne one) replayed
      exact ⟨hv, w, agree, fun rest => (first _).trans (further rest)⟩

end AgreeOn

/-- A trace may as well be replayed with what it says of one name alone: the entries of the name
    come out the same, and an event on the name that is refused is refused there too. -/
theorem names_do_not_interact (n : Ident) (events : List Event) :
    (∀ t : ScopeTree π, ofEvents events = .ok t →
      ∃ u : ScopeTree π, ofEvents (Event.only n events) = .ok u ∧ AgreeOn n t u) ∧
    (∀ before e after, events = before ++ e :: after → e.subject? = some n →
      ∀ (t : ScopeTree π) p r, (ScopeTree.new default).replay (.start ScopeId.root) before = (t, .ok p) →
        t.replayOne p e = .error r → ofEvents (π := π) (Event.only n events) = .error r) := by
  have wf := WellFormed.new (default : π)
  refine ⟨fun t complete => ?_, ?_⟩
  · rw [ofEvents] at complete
    split at complete
    · rename_i v q replayed
      cases complete
      obtain ⟨hv, w, agree, told⟩ := (AgreeOn.refl n _).replay wf replayed
      refine ⟨w.finish, ?_, agree.finish hv⟩
      rw [ofEvents, ← List.append_nil events, told []]
      rfl
    · cases complete
  · rintro before e after rfl about t p r replayed refused
    obtain ⟨ht, w, agree, told⟩ := (AgreeOn.refl n _).replay wf replayed
    have alike := agree.replayOne (p := p) ht about
    rw [refused] at alike
    have left : e.only? n = some e := by rw [only?_of_subject about, if_pos rfl]
    rw [ofEvents, told, only_cons, left]
    dsimp only [Option.toList_some, List.singleton_append]
    rw [replay_cons_of_error alike.of_error]

/-- A function that binds one name, with a comprehension in it that reads this name and binds another. -/
def boundBesideAnother : List Event :=
  [.enter .function (some ⟨2⟩), .store ⟨1⟩, .enter .comprehension none, .assignExpr ⟨3⟩, .load ⟨1⟩,
    .leave, .leave, .load ⟨3⟩]

/-- A function that reads a name and then declares it global. -/
def declaredLate : List Event :=
  [.enter .function (some ⟨1⟩), .load ⟨1⟩, .store ⟨2⟩, .declareGlobal ⟨1⟩, .load ⟨2⟩]

theorem names_do_not_interact_traces :
    (∃ t u : ScopeTree Unit, ofEvents boundBesideAnother = .ok t ∧
      ofEvents [.enter .function none, .store ⟨1⟩, .enter .comprehension none, .load ⟨1⟩, .leave,
        .leave] = .ok u ∧
      AgreeOn ⟨1⟩ t u ∧ u.entryAt? 2 ⟨1⟩ = some (.captured 1)) ∧
    ofEvents (π := Unit) [.enter .function (some ⟨1⟩), .load ⟨1⟩, .declareGlobal ⟨1⟩] =
      .error (.binding ⟨.usedBeforeGlobal, ⟨1⟩, 1⟩) := by
  constructor
  · obtain ⟨t, complete⟩ : ∃ t : ScopeTree Unit, ofEvents boundBesideAnother = .ok t := ⟨_, rfl⟩
    obtain ⟨u, complete', agree⟩ := (names_do_not_interact ⟨1⟩ boundBesideAnother).1 t complete
    have captured : (ofEvents (π := Unit) (Event.only ⟨1⟩ boundBesideAnother)).toOption.bind
        (fun u => u.entryAt? 2 ⟨1⟩) = some (.captured 1) := by decide
    rw [complete'] at captured
    exact ⟨t, u, complete, complete', agree, captured⟩
  · exact (names_do_not_interact ⟨1⟩ declaredLate).2 [.enter .function (some ⟨1⟩), .load ⟨1⟩, .store ⟨2⟩]
      (.declareGlobal ⟨1⟩) [.load ⟨2⟩] rfl rfl _ ⟨1, [0]⟩ _ rfl rfl

end replay

end ScopeTree

end Scoping
