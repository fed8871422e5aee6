import Scoping.Proofs.Beside
import Scoping.Proofs.Globals
import Scoping.Scope.InPlace

/-! Refused reports leave no trace. A report in place reads and writes one tree as it goes. It has
    the outcome of the report as a function, and if it stops then the tree is the one it was called
    on: every reason to stop is found before anything is written, and what is done after the first
    writing never stops. -/

namespace Scoping

/-! ### Positions -/

namespace Position

variable {π : Type} {t u : ScopeTree π} {p : Position} {s : ScopeId}

/-- A replay stands in a tree that holds the scope at hand and the scopes to go back to. -/
def Within (p : Position) (t : ScopeTree π) : Prop := ∀ s ∈ p.current :: p.outer, s ∈ t

theorem within_start (hs : s ∈ t) : (Position.start s).Within t := by
  simpa [Within, start] using hs

theorem Within.mono (within : p.Within t) (mem : ∀ s ∈ t, s ∈ u) : p.Within u :=
  fun s hs => mem s (within s hs)

theorem Within.enter (within : p.Within t) (hs : s ∈ t) : (p.enter s).Within t :=
  List.forall_mem_cons.mpr ⟨hs, within⟩

theorem Within.leave (within : p.Within t) : p.leave.Within t := by
  obtain ⟨current, outer⟩ := p
  cases outer with
  | nil => exact within
  | cons s outer => exact (List.forall_mem_cons.mp within).2

end Position

namespace InPlace

open Walking ScopeTree

variable {σ π α β : Type} {t u : ScopeTree π} {s : ScopeId} {n : Ident} {x : σ}

/-! ### Programs step by step -/

theorem tree_bind (f : ScopeTree π → Walking σ π β) : (tree >>= f) (x, t) = f t (x, t) := rfl

/-! ### Bindings -/

theorem load_apply (s : ScopeId) (n : Ident) : load s n (x, t) = .ok () (x, t.load s n) := by
  rw [load, tree_bind, ScopeTree.load]
  cases t.entryAt? s n <;> rfl

theorem noteToplevel_apply (s target : ScopeId) (n : Ident) :
    noteToplevel s target n (x, t) = .ok () (x, t.noteToplevel s target n) := by
  rw [noteToplevel, tree_bind, ScopeTree.noteToplevel]
  cases t.entryAt? s n with
  | none => rfl
  | some e => cases e <;> rfl

theorem storeRoot_apply (n : Ident) : storeRoot n (x, t) = .ok () (x, t.store ScopeId.root n) := by
  rw [storeRoot, tree_bind, ScopeTree.store]
  cases t.entryAt? ScopeId.root n with
  | none => rfl
  | some e => cases e <;> rfl

/-- A global scope that captures nothing binds whatever name it is told to. -/
theorem store_root_eq (hr : ScopeId.root ∈ t)
    (plain : ∀ target, t.entryAt? ScopeId.root n ≠ some (.captured target)) :
    t.store ScopeId.root n = t.setEntry ScopeId.root n .bound := by
  rw [ScopeTree.store]
  split
  iterate 3 rfl
  · rename_i bound
    exact (setEntry_self hr bound).symm
  · rename_i target captured
    exact absurd captured (plain target)

theorem store_apply (h : t.Reachable) (s : ScopeId) (n : Ident) :
    store s n (x, t) = .ok () (x, t.store s n) := by
  have plain (target : ScopeId) : t.entryAt? ScopeId.root n ≠ some (.captured target) :=
    fun captured => h.knowsGlobals.inner_of_captured captured rfl
  rw [store, tree_bind, ScopeTree.store]
  cases entry : t.entryAt? s n with
  | none => rfl
  | some e =>
    cases e with
    | global declared =>
      exact (storeRoot_apply n).trans (by rw [store_root_eq h.wellFormed.root_mem plain])
    | _ => rfl

/-! ### Assignment expressions -/

/-- The search for the scope to bind in writes nothing. It ends at a class as well, which
    is refused later. -/
theorem seekTarget_apply (h : t.WellFormed) (s : ScopeId) (n : Ident) :
    ∀ (around : List ScopeId) (a : ScopeId), a ∈ t → t.enclosing a = around →
      (∃ fault, t.expressionTarget n a around = .error fault ∧
        seekTarget s n a around (x, t) = .error ⟨fault, n, s⟩ (x, t)) ∨
      ∃ target, seekTarget s n a around (x, t) = .ok target (x, t) ∧ t.expressionTarget n a around =
        if t.kind? target = some .classBody then .error .assignmentInClassBody else .ok target
  | [], a, ha, way => by
    have root : a = ScopeId.root := by
      by_contra inner
      obtain ⟨p, -, around⟩ := h.below a ha inner
      simp [way, path] at around
    subst root
    rw [seekTarget, tree_bind, expressionTarget]
    split_ifs with iterable inside bound
    · exact .inl ⟨_, rfl, rfl⟩
    iterate 2 simp [h.kind_root] at inside
    · exact .inr ⟨ScopeId.root, rfl, by simp [h.kind_root]⟩
  | outer :: rest, a, ha, way => by
    have way' : t.enclosing a = [] ++ outer :: rest := way
    obtain ⟨-, onward⟩ := h.enclosing_split a way'
    rw [seekTarget, tree_bind, expressionTarget]
    split_ifs with iterable inside bound inClass
    · exact .inl ⟨_, rfl, rfl⟩
    · exact .inl ⟨_, rfl, rfl⟩
    · have mem : outer ∈ t := h.mem_of_mem_enclosing (way ▸ List.mem_cons_self)
      exact seekTarget_apply h s n rest outer mem onward
    · exact .inr ⟨a, rfl, by rw [if_pos inClass]⟩
    · exact .inr ⟨a, rfl, by rw [if_neg inClass]⟩

theorem assignExpr_apply (h : t.Reachable) (hs : s ∈ t) (n : Ident) :
    assignExpr s n (x, t) = attempt (·.assignExpr s n) (x, t) := by
  rw [assignExpr, tree_bind, attempt_apply, ScopeTree.assignExpr]
  rcases seekTarget_apply (x := x) h.wellFormed s n _ s hs rfl with
    ⟨fault, found, stopped⟩ | ⟨target, arrived, found⟩
  · rw [bind_of_error stopped, found]
  · rw [bind_of_ok arrived, tree_bind, found]
    dsimp only
    by_cases inClass : t.kind? target = some .classBody
    · rw [if_pos inClass, if_pos inClass]
      rfl
    · rw [if_neg inClass, if_neg inClass]
      dsimp only
      by_cases here : target = s
      · subst here
        rw [if_pos rfl, if_pos rfl]
        exact store_apply h ..
      · -- the target is bound, and from here on nothing can stop
        rw [if_neg here, if_neg here, bind_of_ok (store_apply h target n), tree_bind,
          (sameScopes_store t target n).kind?]
        split_ifs
        · exact noteToplevel_apply ..
        · exact load_apply ..

/-! ### Declarations -/

theorem declareNonlocal_apply (s : ScopeId) (n : Ident) :
    declareNonlocal s n (x, t) = attempt (·.declareNonlocal s n) (x, t) := by
  rw [declareNonlocal, tree_bind, attempt_apply, ScopeTree.declareNonlocal]
  split_ifs with inner
  · cases t.entryAt? s n with
    | none =>
      dsimp only
      cases t.capture? s n <;> rfl
    | some e => cases e <;> rfl
  · rfl

theorem declareGlobal_apply (h : t.Reachable) (s : ScopeId) (n : Ident) :
    declareGlobal s n (x, t) = attempt (·.declareGlobal s n) (x, t) := by
  rw [declareGlobal, attempt_apply, ScopeTree.declareGlobal]
  split_ifs with root
  · exact store_apply h s n
  · rw [tree_bind]
    have declared : (do write s n (.global true); storeRoot n : Walking σ π Unit) (x, t) =
        .ok () (x, (t.setEntry s n (.global true)).store ScopeId.root n) := storeRoot_apply n
    cases t.entryAt? s n with
    | none => exact declared
    | some e =>
      cases e with
      | global => exact declared
      | _ => rfl

/-! ### Nested scopes -/

theorem bindOwnName_apply (h : t.Reachable) (p : ScopeId) (kind : ScopeKind) (name : Option Ident) :
    bindOwnName p kind name (x, t) = .ok () (x, t.bindOwnName p kind name) := by
  cases name with
  | none => rfl
  | some n =>
    rw [bindOwnName, ScopeTree.bindOwnName]
    split_ifs
    · exact store_apply h p n
    · rfl

/-- The id that is found before the first change is the one that the new scope gets. -/
theorem nest_apply (h : t.Reachable) (p : ScopeId) (kind : ScopeKind) (name : Option Ident)
    (payload : π) : nest p kind name payload (x, t) = match t.nest p kind name payload with
      | .ok u => .ok t.size (x, u)
      | .error e => .error e (x, t) := by
  rw [nest, tree_bind, ScopeTree.nest]
  by_cases placed : fits kind p ∧ p ∈ t
  · rw [if_neg (not_not.mpr placed), if_neg (not_not.mpr placed)]
    by_cases full : capacity ≤ t.size
    · rw [if_pos full, if_pos full]
      rfl
    · rw [if_neg full, if_neg full]
      dsimp only
      rw [bind_of_ok (bindOwnName_apply h p kind name), push,
        (sameScopes_bindOwnName t p kind name).size]
      rfl
  · rw [if_pos placed, if_pos placed]
    rfl

/-! ### Reports -/

/-- A report in place does what the report as a function does, and leaves the tree as it
    was if that is refused. -/
theorem report_apply (h : t.Reachable) (hs : s ∈ t) (r : Action π) :
    report s r (x, t) = attempt (·.act s r) (x, t) := by
  cases r with
  | load n => exact load_apply s n
  | store n => exact store_apply h s n
  | assignExpr n => exact assignExpr_apply h hs n
  | declareNonlocal n => exact declareNonlocal_apply s n
  | declareGlobal n => exact declareGlobal_apply h s n
  | nest kind name payload =>
    have made := nest_apply (x := x) h s kind name payload
    rw [report, attempt_apply, act]
    cases nested : t.nest s kind name payload with
    | ok u =>
      rw [nested] at made
      rw [bind_of_ok made]
      rfl
    | error e =>
      rw [nested] at made
      rw [bind_of_error made]
  | setInIterable on => rfl

/-! ### Events -/

/-- A program has the outcome of a function, and leaves the tree as it was if that is a refusal. No
    program finds out that a scope does not exist. -/
def Follows (m : Walking σ π α) (t : ScopeTree π) : Except Refusal (ScopeTree π × α) → Prop
  | .ok (u, a) => ∀ x, m (x, t) = .ok a (x, u)
  | .error (.binding e) => ∀ x, m (x, t) = .error e (x, t)
  | .error (.noSuchScope _) => False

theorem follows_report (h : t.Reachable) (hs : s ∈ t) (r : Action π) (p : Position) :
    Follows (σ := σ) (do report s r; return p) t ((t.perform s r).map (·, p)) := by
  have made (x : σ) := report_apply (x := x) h hs r
  rw [perform, if_pos (.inl hs)]
  cases acted : t.act s r with
  | ok u => exact fun x => bind_of_ok ((made x).trans (attempt_of_ok acted)) _
  | error e => exact fun x => bind_of_error ((made x).trans (attempt_of_error acted)) _

section replay

variable [Inhabited π] {p q : Position}

theorem follows_enter (h : t.Reachable) (hp : p.current ∈ t) (kind : ScopeKind) (name : Option Ident) :
    Follows (σ := σ) (do return p.enter (← nest p.current kind name default)) t
      ((t.perform p.current (.nest kind name default)).map (·, p.enter t.size)) := by
  have made (x : σ) := nest_apply (x := x) h p.current kind name default
  rw [perform, if_pos (.inl hp), act]
  cases nested : t.nest p.current kind name default with
  | ok u =>
    rw [nested] at made
    exact fun x => bind_of_ok (made x) _
  | error e =>
    rw [nested] at made
    exact fun x => bind_of_error (made x) _

theorem follows_replayOne (h : t.Reachable) (hp : p.current ∈ t) (e : Event) :
    Follows (σ := σ) (replayOne p e) t (t.replayOne p e) := by
  cases e with
  | load n => exact follows_report h hp (.load n) p
  | store n => exact follows_report h hp (.store n) p
  | assignExpr n => exact follows_report h hp (.assignExpr n) p
  | declareNonlocal n => exact follows_report h hp (.declareNonlocal n) p
  | declareGlobal n => exact follows_report h hp (.declareGlobal n) p
  | enter kind name => exact follows_enter h hp kind name
  | leave => exact fun x => rfl
  | inIterable on => exact follows_report h hp (.setInIterable on) p

/-! ### Traces -/

theorem within_replayOne (h : t.WellFormed) (within : p.Within t) {e : Event}
    (replayed : t.replayOne p e = .ok (u, q)) : q.Within u := by
  cases e with
  | leave =>
    cases replayed
    exact within.leave
  | enter kind name =>
    obtain ⟨v, performed, eq⟩ := map_eq_ok replayed
    cases eq
    refine (within.mono (Grows.perform h performed).mem).enter ?_
    obtain ⟨-, -, rfl⟩ := nest_eq_ok (perform_eq_ok.mp performed).2
    exact (mem_push ..).mpr (.inr (sameScopes_bindOwnName ..).size.symm)
  | _ =>
    obtain ⟨v, performed, eq⟩ := map_eq_ok replayed
    cases eq
    exact within.mono (Grows.perform h performed).mem

theorem reachable_replayOne (h : t.Reachable) {e : Event} (replayed : t.replayOne p e = .ok (u, q)) :
    u.Reachable := by
  rcases replayOne_eq_ok replayed with ⟨r, performed⟩ | ⟨-, rfl, -⟩
  · exact h.step (.perform performed)
  · exact h

/-- A replay in place goes along with the replay as a function. If that stops then so does the
    replay in place, at the same event, and with the tree that the events before it have led to. -/
theorem replay_cases (h : t.Reachable) (within : p.Within t) (events : List Event) (x : σ) :
    (∃ u q, t.replay p events = (u, .ok q) ∧ replay p events (x, t) = .ok q (x, u)) ∨
      ∃ u e, t.replay p events = (u, .error (.binding e)) ∧ replay p events (x, t) = .error e (x, u) ∧
        ∃ before event after q, events = before ++ event :: after ∧
          t.replay p before = (u, .ok q) ∧ replay p before (x, t) = .ok q (x, u) ∧
          u.replayOne q event = .error (.binding e) ∧ replayOne q event (x, u) = .error e (x, u) := by
  induction events generalizing t p with
  | nil => exact .inl ⟨t, p, rfl, rfl⟩
  | cons event events ih =>
    have follows : Follows (σ := σ) (replayOne p event) t (t.replayOne p event) :=
      follows_replayOne h (within p.current List.mem_cons_self) event
    cases replayed : t.replayOne p event with
    | ok next =>
      obtain ⟨u, q⟩ := next
      rw [replayed] at follows
      have onward (rest : List Event) : replay p (event :: rest) (x, t) = replay q rest (x, u) :=
        bind_of_ok (follows x) _
      rw [replay_cons_of_ok replayed, onward]
      -- the first event belongs to what is replayed before the stop
      refine (ih (reachable_replayOne h replayed)
        (within_replayOne h.wellFormed within replayed)).imp_right ?_
      rintro ⟨v, e, stopped, left, before, event', after, q', rfl, replayed', came, refused⟩
      exact ⟨v, e, stopped, left, event :: before, event', after, q', rfl,
        (replay_cons_of_ok replayed before).trans replayed', (onward before).trans came, refused⟩
    | error refusal =>
      rw [replayed] at follows
      cases refusal with
      | binding e =>
        exact .inr ⟨t, e, replay_cons_of_error replayed events, bind_of_error (follows x) _,
          [], event, events, p, rfl, rfl, rfl, replayed, follows x⟩
      | noSuchScope => cases follows

/-- A replay comes to no second event that is refused. -/
theorem stop_unique {before before' after after' : List Event} {event event' : Event} {q q' : Position}
    {e e' : BindingError} {w y z y' z' : σ × ScopeTree π}
    (same : before ++ event :: after = before' ++ event' :: after')
    (came : replay p before w = .ok q y) (refused : replayOne q event y = .error e z)
    (came' : replay p before' w = .ok q' y') (refused' : replayOne q' event' y' = .error e' z') :
    before' = before ∧ event' = event ∧ after' = after := by
  induction before generalizing before' p w with
  | nil =>
    cases came
    cases before' with
    | nil =>
      obtain ⟨rfl, rfl⟩ := List.cons.inj same
      exact ⟨rfl, rfl, rfl⟩
    | cons first before' =>
      -- the event that one split has refused is accepted in the other
      obtain ⟨rfl, -⟩ := List.cons.inj same
      obtain ⟨_, _, accepted, -⟩ := bind_eq_ok came'
      simp [refused] at accepted
  | cons first before ih =>
    obtain ⟨_, _, accepted, further⟩ := bind_eq_ok came
    cases before' with
    | nil =>
      obtain ⟨rfl, -⟩ := List.cons.inj same
      cases came'
      simp [refused'] at accepted
    | cons first' before' =>
      obtain ⟨rfl, rest⟩ := List.cons.inj same
      obtain ⟨_, _, accepted', further'⟩ := bind_eq_ok came'
      rw [accepted] at accepted'
      cases accepted'
      obtain ⟨rfl, rfl, rfl⟩ := ih rest further further'
      exact ⟨rfl, rfl, rfl⟩

/-- A trace fails where the replay of its events fails, and the end of the analysis does not. -/
theorem ofEvents_cases (events : List Event) (x : σ) :
    (∃ u q, replay (.start ScopeId.root) events (x, new (default : π)) = .ok q (x, u) ∧
      ScopeTree.ofEvents events = .ok u.finish ∧
      ofEvents events (x, new (default : π)) = .ok () (x, u.finish)) ∨
    ∃ u e, replay (.start ScopeId.root) events (x, new (default : π)) = .error e (x, u) ∧
      ScopeTree.ofEvents (π := π) events = .error (.binding e) ∧
      ofEvents events (x, new (default : π)) = .error e (x, u) := by
  have h : (new (default : π)).Reachable := .new default
  rcases replay_cases h (Position.within_start h.wellFormed.root_mem) events x with
    ⟨u, q, replayed, came⟩ | ⟨u, e, replayed, came, -⟩
  · refine .inl ⟨u, q, came, ?_, ?_⟩
    · rw [ScopeTree.ofEvents, replayed]
    · rw [ofEvents, bind_of_ok came]
      exact Walker.build_idle _
  · refine .inr ⟨u, e, came, ?_, ?_⟩
    · rw [ScopeTree.ofEvents, replayed]
    · rw [ofEvents, bind_of_error came]

/-! ### Main result -/

/-- The event at which a replay in place stops: it is refused on the tree that the events before it
    lead to, as it is on that tree as a function, and no other event of the list is. -/
structure StopsAt (x : σ) (t : ScopeTree π) (s : ScopeId) (before : List Event) (event : Event)
    (after : List Event) (u : ScopeTree π) (e : BindingError) : Prop where
  refused : ∃ q, t.replay (.start s) before = (u, .ok q) ∧
    replay (.start s) before (x, t) = .ok q (x, u) ∧ u.replayOne q event = .error (.binding e) ∧
    replayOne q event (x, u) = .error e (x, u)
  unique : ∀ before' event' after' q y e' z, before ++ event :: after = before' ++ event' :: after' →
    replay (.start s) before' (x, t) = .ok q y → replayOne q event' y = .error e' z →
    before' = before ∧ event' = event ∧ after' = after

/-- What reports and replays in place leave of a tree. -/
structure Traceless (x : σ) (t : ScopeTree π) : Prop where
  report : ∀ s ∈ t, ∀ r, InPlace.report s r (x, t) = attempt (·.act s r) (x, t)
  refused : ∀ s ∈ t, ∀ r e y, InPlace.report s r (x, t) = .error e y →
    y = (x, t) ∧ t.perform s r = .error (.binding e)
  nest : ∀ s ∈ t, ∀ kind name payload, InPlace.nest s kind name payload (x, t) =
    match t.nest s kind name payload with
    | .ok u => .ok t.size (x, u)
    | .error e => .error e (x, t)
  replay : ∀ s ∈ t, ∀ events,
    (∃ u q, t.replay (.start s) events = (u, .ok q) ∧
      InPlace.replay (.start s) events (x, t) = .ok q (x, u)) ∨
    ∃ u e, t.replay (.start s) events = (u, .error (.binding e)) ∧
      InPlace.replay (.start s) events (x, t) = .error e (x, u) ∧
      ∃ before event after, events = before ++ event :: after ∧ StopsAt x t s before event after u e
  trace : ∀ events e, (∃ y, ofEvents events (x, new (default : π)) = .error e y) ↔
    ∃ y, InPlace.replay (.start ScopeId.root) events (x, new (default : π)) = .error e y
  fails : ∀ events e, ScopeTree.ofEvents (π := π) events = .error (.binding e) ↔
    ∃ y, ofEvents events (x, new (default : π)) = .error e y
  ends : ∀ events u, ScopeTree.ofEvents events = .ok u ↔
    ofEvents events (x, new (default : π)) = .ok () (x, u)
  finish : ∀ y : σ × ScopeTree π, (Walker.idle : Walker σ π).build y = .ok () (y.1, y.2.finish)

/-- A report in place that is refused has written nothing, so a replay that fails leaves the tree that
    the events before the refused one lead to; a trace fails exactly if its replay on a new tree does. -/
theorem refused_without_trace (h : t.Reachable) (x : σ) : Traceless x t := by
  refine {
    report := fun s hs => report_apply h hs
    refused := fun s hs r e y stopped => ?_
    nest := fun s _ => nest_apply h s
    replay := fun s hs events => ?_
    trace := fun events e => ?_
    fails := fun events e => ?_
    ends := fun events u => ?_
    finish := Walker.build_idle }
  · rw [report_apply h hs, attempt_apply] at stopped
    rw [perform, if_pos (.inl hs)]
    cases acted : t.act s r with
    | ok u => simp [acted] at stopped
    | error e' =>
      rw [acted] at stopped
      cases stopped
      exact ⟨rfl, rfl⟩
  · refine (replay_cases h (Position.within_start hs) events x).imp_right ?_
    rintro ⟨u, e, stopped, left, before, event, after, q, rfl, replayed, came, refuses, refused⟩
    refine ⟨u, e, stopped, left, before, event, after, rfl, ⟨q, replayed, came, refuses, refused⟩, ?_⟩
    intro before' event' after' q' y e' z same came' refused'
    exact stop_unique same came refused came' refused'
  · rcases ofEvents_cases (π := π) events x with ⟨u, q, came, -, done⟩ | ⟨u, e', came, -, failed⟩
    · simp [came, done]
    · simp [came, failed]
  · rcases ofEvents_cases (π := π) events x with ⟨u, q, -, done, ended⟩ | ⟨u, e', -, failed, ended⟩
    · simp [done, ended]
    · simp [failed, ended]
  · rcases ofEvents_cases (π := π) events x with ⟨v, q, -, done, ended⟩ | ⟨v, e', -, failed, ended⟩
    · simp [done, ended]
    · simp [failed, ended]

end replay

/-- A class with a comprehension in it, and a second one in the first. -/
def comprehensionsInClass : ScopeTree Unit :=
  (new ()).recordAll
    [(0, .nest .classBody none ()), (1, .nest .comprehension none ()), (2, .nest .comprehension none ())]

theorem refused_without_trace_comprehensionsInClass :
    comprehensionsInClass.Reachable ∧
      report 3 (.assignExpr ⟨1⟩) ((), comprehensionsInClass) =
        .error ⟨.assignmentInClassBody, ⟨1⟩, 3⟩ ((), comprehensionsInClass) ∧
      ∃ u, replay (.start 3) [.load ⟨2⟩, .assignExpr ⟨1⟩, .store ⟨1⟩] ((), comprehensionsInClass) =
          .error ⟨.assignmentInClassBody, ⟨1⟩, 3⟩ ((), u) ∧
        u.entryAt? 3 ⟨2⟩ = some .used ∧ u.entryAt? 3 ⟨1⟩ = none := by
  have h : comprehensionsInClass.Reachable := Reachable.recordAll _ (Reachable.new ())
  have traceless := refused_without_trace h ()
  refine ⟨h, (traceless.report 3 (by decide) _).trans (attempt_of_error rfl), ?_⟩
  rcases traceless.replay 3 (by decide) [.load ⟨2⟩, .assignExpr ⟨1⟩, .store ⟨1⟩] with
    ⟨u, q, replayed, -⟩ | ⟨u, e, replayed, left, -⟩
  · cases replayed
  · cases replayed
    exact ⟨_, left, by decide, by decide⟩

end InPlace

end Scoping
