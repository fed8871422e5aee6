import Mathlib.Data.List.Chain
import Mathlib.Data.List.Infix
import Scoping.Scope.Trail
import Scoping.Proofs.Refusal

/-! Where a replay stands. The scopes that are open at any point of a replay are the way from the
    current scope outward to the scope that the replay started in, so leaving a scope leads to the
    one it is nested in. A replay can be interrupted: what comes after it is replayed from the
    current scope as it would have been replayed on, unless it leaves that scope, which only the
    first of the two replays can do. -/

namespace Scoping

/-- The trail of a position. -/
def Position.trail (p : Position) : Trail := ⟨p.current, p.current :: p.outer⟩

theorem Position.trail_leave (p : Position) (first : ScopeId) : p.trail.leave first = p.leave.trail := by
  obtain ⟨current, outer⟩ := p
  cases outer <;> rfl

namespace ScopeTree

variable {π : Type} {t u : ScopeTree π} {s : ScopeId} {p q : Position} {e : Event}

/-! ### The way back -/

/-- Whether the open scopes of a position are the way outward to a scope. -/
structure Leads (t : ScopeTree π) (s : ScopeId) (p : Position) : Prop where
  mem : p.current ∈ t
  way : t.path p.current = p.current :: p.outer ++ t.enclosing s
  last : (p.current :: p.outer).getLast? = some s

theorem leads_start (hs : s ∈ t) : t.Leads s (.start s) := ⟨hs, rfl, rfl⟩

namespace Leads

variable (k : t.Leads s p)

include k

theorem start_mem_path : s ∈ t.path p.current :=
  k.way ▸ List.mem_append_left _ (List.mem_of_getLast? k.last)

/-- At the scope that the replay started in there is nothing to go back to. -/
theorem outer_eq_nil_iff : p.outer = [] ↔ p.current = s := by
  constructor
  · intro none
    have last := k.last
    rw [none] at last
    exact Option.some.inj last
  · intro back
    have way := k.way
    rw [back, path, List.cons_append, List.cons.injEq] at way
    exact List.append_left_eq_self.mp way.2.symm

theorem grows (h : t.WellFormed) (g : Grows t u) : u.Leads s p where
  mem := g.mem _ k.mem
  way := by
    rw [g.path k.mem, g.enclosing s (h.mem_around k.mem k.start_mem_path), k.way]
  last := k.last

theorem leave (h : t.WellFormed) : t.Leads s p.leave := by
  obtain ⟨current, outer⟩ := p
  cases outer with
  | nil => exact k
  | cons a outer =>
    have way : t.enclosing current = [] ++ a :: (outer ++ t.enclosing s) := (List.cons.inj k.way).2
    have around : a ∈ t.enclosing current := by
      rw [way]
      exact List.mem_cons_self
    refine ⟨h.mem_of_mem_enclosing around, ?_, ?_⟩
    · rw [Position.leave, path, (h.enclosing_split current way).2, List.cons_append]
    · exact (List.getLast?_cons_cons ..).symm.trans k.last

/-- A scope that is opened below the current one becomes the current one. -/
theorem enter {kind : ScopeKind} {name : Option Ident} {payload : π} (h : t.WellFormed)
    (nested : t.nest p.current kind name payload = .ok u) : u.Leads s (p.enter t.size) := by
  have g : Grows t u := (changes_nest h nested).grows
  obtain ⟨-, -, rfl⟩ := nest_eq_ok nested
  have same := sameScopes_bindOwnName t p.current kind name
  have hp : p.current ∈ t.bindOwnName p.current kind name := (mem_congr same.size _).mpr k.mem
  refine ⟨(mem_push ..).mpr (.inr same.size.symm), ?_, (List.getLast?_cons_cons ..).trans k.last⟩
  rw [path, Position.enter, enclosing_push _ _ _ _ hp, if_pos same.size.symm, same.path, k.way,
    g.enclosing s (h.mem_around k.mem k.start_mem_path)]
  rfl

/-- Leaving a scope leads to the scope it is nested in, except from the scope that the
    replay started in. -/
theorem leave_current : (p.current = s → p.leave = p) ∧
    (p.current ≠ s → t.parent? p.current = some p.leave.current) := by
  obtain ⟨current, outer⟩ := p
  cases outer with
  | nil => exact ⟨fun _ => rfl, fun away => absurd (k.outer_eq_nil_iff.mp rfl) away⟩
  | cons a outer =>
    refine ⟨fun back => ?_, fun _ => ?_⟩
    · have none : a :: outer = [] := k.outer_eq_nil_iff.mpr back
      cases none
    · have way : t.enclosing current = a :: (outer ++ t.enclosing s) := (List.cons.inj k.way).2
      rw [parent?, way]
      rfl

end Leads

/-! ### Trails and positions -/

/-- What a replay tells its caller: the tree, and the current scope without those to go back to. -/
def told (r : ScopeTree π × Except Refusal Position) : ScopeTree π × Except Refusal ScopeId :=
  (r.1, r.2.map Position.current)

/-- A replay has come to the end if its caller is told so. -/
theorem eq_ok_of_map {α : Type} {r : ScopeTree π × Except Refusal Position} {f : Position → α} {b : α}
    (mapped : (r.1, r.2.map f) = (u, .ok b)) : ∃ q, r = (u, .ok q) ∧ f q = b := by
  obtain ⟨v, result⟩ := r
  obtain ⟨rfl, ended⟩ := Prod.mk.inj mapped
  obtain ⟨q, rfl, here⟩ := map_eq_ok ended
  exact ⟨q, rfl, here⟩

section replay

variable [Inhabited π]

/-- An event is about the current scope, unless it opens or closes one. -/
theorem replayOne_cases (e : Event) : e = .leave ∨ (∃ kind name, e = .enter kind name) ∨
    e.opens = false ∧ e ≠ .leave ∧ ∃ a : Action π, ∀ (t : ScopeTree π) (p : Position),
      t.replayOne p e = (t.perform p.current a).map (·, p) := by
  cases e with
  | leave => exact .inl rfl
  | enter kind name => exact .inr (.inl ⟨kind, name, rfl⟩)
  | load n => exact .inr (.inr ⟨rfl, nofun, .load n, fun _ _ => rfl⟩)
  | store n => exact .inr (.inr ⟨rfl, nofun, .store n, fun _ _ => rfl⟩)
  | assignExpr n => exact .inr (.inr ⟨rfl, nofun, .assignExpr n, fun _ _ => rfl⟩)
  | declareNonlocal n => exact .inr (.inr ⟨rfl, nofun, .declareNonlocal n, fun _ _ => rfl⟩)
  | declareGlobal n => exact .inr (.inr ⟨rfl, nofun, .declareGlobal n, fun _ _ => rfl⟩)
  | inIterable on => exact .inr (.inr ⟨rfl, nofun, .setInIterable on, fun _ _ => rfl⟩)

theorem followOne_eq (t : ScopeTree π) (first : ScopeId) (p : Position) (e : Event) :
    t.followOne first p.trail e = (t.replayOne p e).map fun r => (r.1, r.2.trail) := by
  have stays (x : Except Refusal (ScopeTree π)) :
      ((x.map (·, Position.start p.current)).map fun r => (r.1, p.trail)) = (x.map (·, p)).map fun r =>
        (r.1, r.2.trail) := by
    cases x <;> rfl
  cases e with
  | leave => rw [followOne, p.trail_leave, replayOne, Except.map]
  | enter kind name =>
    rw [followOne, replayOne, Position.trail]
    cases t.perform p.current (.nest kind name default) <;> rfl
  | _ => exact stays _

/-- A trail is the current scope of a position with the scopes to go back to. -/
theorem follow_eq (first : ScopeId) : ∀ (events : List Event) (t : ScopeTree π) (p : Position),
    t.follow first p.trail events = ((t.replay p events).1, (t.replay p events).2.map Position.trail)
  | [], _, _ => rfl
  | e :: rest, t, p => by
    rw [follow, followOne_eq]
    cases replayed : t.replayOne p e with
    | error r =>
      rw [replay_cons_of_error replayed]
      rfl
    | ok next =>
      rw [replay_cons_of_ok replayed]
      exact follow_eq first rest next.1 next.2

theorem replayFrom_eq (t : ScopeTree π) (s : ScopeId) (events : List Event) :
    t.replayFrom s events = told (t.replay (.start s) events) := by
  have followed : t.follow s (.start s) events = _ := follow_eq s events t (.start s)
  rw [replayFrom, followed, told]
  cases (t.replay (.start s) events).2 <;> rfl

/-! ### At every point -/

theorem Leads.replayOne (k : t.Leads s p) (h : t.WellFormed) (replayed : t.replayOne p e = .ok (u, q)) :
    u.Leads s q := by
  rcases replayOne_cases (π := π) e with rfl | ⟨kind, name, rfl⟩ | ⟨-, -, a, report⟩
  · cases replayed
    exact k.leave h
  · obtain ⟨v, performed, eq⟩ := map_eq_ok replayed
    cases eq
    exact k.enter h (perform_eq_ok.mp performed).2
  · obtain ⟨v, performed, eq⟩ := map_eq_ok ((report t p).symm.trans replayed)
    cases eq
    exact k.grows h (.perform h performed)

theorem Leads.replay : ∀ {events : List Event} {t : ScopeTree π} {p : Position}, t.Leads s p →
    t.WellFormed → t.replay p events = (u, .ok q) → u.WellFormed ∧ u.Leads s q
  | [], _, _, k, h, replayed => by
    cases replayed
    exact ⟨h, k⟩
  | e :: rest, t, p, k, h, replayed => by
    cases first : t.replayOne p e with
    | error r =>
      rw [replay_cons_of_error first] at replayed
      cases replayed
    | ok next =>
      rw [replay_cons_of_ok first] at replayed
      exact (k.replayOne h first).replay (h.replayOne first) replayed

/-! ### Interruptions -/

theorem replay_append (second : List Event) : ∀ {first : List Event} {t : ScopeTree π} {p : Position},
    t.replay p first = (u, .ok q) → t.replay p (first ++ second) = u.replay q second
  | [], _, _, replayed => by
    cases replayed
    rfl
  | e :: rest, t, p, replayed => by
    rw [List.cons_append]
    cases one : t.replayOne p e with
    | error r =>
      rw [replay_cons_of_error one] at replayed
      cases replayed
    | ok next =>
      rw [replay_cons_of_ok one] at replayed ⊢
      exact replay_append second replayed

/-- Whether a list of events at no time has left more scopes than it has entered, up to a
    given number. -/
def LeavesAtMost (events : List Event) (depth : Nat) : Prop :=
  ∀ before, before <+: events → before.count .leave ≤ before.countP Event.opens + depth

/-- Two replays tell the same if an event takes both to positions from which they do. -/
theorem told_cons {a : Action π} {c d : ScopeId} (more : List ScopeId) {outer outer' : List ScopeId}
    {rest : List Event}
    (one : ∀ outer, t.replayOne ⟨c, outer⟩ e = (t.perform c a).map (·, ⟨d, more ++ outer⟩))
    (onward : ∀ v : ScopeTree π, told (v.replay ⟨d, more ++ outer⟩ rest) =
      told (v.replay ⟨d, more ++ outer'⟩ rest)) :
    told (t.replay ⟨c, outer⟩ (e :: rest)) = told (t.replay ⟨c, outer'⟩ (e :: rest)) := by
  rw [replay, replay, one, one]
  cases t.perform c a with
  | error r => rfl
  | ok v => exact onward v

/-- Scopes that are not left have no influence on what a replay tells. -/
theorem told_replay (base base' : List ScopeId) :
    ∀ {events : List Event} (inner : List ScopeId) {t : ScopeTree π}
    {c : ScopeId}, LeavesAtMost events inner.length →
      told (t.replay ⟨c, inner ++ base⟩ events) = told (t.replay ⟨c, inner ++ base'⟩ events)
  | [], _, _, _, _ => rfl
  | e :: rest, inner, t, c, bounded => by
    have later (before : List Event) (start : before <+: rest) :=
      bounded (e :: before) ((List.prefix_cons_inj e).mpr start)
    rcases replayOne_cases (π := π) e with rfl | ⟨kind, name, rfl⟩ | ⟨quiet, stays, a, report⟩
    · cases inner with
      | nil =>
        have one := later [] List.nil_prefix
        simp [Event.opens] at one
      | cons b inner =>
        refine told_replay base base' inner (c := b) fun before start => ?_
        have bound := later before start
        rw [List.count_cons_self, List.countP_cons_of_neg (by decide), List.length_cons] at bound
        omega
    · refine told_cons [c] (fun _ => rfl) fun v =>
        told_replay base base' (c :: inner) fun before start => ?_
      have bound := later before start
      have other : Event.enter kind name ≠ .leave := nofun
      rw [List.count_cons_of_ne other, List.countP_cons_of_pos rfl] at bound
      rw [List.length_cons]
      omega
    · refine told_cons [] (fun _ => report t _) fun v =>
        told_replay base base' inner fun before start => ?_
      have bound := later before start
      rwa [List.count_cons_of_ne stays, List.countP_cons_of_neg (by simp [quiet])] at bound

end replay

/-! ### Main result -/

/-- How things stand at a point of a replay that started in a scope. -/
structure AlongParents (s : ScopeId) (u : ScopeTree π) (k : Trail) : Prop where
  current : k.opened.head? = some k.current
  first : k.opened.getLast? = some s
  chain : k.opened.IsChain fun a b => u.parent? a = some b
  way : u.path k.current = k.opened ++ u.enclosing s
  below : s ∈ u.path k.current
  /-- Leaving the current scope leads to the one that it is nested in, and from the first one nowhere. -/
  stay : k.current = s → k.leave s = k
  back : k.current ≠ s → u.parent? k.current = some (k.leave s).current

/-- The open scopes of a replay lead from the current scope to the one it started in, and it may
    be broken in two wherever the second part never leaves more scopes than it has entered. -/
theorem replay_along_parents [Inhabited π] (h : t.Reachable) (hs : s ∈ t) :
    (∀ events u k, t.follow s (.start s) events = (u, .ok k) → AlongParents s u k) ∧
    (∀ events, t.replayFrom s events = told (t.replay (.start s) events)) ∧
    ∀ first u c, t.replayFrom s first = (u, .ok c) → ∀ second,
      (c = s ∨ ∀ before, before <+: second → before.count .leave ≤ before.countP Event.opens) →
        t.replayFrom s (first ++ second) = u.replayFrom c second := by
  have led {events : List Event} {u : ScopeTree π} {p : Position}
      (replayed : t.replay (.start s) events = (u, .ok p)) : u.WellFormed ∧ u.Leads s p :=
    (leads_start hs).replay h.wellFormed replayed
  refine ⟨fun events u k followed => ?_, t.replayFrom_eq s, fun first u c done second fits => ?_⟩
  · have same : t.follow s (.start s) events = _ := follow_eq s events t (.start s)
    obtain ⟨p, replayed, rfl⟩ := eq_ok_of_map (same.symm.trans followed)
    obtain ⟨wf, k⟩ := led replayed
    have chain := wf.isChain_path p.current
    rw [k.way] at chain
    refine ⟨rfl, k.last, chain.left_of_append, k.way, k.start_mem_path, fun back => ?_, ?_⟩
    · rw [p.trail_leave, k.leave_current.1 back]
    · rw [p.trail_leave]
      exact k.leave_current.2
  · rw [replayFrom_eq] at done
    obtain ⟨p, replayed, rfl⟩ := eq_ok_of_map done
    obtain ⟨-, k⟩ := led replayed
    rw [replayFrom_eq, replayFrom_eq, replay_append second replayed]
    rcases fits with back | bounded
    · have start : p = .start p.current := by
        rw [Position.start, ← k.outer_eq_nil_iff.mpr back]
      rw [← start]
    · exact told_replay p.outer [] [] bounded

/-- A trace that ends in a function. -/
def untilFunction : List Event := [.enter .function (some ⟨0⟩), .enter .lambda none, .leave, .store ⟨1⟩]

/-- A trace that goes through a lambda and comes back. -/
def throughLambda : List Event := [.enter .lambda none, .load ⟨1⟩, .leave, .load ⟨2⟩]

theorem replay_along_parents_untilFunction :
    (ScopeTree.new ()).Reachable ∧ ScopeId.root ∈ ScopeTree.new () ∧
      ((ScopeTree.new ()).replayFrom ScopeId.root untilFunction).2 = .ok 1 ∧
      (ScopeTree.new ()).replayFrom ScopeId.root (untilFunction ++ throughLambda) =
        ((ScopeTree.new ()).replayFrom ScopeId.root untilFunction).1.replayFrom 1 throughLambda := by
  have new := Reachable.new ()
  have root := new.wellFormed.root_mem
  have came : ((ScopeTree.new ()).replayFrom ScopeId.root untilFunction).2 = .ok 1 := by decide +kernel
  have balanced :
      ∀ before ∈ throughLambda.inits, before.count .leave ≤ before.countP Event.opens := by decide
  obtain ⟨-, -, composed⟩ := replay_along_parents new root
  refine ⟨new, root, came, ?_⟩
  refine composed untilFunction _ 1 (Prod.ext rfl came) throughLambda (.inr fun before start => ?_)
  exact balanced before ((List.mem_inits ..).mpr start)

end ScopeTree

end Scoping
