import Scoping.Proofs.Arena
import Scoping.Proofs.Beside
import Scoping.Proofs.Forward

/-! The calls of a build. A walker may open scopes below the scope that it is called for and below
    every scope around that one, so the lists that a walk goes along grow while it does, on several
    levels at once. Still it comes to every scope once, the outer before the inner: a list grows at
    its end only, where the walk has not been, and what lies below a scope that the walk has left
    does not grow any more. What is settled is settled after the last call, and a call that fails is
    the last one, with nothing settled. -/

namespace Scoping

open Relation

namespace ScopeTree

variable {π : Type} {t u v : ScopeTree π} {s a c d : ScopeId} {i : Nat} {P Q : ScopeId → Prop}

/-! ### Where a report opens scopes -/

/-- A report leaves the lists of nested scopes as they are, or opens a scope and adds it to a single
    list. It does not complete the analysis. -/
theorem places_of_act {r : Action π} (acted : t.act a r = .ok u) : u.built = t.built ∧
    (u.size = t.size ∧ (∀ b, u.nested b = t.nested b) ∨
      (∃ kind name payload, r = .nest kind name payload) ∧ t.size < capacity ∧ u.size = t.size + 1 ∧
        ∀ b ≠ a, u.nested b = t.nested b) := by
  cases r with
  | nest kind name payload =>
    obtain ⟨-, mem, rfl⟩ := nest_eq_ok acted
    have own := sameScopes_bindOwnName t a kind name
    have mem' := (mem_congr own.size a).mpr mem
    have small : t.size < capacity := by
      by_contra full
      rw [act, nest] at acted
      split_ifs at acted
      omega
    refine ⟨own.built, .inr ⟨⟨kind, name, payload, rfl⟩, small, by simp [own.size], fun b away => ?_⟩⟩
    rw [nested_push _ kind name payload mem', own.size, if_neg away, own.nested]
    split_ifs with new
    · rw [new, nested_of_not_mem (Nat.lt_irrefl t.size)]
    · rfl
  | setInIterable on =>
    cases acted
    exact ⟨rfl, .inl ⟨by simp, by simp⟩⟩
  | _ =>
    have same : SameScopes t u := by
      by_cases mem : a ∈ t
      · exact sameScopes_act mem rfl acted
      · rcases act_of_not_mem mem acted with rfl | ⟨n, rfl⟩
        · exact .refl u
        · exact sameScopes_store t _ n
    exact ⟨same.built, .inl ⟨same.size, same.nested⟩⟩

/-- A tree never holds more scopes than there are ids. -/
theorem Reachable.size_le_capacity (h : t.Reachable) : t.size ≤ capacity := by
  obtain ⟨payload, steps⟩ := h
  induction steps with
  | refl => exact Nat.le_of_ble_eq_true rfl
  | @tail t u before last ih =>
    cases last with
    | perform accepted =>
      obtain ⟨-, acted⟩ := perform_eq_ok.mp accepted
      rcases (places_of_act acted).2 with ⟨same, -⟩ | ⟨-, small, one, -⟩ <;> omega
    | finish =>
      have h : t.Reachable := ⟨payload, before⟩
      exact Nat.le_trans (Nat.le_of_eq h.wellFormed.settled.same.size) ih

/-- A report that opens a scope, if it does, below a scope or below one around it. -/
def OuterReport (s : ScopeId) (t u : ScopeTree π) : Prop :=
  ∃ a r, t.act a r = .ok u ∧ ∀ kind name payload, r = .nest kind name payload → a ∈ t.path s

/-- A tree that another has grown out of by reports, with new scopes below certain scopes alone. -/
structure GrowsAt (P : ScopeId → Prop) (t u : ScopeTree π) : Prop where
  reached : u.Reachable
  changes : Changes t u
  nested : ∀ a ∈ t, ¬P a → u.nested a = t.nested a
  built : u.built = t.built

namespace GrowsAt

theorem refl (h : t.Reachable) : GrowsAt P t t := ⟨h, .refl, fun _ _ _ => rfl, rfl⟩

theorem trans (k : GrowsAt P t u) (l : GrowsAt Q u v) (within : ∀ a ∈ t, Q a → P a) : GrowsAt P t v where
  reached := l.reached
  changes := k.changes.trans l.changes
  nested a ha off := by
    rw [l.nested a (k.changes.grows.mem a ha) (mt (within a ha) off), k.nested a ha off]
  built := l.built.trans k.built

theorem mono (k : GrowsAt P t u) (within : ∀ a ∈ t, P a → Q a) : GrowsAt Q t u :=
  { k with nested := fun a ha off => k.nested a ha (mt (within a ha) off) }

theorem path (k : GrowsAt P t u) (hs : s ∈ t) : u.path s = t.path s := k.changes.grows.path hs

/-- Lists grow at their end. -/
theorem getElem? (k : GrowsAt P t u) (found : (t.nested s)[i]? = some c) :
    (u.nested s)[i]? = some c := by
  obtain ⟨more, eq⟩ := k.changes.retains.nested s
  obtain ⟨lt, -⟩ := List.getElem?_eq_some_iff.mp found
  rw [← eq, List.getElem?_append_left lt, found]

end GrowsAt

theorem OuterReport.growsAt (h : t.Reachable) (report : OuterReport s t u) :
    GrowsAt (· ∈ t.path s) t u := by
  obtain ⟨a, r, acted, around⟩ := report
  have changes : Changes t u := by
    obtain ⟨calls, rfl⟩ := exists_calls_of_act acted
    exact (h.wellFormed.steps (t.steps_afterAll calls)).2
  obtain ⟨built, places⟩ := places_of_act acted
  refine ⟨h.act acted, changes, fun b hb off => ?_, built⟩
  rcases places with ⟨-, same⟩ | ⟨⟨kind, name, payload, rfl⟩, -, -, others⟩
  · exact same b
  · refine others b ?_
    rintro rfl
    exact off (around kind name payload rfl)

theorem growsAt_of_reports (h : t.Reachable) (hs : s ∈ t) (reports : ReflTransGen (OuterReport s) t u) :
    GrowsAt (· ∈ t.path s) t u := by
  induction reports with
  | refl => exact .refl h
  | tail _ last ih =>
    refine ih.trans (last.growsAt ih.reached) fun a _ around => ?_
    rwa [ih.path hs] at around

/-! ### What a walk has still to come to -/

theorem drop_nested_eq_cons (found : (t.nested s)[i]? = some c) :
    (t.nested s).drop i = c :: (t.nested s).drop (i + 1) := by
  obtain ⟨lt, rfl⟩ := List.getElem?_eq_some_iff.mp found
  exact List.drop_eq_getElem_cons lt

/-- What is listed after a scope is what is listed and younger. -/
theorem WellFormed.mem_drop_nested (h : t.WellFormed) (found : (t.nested s)[i]? = some c) :
    d ∈ (t.nested s).drop (i + 1) ↔ d ∈ t.nested s ∧ c < d := by
  have split : (t.nested s).take i ++ c :: (t.nested s).drop (i + 1) = t.nested s := by
    rw [← drop_nested_eq_cons found, List.take_append_drop]
  have order := h.nested_pairwise s
  rw [← split, List.pairwise_append, List.pairwise_cons] at order
  obtain ⟨-, ⟨after, -⟩, before⟩ := order
  refine ⟨fun listed => ⟨List.mem_of_mem_drop listed, after d listed⟩, ?_⟩
  rintro ⟨listed, lt⟩
  rw [← split, List.mem_append, List.mem_cons] at listed
  rcases listed with first | rfl | rest
  · exact absurd lt (Nat.lt_asymm (before d first c List.mem_cons_self))
  · exact absurd lt (Nat.lt_irrefl d)
  · exact rest

/-- The scopes that may come to hold more when the scopes nested in a scope are walked from a place
    on: the scope and those around it, the scopes from that place on, and what is below these. -/
def Growing (t : ScopeTree π) (s : ScopeId) (i : Nat) (a : ScopeId) : Prop :=
  a ∈ t.path s ∨ ∃ c ∈ (t.nested s).drop i, c ∈ t.path a

section step

variable (h : t.WellFormed) (found : (t.nested s)[i]? = some c)

include h found

theorem mem_of_listed : c ∈ t ∧ s < c ∧ t.path c = c :: t.path s := by
  have listed : c ∈ t.nested s := List.mem_of_getElem? found
  obtain ⟨mem, lt, around⟩ := h.enclosing_of_parent? (h.mem_nested.mp listed)
  exact ⟨mem, lt, congrArg (c :: ·) around⟩

/-- The scopes around and below the next scope grow when that scope is walked. -/
theorem growing_of_mem_path (ha : a ∈ t.path c) : t.Growing s i a := by
  obtain ⟨-, -, around⟩ := mem_of_listed h found
  rw [around] at ha
  rcases List.mem_cons.mp ha with rfl | ha
  · refine .inr ⟨a, ?_, List.mem_cons_self⟩
    rw [drop_nested_eq_cons found]
    exact List.mem_cons_self
  · exact .inl ha

/-- What grows below the next scope has grown there. -/
theorem growing_of_next (k : GrowsAt P t u) (ha : a ∈ t) (grows : u.Growing c 0 a) :
    t.Growing s i a := by
  obtain ⟨mem, -, -⟩ := mem_of_listed h found
  have wf := k.reached.wellFormed
  rcases grows with around | ⟨d, listed, below⟩
  · rw [k.path mem] at around
    exact growing_of_mem_path h found around
  · have up := (wf.enclosing_of_parent? (wf.mem_nested.mp (List.mem_of_mem_drop listed))).2.2
    have inner : c ∈ u.enclosing d := by
      rw [up]
      exact List.mem_cons_self
    refine .inr ⟨c, ?_, ?_⟩
    · rw [drop_nested_eq_cons found]
      exact List.mem_cons_self
    · rw [← k.path ha]
      exact List.mem_cons_of_mem a (wf.enclosing_subset_of_path below inner)

/-- What grows with the scopes after the next one is in the list already, or below it. -/
theorem growing_of_rest (k : GrowsAt P t u) (hs : s ∈ t) (ha : a ∈ t) (grows : u.Growing s (i + 1) a) :
    t.Growing s i a := by
  have wf := k.reached.wellFormed
  rcases grows with around | ⟨d, listed, below⟩
  · rw [k.path hs] at around
    exact .inl around
  · obtain ⟨nested, lt⟩ := (wf.mem_drop_nested (k.getElem? found)).mp listed
    rw [k.path ha] at below
    have old : d ∈ t := h.mem_around ha below
    have parent : t.parent? d = some s := by
      rw [parent?, ← k.changes.grows.enclosing d old]
      exact wf.mem_nested.mp nested
    refine .inr ⟨d, ?_, below⟩
    rw [drop_nested_eq_cons found]
    exact List.mem_cons_of_mem c ((h.mem_drop_nested found).mpr ⟨h.mem_nested.mpr parent, lt⟩)

/-- What lies below a scope does not grow with the scopes after it. -/
theorem not_growing_below (ha : c ∈ t.path a) : ¬t.Growing s (i + 1) a := by
  obtain ⟨mem, after, around⟩ := mem_of_listed h found
  rintro (outer | ⟨d, listed, below⟩)
  · have older : c ≤ s := Nat.le_trans (h.le_of_mem_path ha) (h.le_of_mem_path outer)
    exact Nat.not_le_of_lt after older
  · obtain ⟨nested, lt⟩ := (h.mem_drop_nested found).mp listed
    have listed := h.mem_nested.mp (List.mem_of_getElem? found)
    exact Nat.ne_of_lt lt (h.eq_of_mem_path listed (h.mem_nested.mp nested) ha below)

end step

/-! ### Orders that stay -/

/-- The walk over what is nested in a scope depends on the lists below that scope alone. -/
theorem preOrderWithin_congr (h : t.WellFormed) (nested : ∀ a, c ∈ t.path a → u.nested a = t.nested a)
    (depth : Nat) (ha : c ∈ t.path a) : u.preOrderWithin depth a = t.preOrderWithin depth a := by
  induction depth generalizing a with
  | zero => rfl
  | succ depth ih =>
    rw [preOrderWithin, preOrderWithin, nested a ha]
    refine congrArg (a :: ·) (List.flatMap_congr fun b hb => ih ?_)
    have up := (h.enclosing_of_parent? (h.mem_nested.mp hb)).2.2
    rw [path, up]
    exact List.mem_cons_of_mem b ha

theorem preOrder_congr (h : t.WellFormed) (hc : c ∈ t) (size : t.size ≤ u.size)
    (nested : ∀ a, c ∈ t.path a → u.nested a = t.nested a) : u.preOrder c = t.preOrder c := by
  have deeper : t.preOrder c = t.preOrderWithin u.size c :=
    h.preOrderWithin_eq hc (Nat.le_add_left ..) (Nat.le_trans size (Nat.le_add_left ..))
  rw [deeper, preOrder, preOrderWithin_congr h nested _ List.mem_cons_self]

/-- The order of what is below a scope stays when the scopes after it are walked. -/
theorem preOrder_of_rest (h : t.WellFormed) (found : (t.nested s)[i]? = some c)
    (k : GrowsAt (t.Growing s (i + 1)) t u) : u.preOrder c = t.preOrder c := by
  obtain ⟨mem, -, -⟩ := mem_of_listed h found
  refine preOrder_congr h mem k.changes.retains.size fun a ha => ?_
  exact k.nested a (h.mem_of_mem_path mem ha) (not_growing_below h found ha)

/-- A place in a list comes with the next scope, with what is below that scope, and with
    the places after it. -/
theorem flatMap_preOrder_next (h : t.WellFormed) (found : (t.nested s)[i]? = some c)
    (k : GrowsAt (t.Growing s (i + 1)) t u) : ((u.nested s).drop i).flatMap u.preOrder =
      c :: ((t.nested c).flatMap t.preOrder ++ ((u.nested s).drop (i + 1)).flatMap u.preOrder) := by
  obtain ⟨mem, -, -⟩ := mem_of_listed h found
  rw [drop_nested_eq_cons (k.getElem? found), List.flatMap_cons, preOrder_of_rest h found k,
    h.preOrder_eq mem]
  rfl

theorem preOrder_finish (h : t.WellFormed) :
    t.finish.preOrder ScopeId.root = t.preOrder ScopeId.root := by
  have same := h.settled.same
  exact preOrder_congr h h.root_mem (Nat.le_of_eq same.size.symm) fun a _ => same.nested a

end ScopeTree

/-! ### Walks that keep a log -/

namespace Walker

open Walking ScopeTree

variable {σ π α β : Type} {w : Walker σ π}

/-- The walker that notes the scopes for which it is called, besides its reports. -/
def logged (w : Walker σ π) : Walker (σ × List ScopeId) π := fun s x =>
  match w s (x.1.1, x.2) with
  | .ok _ y => .ok () ((y.1, x.1.2 ++ [s]), y.2)
  | .error e y => .error e ((y.1, x.1.2 ++ [s]), y.2)

/-- The log in the end, whether the steps fail or not. -/
def logOf : EStateM.Result BindingError ((σ × List ScopeId) × ScopeTree π) α → List ScopeId
  | .ok _ y => y.1.2
  | .error _ y => y.1.2

/-- The scopes for which a build calls its walker, in the order of the calls. -/
def calls (w : Walker σ π) (x : σ × ScopeTree π) : List ScopeId :=
  logOf (w.logged.build ((x.1, []), x.2))

/-- Calls a walker for one scope after the other. -/
def callAll (w : Walker σ π) : List ScopeId → Walking σ π Unit
  | [] => pure ()
  | s :: rest => do
    w s
    w.callAll rest

theorem callAll_append (calls more : List ScopeId) {y z : σ × ScopeTree π}
    (first : w.callAll calls y = .ok () z) : w.callAll (calls ++ more) y = w.callAll more z := by
  induction calls generalizing y with
  | nil =>
    cases first
    rfl
  | cons s calls ih =>
    obtain ⟨_, v, called, rest⟩ := bind_eq_ok first
    exact (bind_of_ok called _).trans (ih rest)

/-- Steps with a log and the same steps without. They have the same outcome, and the log tells the
    calls: they all succeed, one after the other, unless the steps fail, and then the last one fails. -/
def Logs (w : Walker σ π) (m' : Walking (σ × List ScopeId) π α) (m : Walking σ π α) : Prop :=
  ∀ x log t, match m' ((x, log), t) with
    | .ok a y => m (x, t) = .ok a (y.1.1, y.2) ∧
        ∃ calls, y.1.2 = log ++ calls ∧ w.callAll calls (x, t) = .ok () (y.1.1, y.2)
    | .error e y => m (x, t) = .error e (y.1.1, y.2) ∧
        ∃ calls last z, y.1.2 = log ++ (calls ++ [last]) ∧ w.callAll calls (x, t) = .ok () z ∧
          w last z = .error e (y.1.1, y.2)

namespace Logs

theorem pure (a : α) : Logs w (Pure.pure a) (Pure.pure a) :=
  fun _ log _ => ⟨rfl, [], (List.append_nil log).symm, rfl⟩

theorem tree : Logs w Walking.tree Walking.tree :=
  fun _ log _ => ⟨rfl, [], (List.append_nil log).symm, rfl⟩

theorem call (s : ScopeId) : Logs w (w.logged s) (w s) := by
  intro x log t
  rw [logged]
  cases called : w s (x, t) with
  | ok a y => exact ⟨rfl, [s], rfl, bind_of_ok called _⟩
  | error e y => exact ⟨rfl, [], s, (x, t), rfl, rfl, called⟩

theorem bind {m' : Walking (σ × List ScopeId) π α} {m : Walking σ π α}
    {f' : α → Walking (σ × List ScopeId) π β}
    {f : α → Walking σ π β} (hm : Logs w m' m) (hf : ∀ a, Logs w (f' a) (f a)) :
    Logs w (m' >>= f') (m >>= f) := by
  intro x log t
  have first := hm x log t
  rcases bind_cases m' f' ((x, log), t) with ⟨e, y, failed, eq⟩ | ⟨a, y, done, eq⟩
  · rw [failed] at first
    rw [eq]
    exact ⟨bind_of_error first.1 f, first.2⟩
  · rw [done] at first
    obtain ⟨plain, calls, log', called⟩ := first
    have second := hf a y.1.1 y.1.2 y.2
    rw [eq, bind_of_ok plain f]
    cases run : f' a y with
    | ok b z =>
      rw [run] at second
      obtain ⟨plain', calls', log'', called'⟩ := second
      refine ⟨plain', calls ++ calls', ?_, (callAll_append calls calls' called).trans called'⟩
      rw [log'', log', List.append_assoc]
    | error e z =>
      rw [run] at second
      obtain ⟨plain', calls', last, v, log'', called', failed⟩ := second
      refine ⟨plain', calls ++ calls', last, v, ?_, ?_, failed⟩
      · rw [log'', log', List.append_assoc, List.append_assoc]
      · exact (callAll_append calls calls' called).trans called'

theorem walkNested (w : Walker σ π) (fuel : Nat) (s : ScopeId) (i : Nat) :
    Logs w (w.logged.walkNested fuel s i) (w.walkNested fuel s i) := by
  induction fuel generalizing s i with
  | zero => exact .pure ()
  | succ fuel ih =>
    refine .bind .tree fun t => ?_
    cases (t.nested s)[i]? with
    | none => exact .pure ()
    | some child => exact .bind (.call child) fun _ => .bind (ih child 0) fun _ => ih s (i + 1)

theorem walk (w : Walker σ π) : Logs w w.logged.walk w.walk :=
  .bind (.call ScopeId.root) fun _ => .walkNested w capacity ScopeId.root 0

end Logs

/-! ### The order of the calls -/

/-- The walker makes reports, wherever they are about, and opens scopes only below the scope that it
    is called for and below the scopes around that one. This is asked of the calls of one build,
    each made where the calls before it have led. -/
def NestsOutward (w : Walker σ π) (x : σ × ScopeTree π) : Prop :=
  ∀ before s z, before ++ [s] <+: w.calls x → w.callAll before x = .ok () z → z.2.Reachable → s ∈ z.2 →
    match w s z with
    | .ok _ y => ReflTransGen (OuterReport s) z.2 y.2
    | .error _ y => ReflTransGen (OuterReport s) z.2 y.2

/-- A state that a build gets to by the calls in its log. -/
structure Stands (w : Walker σ π) (x₀ : σ × ScopeTree π)
    (x : (σ × List ScopeId) × ScopeTree π) : Prop where
  called : w.callAll x.1.2 x₀ = .ok () (x.1.1, x.2)
  reached : x.2.Reachable
  built : x.2.built = x₀.2.built

/-- The end of steps that are a part of a build: a state of the build, with a condition on it, or a
    failure that leaves the analysis as incomplete as it was. -/
def Ends (w : Walker σ π) (x₀ : σ × ScopeTree π) (post : (σ × List ScopeId) × ScopeTree π → Prop)
    (r : EStateM.Result BindingError ((σ × List ScopeId) × ScopeTree π) α) : Prop :=
  logOf r <+: w.calls x₀ → match r with
    | .ok _ y => w.Stands x₀ y ∧ post y
    | .error _ y => y.2.built = x₀.2.built

section runs

variable {x₀ : σ × ScopeTree π} {x : (σ × List ScopeId) × ScopeTree π}
  {P Q : (σ × List ScopeId) × ScopeTree π → Prop}

theorem Stands.ends (stands : w.Stands x₀ x) (a : α) (hx : P x) : w.Ends x₀ P (.ok a x) :=
  fun _ => ⟨stands, hx⟩

/-- The log of steps begins with what was in it before them. -/
theorem Logs.keeps_log {m' : Walking (σ × List ScopeId) π α} {m : Walking σ π α} (hm : Logs w m' m)
    (x : (σ × List ScopeId) × ScopeTree π) : x.1.2 <+: logOf (m' x) := by
  have steps := hm x.1.1 x.1.2 x.2
  cases run : m' x with
  | ok a y =>
    rw [run] at steps
    obtain ⟨-, calls, log, -⟩ := steps
    exact ⟨calls, log.symm⟩
  | error e y =>
    rw [run] at steps
    obtain ⟨-, calls, last, -, log, -, -⟩ := steps
    exact ⟨calls ++ [last], log.symm⟩

/-- Steps after steps that have got somewhere. -/
theorem Ends.bind {m' : Walking (σ × List ScopeId) π α} {f' : α → Walking (σ × List ScopeId) π β}
    {f : α → Walking σ π β} (first : w.Ends x₀ P (m' x)) (hf : ∀ a, Logs w (f' a) (f a))
    (next : ∀ a y, w.Stands x₀ y → P y → w.Ends x₀ Q (f' a y)) : w.Ends x₀ Q ((m' >>= f') x) := by
  rcases bind_cases m' f' x with ⟨e, y, failed, run⟩ | ⟨a, y, done, run⟩
  · rw [failed] at first
    rw [run]
    exact first
  · rw [done] at first
    rw [run]
    intro part
    obtain ⟨stands, hy⟩ := first (((hf a).keeps_log y).trans part)
    exact next a y stands hy part

theorem Ends.mono {r : EStateM.Result BindingError ((σ × List ScopeId) × ScopeTree π) α}
    (h : w.Ends x₀ P r) (weaker : ∀ y, P y → Q y) : w.Ends x₀ Q r := by
  intro part
  cases r with
  | ok a y => exact (h part).imp_right (weaker y)
  | error e y => exact h part

end runs

section walkNested

variable {v : Walker σ π} {x : σ × ScopeTree π} {s c : ScopeId} {i : Nat}

theorem walkNested_of_none (fuel : Nat) (none : (x.2.nested s)[i]? = none) :
    v.walkNested (fuel + 1) s i x = .ok () x := by
  rw [walkNested, bind_of_ok (m := Walking.tree) rfl]
  rw [none]
  rfl

theorem walkNested_of_some (fuel : Nat) (found : (x.2.nested s)[i]? = some c) :
    v.walkNested (fuel + 1) s i x =
      (do v c; v.walkNested fuel c 0; v.walkNested fuel s (i + 1) : Walking σ π Unit) x := by
  rw [walkNested, bind_of_ok (m := Walking.tree) rfl]
  rw [found]

end walkNested

variable {x₀ : σ × ScopeTree π} {x : (σ × List ScopeId) × ScopeTree π} {s : ScopeId} {i : Nat}

theorem NestsOutward.call (hw : w.NestsOutward x₀) (stands : w.Stands x₀ x) (hs : s ∈ x.2) :
    w.Ends x₀ (fun y => GrowsAt (· ∈ x.2.path s) x.2 y.2 ∧ y.1.2 = x.1.2 ++ [s]) (w.logged s x) := by
  intro part
  rw [logged] at part ⊢
  have reports := hw x.1.2 s (x.1.1, x.2)
  cases called : w s (x.1.1, x.2) with
  | ok _ y =>
    rw [called] at part reports
    have k := growsAt_of_reports stands.reached hs (reports part stands.called stands.reached hs)
    refine ⟨⟨?_, k.reached, k.built.trans stands.built⟩, k, rfl⟩
    exact (callAll_append x.1.2 [s] stands.called).trans (bind_of_ok called _)
  | error e y =>
    rw [called] at part reports
    have k := growsAt_of_reports stands.reached hs (reports part stands.called stands.reached hs)
    exact k.built.trans stands.built

theorem room_of_lt {fuel c d : Nat} (room : capacity ≤ c + (fuel + 1)) (lt : c < d) :
    capacity ≤ d + fuel := by
  omega

/-- The calls for the scopes nested in a scope from a place on are those of the walks over them in
    the end. Ids grow on the way inward and along a list, so there is a step left for every scope
    that is still to come. -/
theorem NestsOutward.walkNested (hw : w.NestsOutward x₀) (fuel : Nat) (stands : w.Stands x₀ x)
    (hs : s ∈ x.2) (room : ∀ c ∈ (x.2.nested s).drop i, capacity ≤ c + fuel) :
    w.Ends x₀ (fun y => GrowsAt (x.2.Growing s i) x.2 y.2 ∧
        y.1.2 = x.1.2 ++ ((y.2.nested s).drop i).flatMap y.2.preOrder)
      (w.logged.walkNested fuel s i x) := by
  have h := stands.reached
  have wf := h.wellFormed
  induction fuel generalizing s i x with
  | zero =>
    have none : (x.2.nested s).drop i = [] := by
      refine List.eq_nil_iff_forall_not_mem.mpr fun c hc => ?_
      have listed := wf.mem_nested.mp (List.mem_of_mem_drop hc)
      have small : c < x.2.size := (wf.enclosing_of_parent? listed).1
      exact Nat.not_lt_of_le (room c hc) (Nat.lt_of_lt_of_le small h.size_le_capacity)
    refine stands.ends () ⟨.refl h, ?_⟩
    rw [none, List.flatMap_nil, List.append_nil]
  | succ fuel ih =>
    cases found : (x.2.nested s)[i]? with
    | none =>
      rw [walkNested_of_none fuel found]
      refine stands.ends () ⟨.refl h, ?_⟩
      rw [List.drop_eq_nil_of_le (List.getElem?_eq_none_iff.mp found), List.flatMap_nil, List.append_nil]
    | some c =>
      rw [walkNested_of_some fuel found]
      obtain ⟨hc, -, -⟩ := mem_of_listed wf found
      have enough := room c (by simp [drop_nested_eq_cons found])
      -- the call for the next scope
      refine (hw.call stands hc).bind
        (fun _ => .bind (.walkNested w fuel c 0) fun _ => .walkNested w fuel s (i + 1)) ?_
      rintro - x₁ stands₁ ⟨k₁, log₁⟩
      -- the calls for what is below it by then
      have wf₁ := k₁.reached.wellFormed
      have below := ih (i := 0) stands₁ (k₁.changes.grows.mem c hc) (fun d listed =>
        room_of_lt enough (wf₁.lt_of_mem_nested (List.mem_of_mem_drop listed))) k₁.reached wf₁
      refine below.bind (fun _ => .walkNested w fuel s (i + 1)) ?_
      rintro - x₂ stands₂ ⟨k₂, log₂⟩
      have upto : GrowsAt (x.2.Growing s i) x.2 x₂.2 :=
        (k₁.mono fun a _ => growing_of_mem_path wf found).trans k₂ fun a => growing_of_next wf found k₁
      -- the calls for the scopes after it
      have wf₂ := upto.reached.wellFormed
      have found₂ := upto.getElem? found
      have rest := ih (i := i + 1) stands₂ (upto.changes.grows.mem s hs) (fun d listed =>
        room_of_lt enough ((wf₂.mem_drop_nested found₂).mp listed).2) upto.reached wf₂
      refine rest.mono ?_
      rintro y ⟨k₃, log₃⟩
      refine ⟨upto.trans k₃ fun a => growing_of_rest wf found upto hs, ?_⟩
      rw [log₃, log₂, log₁, flatMap_preOrder_next wf₂ found₂ k₃]
      simp

/-- The calls of a walk are the walk over the scopes in the end, from the global scope inward. -/
theorem NestsOutward.walk (hw : w.NestsOutward x₀) (stands : w.Stands x₀ x) :
    w.Ends x₀ (fun y => y.1.2 = x.1.2 ++ y.2.preOrder ScopeId.root) (w.logged.walk x) := by
  have root := stands.reached.wellFormed.root_mem
  refine (hw.call stands root).bind (fun _ => .walkNested w capacity ScopeId.root 0) ?_
  rintro - x₁ stands₁ ⟨k₁, log₁⟩
  have nested := hw.walkNested capacity (i := 0) stands₁ (k₁.changes.grows.mem _ root) fun c _ =>
    Nat.le_add_left capacity c
  refine nested.mono ?_
  rintro y ⟨k₂, log₂⟩
  have wf := k₂.reached.wellFormed
  rw [log₂, log₁, wf.preOrder_eq wf.root_mem]
  simp

theorem calls_of_not_built (w : Walker σ π) {x : σ × ScopeTree π} (fresh : x.2.built = false) :
    w.calls x = logOf (w.logged.walk ((x.1, []), x.2)) := by
  rw [calls, build_of_not_built w.logged fresh]
  rcases bind_cases w.logged.walk (fun _ => Walking.update finish) ((x.1, []), x.2) with
    ⟨e, y, failed, run⟩ | ⟨a, y, done, run⟩
  · rw [failed]
    exact congrArg logOf run
  · rw [done]
    exact (congrArg logOf run).trans rfl

/-- The calls of a walk are those that the tree lists in the end, or they break off with one that
    fails. -/
theorem NestsOutward.visits {x : σ × ScopeTree π} (hw : w.NestsOutward x) (h : x.2.Reachable)
    (fresh : x.2.built = false) :
    match w.walk x with
    | .ok _ y => y.2.Reachable ∧ y.2.built = false ∧ w.calls x = y.2.preOrder ScopeId.root ∧
        w.callAll (w.calls x) x = .ok () y
    | .error e y => y.2.built = false ∧ ∃ before last z, w.calls x = before ++ [last] ∧
        w.callAll before x = .ok () z ∧ w last z = .error e y := by
  obtain ⟨x, t⟩ := x
  have logs := Logs.walk w x [] t
  have whole : w.calls (x, t) = logOf (w.logged.walk ((x, []), t)) := calls_of_not_built w fresh
  have visits := hw.walk (x := ((x, []), t)) ⟨rfl, h, rfl⟩ (whole ▸ List.prefix_refl _)
  rw [whole]
  cases run : w.logged.walk ((x, []), t) with
  | error e y =>
    rw [run] at logs visits
    obtain ⟨walked, calls⟩ := logs
    rw [walked]
    exact ⟨visits.trans fresh, calls⟩
  | ok _ y =>
    rw [run] at logs visits
    obtain ⟨walked, -⟩ := logs
    obtain ⟨stands, order⟩ := visits
    rw [walked]
    exact ⟨stands.reached, stands.built.trans fresh, order, stands.called⟩

/-! ### Main result -/

/-- A build calls its walker once for every scope of the tree that it leaves, in the order of a walk
    over that tree, and settles it after all calls, if none of them fails. -/
theorem build_calls_in_preOrder {x : σ × ScopeTree π} (h : x.2.Reachable) (hw : w.NestsOutward x) :
    (x.2.built = false → match w.build x with
      | .ok _ y => w.calls x = y.2.preOrder ScopeId.root ∧ (w.calls x).Perm y.2.ids ∧
          (∀ s ∈ y.2, y.2.preOrder s = s :: (y.2.nested s).flatMap y.2.preOrder) ∧
          ∃ t, w.callAll (w.calls x) x = .ok () (y.1, t) ∧ t.built = false ∧ y.2 = t.finish
      | .error e y => y.2.built = false ∧
          ∃ before last z, w.calls x = before ++ [last] ∧ w.callAll before x = .ok () z ∧
          w last z = .error e y) ∧
    (x.2.built → w.calls x = [] ∧ w.build x = .ok () (x.1, x.2.finish)) := by
  refine ⟨fun fresh => ?_, fun built => ⟨?_, build_of_built w built⟩⟩
  · have visits := hw.visits h fresh
    rw [build_of_not_built w fresh]
    cases walked : w.walk x with
    | error e y =>
      rw [walked] at visits
      rw [bind_of_error walked]
      exact visits
    | ok _ y =>
      rw [walked] at visits
      obtain ⟨reached, built, order, called⟩ := visits
      rw [bind_of_ok walked]
      have wf := reached.wellFormed
      have done := (changes_finish wf).wellFormed wf
      rw [← preOrder_finish wf] at order
      have once := done.preOrder_perm_ids
      rw [← order] at once
      exact ⟨order, once, fun s => done.preOrder_eq, y.2, called, built, rfl⟩
  · rw [calls, build_of_built w.logged built]
    rfl

/-- Makes one report after the other. -/
def reportAll : List (ScopeId × Action π) → Walking σ π Unit
  | [] => pure ()
  | report :: rest => do
    Walking.attempt fun t => t.act report.1 report.2
    reportAll rest

theorem reportAll_reports {reports : List (ScopeId × Action π)} {s : ScopeId} {x : σ × ScopeTree π}
    (h : x.2.Reachable) (hs : s ∈ x.2) (placed : ∀ report ∈ reports, ∀ kind name payload,
      report.2 = .nest kind name payload → report.1 = s ∨ report.1 = ScopeId.root) :
    match (reportAll reports : Walking σ π Unit) x with
    | .ok _ y => ReflTransGen (OuterReport s) x.2 y.2
    | .error _ y => ReflTransGen (OuterReport s) x.2 y.2 := by
  induction reports generalizing x with
  | nil => exact .refl
  | cons report reports ih =>
    obtain ⟨first, others⟩ := List.forall_mem_cons.mp placed
    rw [reportAll]
    cases acted : x.2.act report.1 report.2 with
    | error e =>
      rw [bind_of_error (Walking.attempt_of_error acted)]
    | ok t =>
      have outer : OuterReport s x.2 t := by
        refine ⟨report.1, report.2, acted, fun kind name payload nest => ?_⟩
        rcases first kind name payload nest with here | root
        · exact here ▸ List.mem_cons_self
        · exact root ▸ h.wellFormed.root_mem_path hs
      have grown := outer.growsAt h
      have rest := ih (x := (x.1, t)) grown.reached (grown.changes.grows.mem s hs) others
      rw [bind_of_ok (Walking.attempt_of_ok acted)]
      cases run : (reportAll reports : Walking σ π Unit) (x.1, t) with
      | ok _ y =>
        rw [run] at rest
        exact .head outer rest
      | error e y =>
        rw [run] at rest
        exact .head outer rest

/-- The walker that goes by a list of reports for each scope, on this scope and on others. -/
def ofScript (script : ScopeId → List (ScopeId × Action π)) : Walker σ π := fun s => reportAll (script s)

theorem nestsOutward_ofScript {script : ScopeId → List (ScopeId × Action π)}
    (placed : ∀ s, ∀ report ∈ script s, ∀ kind name payload, report.2 = .nest kind name payload →
      report.1 = s ∨ report.1 = ScopeId.root) (x : σ × ScopeTree π) :
    (ofScript script : Walker σ π).NestsOutward x :=
  fun _ s _ _ _ h hs => reportAll_reports h hs (placed s)

/-- A function in which the call opens another function beside it and then a lambda in it, and the
    call for the lambda opens a third function beside the two. -/
def besideItself : ScopeId → List (ScopeId × Action Unit)
  | 0 => [(0, .nest .function none ())]
  | 1 => [(0, .nest .function none ()), (1, .nest .lambda none ()), (1, .load ⟨1⟩)]
  | 3 => [(0, .nest .function none ()), (3, .load ⟨1⟩)]
  | _ => []

theorem build_calls_in_preOrder_besideItself : ∃ y, (ScopeTree.new ()).Reachable ∧
    (ofScript besideItself : Walker Unit Unit).NestsOutward ((), .new ()) ∧
      (ofScript besideItself : Walker Unit Unit).build ((), .new ()) = .ok () y ∧
      (ofScript besideItself : Walker Unit Unit).calls ((), .new ()) = [0, 1, 3, 2, 4] ∧
      y.2.preOrder ScopeId.root = [0, 1, 3, 2, 4] ∧ [0, 1, 3, 2, 4].Perm y.2.ids := by
  have outward : (ofScript besideItself : Walker Unit Unit).NestsOutward ((), .new ()) := by
    refine nestsOutward_ofScript (fun s => ?_) _
    match s with
    | 0 | 1 | 2 | 3 | _ + 4 => simp [besideItself, ScopeId.root]
  have h := Reachable.new ()
  have order : (ofScript besideItself : Walker Unit Unit).calls ((), .new ()) = [0, 1, 3, 2, 4] := by
    decide +kernel
  have visits := (build_calls_in_preOrder h outward).1 rfl
  rw [order] at visits
  cases run : (ofScript besideItself : Walker Unit Unit).build ((), .new ()) with
  | ok _ y =>
    rw [run] at visits
    exact ⟨y, h, outward, rfl, order, visits.1.symm, visits.2.1⟩
  | error e y =>
    -- the last call, for the third function, makes no report
    rw [run] at visits
    obtain ⟨-, before, last, z, log, -, failed⟩ := visits
    obtain rfl : 4 = last := by simpa using congrArg List.getLast? log
    cases failed

/-- A declaration that is refused in the second function stops the build there, with the
    third never called for. -/
example :
    (ofScript fun s => if s = 2 then [(2, .declareNonlocal ⟨9⟩)] else besideItself s :
      Walker Unit Unit).calls ((), .new ()) = [0, 1, 3, 2] := by decide +kernel

end Walker

end Scoping
