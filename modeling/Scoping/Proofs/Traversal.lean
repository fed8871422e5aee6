import Scoping.Proofs.Growth
import Scoping.Proofs.Nearest

/-! Walks of the outer before the inner. A walker that reports on each scope from the scope's own code
    alone finds a scope blank when it comes to it: no name is in it, and nothing is nested in it. By the
    time that a scope captures a name the scopes around it have had their say, so the target recorded
    then is the nearest binder for good. The invariant of the walk is about the list of the scopes
    that are still ahead: they are distinct and blank, and all that is captured so far is captured from
    the nearest binder. -/

namespace Scoping

open Relation

namespace ScopeTree

variable {π : Type} {t u : ScopeTree π} {s a target : ScopeId} {n : Ident} {rest : List ScopeId}

/-! ### Reports on the scope at hand -/

/-- A report on a scope that does not bind anything further out: no assignment expression
    in a comprehension. -/
def OwnReport (s : ScopeId) (t u : ScopeTree π) : Prop :=
  ∃ a, t.act s a = .ok u ∧ ∀ n, a = .assignExpr n → t.kind? s ≠ some .comprehension

/-- An elementary change that such a report makes. Outside the scope it binds names in the
    global scope. -/
inductive OwnChange (s : ScopeId) (t : ScopeTree π) : ScopeTree π → Prop
  | entry {n : Ident} {e : Entry} (recorded : e ≠ .global false)
      (found : ∀ target, e = .captured target → t.capture? s n = some target) :
      OwnChange s t (t.setEntry s n e)
  | bindRoot (n : Ident) : OwnChange s t (t.setEntry ScopeId.root n .bound)
  | push {kind : ScopeKind} (fit : fits kind s) (name : Option Ident) (payload : π) :
      OwnChange s t (t.push s kind name payload)
  | mark (on : Bool) : OwnChange s t (t.setInIterable s on)

theorem ownChanges_load (t : ScopeTree π) (s : ScopeId) (n : Ident) :
    ReflTransGen (OwnChange s) t (t.load s n) := by
  rw [load]
  split
  · exact .single (.entry (by rintro ⟨⟩) (by rintro _ ⟨⟩))
  · exact .refl

theorem ownChanges_store (here : a = s ∨ a = ScopeId.root) (n : Ident) :
    ReflTransGen (OwnChange s) t (t.store a n) := by
  have bind : OwnChange s t (t.setEntry a n .bound) := by
    rcases here with rfl | rfl
    · exact .entry (by rintro ⟨⟩) (by rintro _ ⟨⟩)
    · exact .bindRoot n
  rw [store]
  split
  iterate 2 exact .single bind
  · exact .single (.bindRoot n)
  iterate 2 exact .refl

/-- Outside comprehensions an assignment expression binds its name where it stands. -/
theorem expressionTarget_of_not_comprehension (outside : t.kind? s ≠ some .comprehension)
    (found : t.expressionTarget n s (t.enclosing s) = .ok target) : target = s := by
  obtain ⟨inner, outer, way, comprehensions⟩ := expressionTarget_eq_ok found
  cases inner with
  | nil => exact (List.cons.inj way).1.symm
  | cons b inner =>
    obtain ⟨rfl, -⟩ := List.cons.inj way
    exact absurd (comprehensions _ List.mem_cons_self).1 outside

theorem OwnReport.changes (hs : s ∈ t) (report : OwnReport s t u) : ReflTransGen (OwnChange s) t u := by
  obtain ⟨a, acted, plain⟩ := report
  cases a with
  | load n =>
    cases acted
    exact ownChanges_load t s n
  | store n =>
    cases acted
    exact ownChanges_store (.inl rfl) n
  | assignExpr n =>
    obtain ⟨target, found, cases⟩ := assignExpr_eq_ok acted
    have here := expressionTarget_of_not_comprehension (plain n rfl) found
    rcases cases with ⟨-, rfl⟩ | ⟨away, -⟩ | ⟨away, -⟩
    · exact ownChanges_store (.inl rfl) n
    iterate 2 exact absurd here away
  | declareNonlocal n =>
    rcases declareNonlocal_eq_ok acted with rfl | ⟨target, -, found, rfl⟩
    · exact .refl
    · exact .single (.entry (by rintro ⟨⟩) (by rintro _ ⟨⟩; exact found))
  | declareGlobal n =>
    rcases declareGlobal_eq_ok hs acted with ⟨-, rfl⟩ | ⟨-, -, rfl⟩
    · exact ownChanges_store (.inl rfl) n
    · exact (ownChanges_store (.inr rfl) n).tail (.entry (by rintro ⟨⟩) (by rintro _ ⟨⟩))
  | nest kind name payload =>
    obtain ⟨fit, -, rfl⟩ := nest_eq_ok acted
    have own : ReflTransGen (OwnChange s) t (t.bindOwnName s kind name) := by
      rcases t.bindOwnName_cases s kind name with eq | ⟨n, eq⟩ <;> rw [eq]
      exact ownChanges_store (.inl rfl) n
    exact own.tail (.push fit name payload)
  | setInIterable on =>
    cases acted
    exact .single (.mark on)

/-! ### Scopes ahead -/

/-- The state of a walk between two scopes: the scopes that are still ahead are blank. -/
structure Ahead (t : ScopeTree π) (pend : List ScopeId) : Prop where
  wellFormed : t.WellFormed
  distinct : pend.Nodup
  mem : ∀ c ∈ pend, c ∈ t
  inner : ∀ c ∈ pend, c ≠ ScopeId.root
  blank : ∀ c ∈ pend, ∀ n, t.entryAt? c n = none
  leaf : ∀ c ∈ pend, t.nested c = []
  straight : t.Straight
  recorded : ∀ a n, t.entryAt? a n ≠ some (.global false)

/-- The state of a walk in a scope: the scopes that this one has come to hold are ahead,
    before all others. -/
structure AtHand (t : ScopeTree π) (s : ScopeId) (rest : List ScopeId) : Prop where
  mem : s ∈ t
  apart : s ∉ rest
  ahead : Ahead t (t.nested s ++ rest)

theorem Ahead.sublist {pend pend' : List ScopeId} (k : Ahead t pend) (sub : pend'.Sublist pend) :
    Ahead t pend' where
  wellFormed := k.wellFormed
  distinct := k.distinct.sublist sub
  mem c hc := k.mem c (sub.subset hc)
  inner c hc := k.inner c (sub.subset hc)
  blank c hc := k.blank c (sub.subset hc)
  leaf c hc := k.leaf c (sub.subset hc)
  straight := k.straight
  recorded := k.recorded

/-- The walk comes to the next scope. -/
theorem Ahead.enter (k : Ahead t (s :: rest)) : AtHand t s rest where
  mem := k.mem s List.mem_cons_self
  apart := (List.nodup_cons.mp k.distinct).1
  ahead := by
    rw [k.leaf s List.mem_cons_self]
    exact k.sublist (List.sublist_cons_self s rest)

namespace AtHand

theorem not_mem (k : AtHand t s rest) : s ∉ t.nested s ++ rest := by
  rw [List.mem_append, k.ahead.wellFormed.mem_nested]
  rintro (loop | hs)
  · exact Nat.lt_irrefl s (k.ahead.wellFormed.enclosing_of_parent? loop).2.1
  · exact k.apart hs

/-- No name is in any scope below the scope at hand. -/
theorem blank_below (k : AtHand t s rest) (below : s ∈ t.enclosing a) (n : Ident) :
    t.entryAt? a n = none := by
  have h := k.ahead.wellFormed
  obtain ⟨c, hc, hp⟩ := h.exists_child below
  have pending : c ∈ t.nested s ++ rest := List.mem_append_left rest (h.mem_nested.mpr hp)
  -- what is nested in the scope at hand is still ahead, so nothing is nested any deeper
  rcases List.mem_cons.mp hc with rfl | hc
  · exact k.ahead.blank c pending n
  · obtain ⟨d, -, hd⟩ := h.exists_child hc
    have deeper := h.mem_nested.mpr hd
    rw [k.ahead.leaf c pending] at deeper
    cases deeper

/-- The scope at hand is not around a scope that has anything to say of a name. -/
theorem not_around (k : AtHand t s rest) {e : Entry} (entry : t.entryAt? a n = some e) :
    s ∉ t.closedAround a := by
  intro around
  rw [k.blank_below (List.mem_filter.mp around).1] at entry
  cases entry

/-- The scopes stay as they are and where they are. -/
theorem congr (k : AtHand t s rest) (size : u.size = t.size) (kind? : ∀ a, u.kind? a = t.kind? a)
    (enclosing : ∀ a, u.enclosing a = t.enclosing a) (nested : ∀ a, u.nested a = t.nested a)
    (entry : ∀ c ∈ t.nested s ++ rest, ∀ n, u.entryAt? c n = t.entryAt? c n) (straight : u.Straight)
    (recorded : ∀ a n, u.entryAt? a n ≠ some (.global false)) : AtHand u s rest where
  mem := (mem_congr size s).mpr k.mem
  apart := k.apart
  ahead := by
    rw [nested]
    exact {
      wellFormed := k.ahead.wellFormed.congr size kind? enclosing nested
      distinct := k.ahead.distinct
      mem := fun c hc => (mem_congr size c).mpr (k.ahead.mem c hc)
      inner := k.ahead.inner
      blank := fun c hc n => (entry c hc n).trans (k.ahead.blank c hc n)
      leaf := fun c hc => (nested c).trans (k.ahead.leaf c hc)
      straight := straight
      recorded := recorded }

/-- An entry in a scope that is neither ahead nor around a scope with entries. -/
theorem setEntry (k : AtHand t s rest) (ha : a ∈ t) (passed : a ∉ t.nested s ++ rest) {e : Entry}
    (visible : ∀ b m f, t.entryAt? b m = some f → a ∉ t.closedAround b) (recorded : e ≠ .global false)
    (found : ∀ target, e = .captured target → t.capture? a n = some target) :
    AtHand (t.setEntry a n e) s rest := by
  have h := k.ahead.wellFormed
  have same := sameScopes_setEntry t a n e
  have entries {b : ScopeId} (away : a ≠ b) (m : Ident) :
      (t.setEntry a n e).entryAt? b m = t.entryAt? b m := by
    rw [entryAt?_setEntry t ha, if_neg fun here => away here.1]
  refine k.congr same.size same.kind? same.enclosing same.nested (fun c hc m => ?_) ?_ (fun b m => ?_)
  · exact entries (fun here => passed (here ▸ hc)) m
  · intro b m target captured
    have nearest : t.Nearest m target (t.closedAround b) ∧ a ∉ t.closedAround b := by
      rw [entryAt?_setEntry t ha] at captured
      split_ifs at captured with here
      · obtain ⟨rfl, rfl⟩ := here
        refine ⟨k.ahead.straight.capture? h (found target (Option.some.inj captured)), fun around => ?_⟩
        exact Nat.lt_irrefl a (h.lt_of_mem_enclosing (List.mem_filter.mp around).1)
      · exact ⟨k.ahead.straight b m target captured, visible b m _ captured⟩
    rw [same.closedAround]
    exact nearest.1.congr fun c hc => entries (fun here => nearest.2 (here ▸ hc)) m
  · rw [entryAt?_setEntry t ha]
    split_ifs
    · exact fun here => recorded (Option.some.inj here)
    · exact k.ahead.recorded b m

theorem push (k : AtHand t s rest) {kind : ScopeKind} (fit : fits kind s) (name : Option Ident)
    (payload : π) : AtHand (t.push s kind name payload) s rest := by
  have h := k.ahead.wellFormed
  have new : ¬t.size ∈ t := Nat.lt_irrefl t.size
  have old {c : ScopeId} (hc : c ∈ t) : c ≠ t.size := Nat.ne_of_lt hc
  have entries := entryAt?_push t kind name payload k.mem
  have nested := nested_push t kind name payload k.mem
  have here : (t.push s kind name payload).nested s ++ rest = t.nested s ++ t.size :: rest := by
    rw [nested, if_neg (old k.mem), if_pos rfl, List.append_assoc]
    rfl
  have pending : ∀ c ∈ t.nested s ++ t.size :: rest, c = t.size ∨ c ∈ t.nested s ++ rest := by
    intro c hc
    simpa [or_left_comm] using hc
  have grows : Grows t (t.push s kind name payload) := Change.grows (.push k.mem fit name payload)
  refine ⟨grows.mem s k.mem, k.apart, ?_⟩
  rw [here]
  refine ⟨h.push k.mem fit name payload, ?_, fun c hc => ?_, fun c hc => ?_, fun c hc n => ?_,
    fun c hc => ?_, fun b m target captured => ?_, fun b m => entries b m ▸ k.ahead.recorded b m⟩
  · have fresh : t.size ∉ t.nested s ++ rest := fun hc => new (k.ahead.mem _ hc)
    exact List.perm_middle.nodup_iff.mpr (List.nodup_cons.mpr ⟨fresh, k.ahead.distinct⟩)
  · rw [mem_push]
    exact (pending c hc).symm.imp_left (k.ahead.mem c)
  · rcases pending c hc with rfl | hc
    · exact Ne.symm (old h.root_mem)
    · exact k.ahead.inner c hc
  · rw [entries]
    rcases pending c hc with rfl | hc
    · exact entryAt?_of_not_mem new n
    · exact k.ahead.blank c hc n
  · rw [nested]
    rcases pending c hc with rfl | hc
    · exact if_pos rfl
    · rw [if_neg (old (k.ahead.mem c hc)), if_neg fun (same : c = s) => k.not_mem (same ▸ hc)]
      exact k.ahead.leaf c hc
  · rw [entries] at captured
    rw [grows.closedAround h (mem_of_entryAt? captured)]
    exact (k.ahead.straight b m target captured).congr fun c _ => entries c m

theorem change (k : AtHand t s rest) (change : OwnChange s t u) : AtHand u s rest := by
  have h := k.ahead.wellFormed
  cases change with
  | entry recorded found =>
    exact k.setEntry k.mem k.not_mem (fun _ _ _ entry => k.not_around entry) recorded found
  | bindRoot n =>
    exact k.setEntry h.root_mem (fun ahead => k.ahead.inner _ ahead rfl)
      (fun b _ _ _ => h.root_not_mem_closedAround b) (by rintro ⟨⟩) (by rintro _ ⟨⟩)
  | push fit name payload => exact k.push fit name payload
  | mark on =>
    have entries := entryAt?_setInIterable t s on
    have closedAround (b : ScopeId) : (t.setInIterable s on).closedAround b = t.closedAround b := by
      have closed : (t.setInIterable s on).isClosed = t.isClosed :=
        funext fun c => by rw [isClosed, isClosed, kind?_setInIterable]
      rw [ScopeTree.closedAround, ScopeTree.closedAround, closed, enclosing_setInIterable]
    refine k.congr (size_setInIterable ..) (kind?_setInIterable t s on) (enclosing_setInIterable t s on)
      (nested_setInIterable t s on) (fun c _ => entries c) (fun b m target captured => ?_)
      fun b m => entries b m ▸ k.ahead.recorded b m
    rw [entries] at captured
    rw [closedAround]
    exact (k.ahead.straight b m target captured).congr fun c _ => entries c m

end AtHand

/-! ### Lists of nested scopes -/

/-- Lists of nested scopes that have been begun stay as they are, except in one scope. -/
def KeepsLists (s : ScopeId) (t u : ScopeTree π) : Prop :=
  ∀ a, a ≠ s → t.nested a ≠ [] → u.nested a = t.nested a

theorem KeepsLists.trans {v : ScopeTree π} (k : KeepsLists s t u) (l : KeepsLists s u v) :
    KeepsLists s t v := by
  intro a away begun
  rw [l a away (by rwa [k a away begun]), k a away begun]

theorem OwnChange.keepsLists (hs : s ∈ t) (change : OwnChange s t u) : KeepsLists s t u := by
  intro a away begun
  cases change with
  | entry => exact nested_setEntry ..
  | bindRoot n => exact nested_setEntry ..
  | push fit name payload =>
    have old : a ≠ t.size := by
      rintro rfl
      exact begun (nested_of_not_mem (Nat.lt_irrefl t.size))
    rw [nested_push t _ name payload hs, if_neg old, if_neg away]
  | mark on => exact nested_setInIterable ..

theorem AtHand.changes (k : AtHand t s rest) (changes : ReflTransGen (OwnChange s) t u) :
    AtHand u s rest ∧ KeepsLists s t u := by
  induction changes with
  | refl => exact ⟨k, fun _ _ _ => rfl⟩
  | tail _ last ih => exact ⟨ih.1.change last, ih.2.trans (last.keepsLists ih.1.mem)⟩

/-- The reports on the scope at hand, one after the other. -/
theorem AtHand.reports (k : AtHand t s rest) (h : t.Reachable)
    (reports : ReflTransGen (OwnReport s) t u) : u.Reachable ∧ AtHand u s rest ∧ KeepsLists s t u := by
  induction reports with
  | refl => exact ⟨h, k, fun _ _ _ => rfl⟩
  | tail _ last ih =>
    obtain ⟨reachable, here, kept⟩ := ih
    obtain ⟨next, kept'⟩ := here.changes (last.changes here.mem)
    obtain ⟨a, acted, -⟩ := last
    exact ⟨reachable.act acted, next, kept.trans kept'⟩

end ScopeTree

/-! ### The walk -/

namespace Walker

open ScopeTree

variable {σ π : Type} {w : Walker σ π} {x y : σ × ScopeTree π} {s : ScopeId} {rest : List ScopeId}

/-- A walker that reports on each scope what a scope's own code can. -/
def ReportsOwn (w : Walker σ π) : Prop :=
  ∀ s x y, x.2.Reachable → s ∈ x.2 → w s x = .ok () y → ReflTransGen (OwnReport s) x.2 y.2

theorem ReportsOwn.atHand (hw : w.ReportsOwn) (h : x.2.Reachable) (k : AtHand x.2 s rest)
    (walked : w s x = .ok () y) : y.2.Reachable ∧ AtHand y.2 s rest ∧ KeepsLists s x.2 y.2 :=
  k.reports h (hw s x y h k.mem walked)

/-- The scopes nested in a scope, from the given one on, are the next ahead; once they are walked with
    all that has come to be nested in them, the rest is ahead. -/
theorem ReportsOwn.walkNested (hw : w.ReportsOwn) :
    ∀ (fuel : Nat) {s : ScopeId} {i : Nat} {rest : List ScopeId}
    {x y : σ × ScopeTree π}, x.2.Reachable → Ahead x.2 ((x.2.nested s).drop i ++ rest) →
    w.walkNested fuel s i x = .ok () y →
    y.2.Reachable ∧ Ahead y.2 rest ∧ ∀ a, x.2.nested a ≠ [] → y.2.nested a = x.2.nested a
  | 0, s, i, rest, x, y, h, k, walked => by
    cases walked
    exact ⟨h, k.sublist (List.sublist_append_right ..), fun _ _ => rfl⟩
  | fuel + 1, s, i, rest, x, y, h, k, walked => by
    obtain ⟨_, _, seen, walked⟩ := bind_eq_ok walked
    cases seen
    cases found : (x.2.nested s)[i]? with
    | none =>
      rw [found] at walked
      cases walked
      exact ⟨h, k.sublist (List.sublist_append_right ..), fun _ _ => rfl⟩
    | some child =>
      rw [found] at walked
      obtain ⟨lt, rfl⟩ := List.getElem?_eq_some_iff.mp found
      obtain ⟨_, x₁, first, walked⟩ := bind_eq_ok walked
      obtain ⟨_, x₂, below, walked⟩ := bind_eq_ok walked
      -- the list of this scope has been begun, so the walk below the child leaves it as it is
      have begun : x.2.nested s ≠ [] := List.ne_nil_of_length_pos (Nat.zero_lt_of_lt lt)
      rw [List.drop_eq_getElem_cons lt, List.cons_append] at k
      have leaf := k.leaf _ List.mem_cons_self
      -- the scope itself, then what it has come to hold, then the scopes after it
      obtain ⟨h₁, k₁, kept₁⟩ := hw.atHand h k.enter first
      obtain ⟨h₂, k₂, kept₂⟩ := hw.walkNested fuel (i := 0) h₁ k₁.ahead below
      have kept : ∀ a, x.2.nested a ≠ [] → x₂.2.nested a = x.2.nested a := by
        intro a begun
        have same := kept₁ a (fun here => begun (here ▸ leaf)) begun
        rw [kept₂ a (by rwa [same]), same]
      rw [← kept s begun] at k₂
      obtain ⟨h₃, k₃, kept₃⟩ := hw.walkNested fuel h₂ k₂ walked
      refine ⟨h₃, k₃, fun a begun => ?_⟩
      rw [kept₃ a (by rwa [kept a begun]), kept a begun]

/-- A new tree is ready for the walk. -/
theorem atHand_new (payload : π) : AtHand (ScopeTree.new payload) ScopeId.root [] where
  mem := Nat.zero_lt_one
  apart := List.not_mem_nil
  ahead := {
    wellFormed := .new payload
    distinct := List.nodup_nil
    mem := fun _ hc => absurd hc List.not_mem_nil
    inner := fun _ hc => absurd hc List.not_mem_nil
    blank := fun _ hc => absurd hc List.not_mem_nil
    leaf := fun _ hc => absurd hc List.not_mem_nil
    straight := straight_new payload
    recorded := fun a n => by cases a <;> rintro ⟨⟩ }

/-- A build on a new tree settles a straight tree. -/
theorem ReportsOwn.build (hw : w.ReportsOwn) {σ₀ : σ} {payload : π}
    (built : w.build (σ₀, .new payload) = .ok () y) :
    ∃ t, Ahead t [] ∧ y.2 = t.finish := by
  obtain ⟨_, _, seen, built⟩ := bind_eq_ok built
  cases seen
  obtain ⟨_, x₂, walked, built⟩ := bind_eq_ok built
  cases built
  obtain ⟨_, x₁, first, walked⟩ := bind_eq_ok walked
  obtain ⟨h₁, k₁, -⟩ := hw.atHand (Reachable.new payload) (atHand_new payload) first
  obtain ⟨-, k₂, -⟩ := hw.walkNested _ (i := 0) h₁ k₁.ahead walked
  exact ⟨x₂.2, k₂, rfl⟩

/-- A walker that reports on each scope alone has names captured from the nearest scope that
    binds them, and a name is global by default only if no closed scope around speaks for it. -/
theorem captures_nearest_binder (hw : w.ReportsOwn) {σ₀ : σ} {payload : π} {u : ScopeTree π} {σ₁ : σ}
    (built : w.build (σ₀, .new payload) = .ok () (σ₁, u)) (s : ScopeId) (n : Ident) :
    (∀ target, u.entryAt? s n = some (.captured target) → ∃ before after,
      u.closedAround s = before ++ target :: after ∧ u.entryAt? target n = some .bound ∧
        ∀ a ∈ before, u.entryAt? a n = none ∨ u.entryAt? a n = some (.captured target)) ∧
    (s ≠ ScopeId.root → u.entryAt? s n = some (.global false) →
      ∀ a, (u.closedAround s).find? (u.speaksFor n) = some a →
      u.entryAt? a n = some (.global true)) := by
  obtain ⟨t, k, rfl⟩ := hw.build built
  have settled := k.wellFormed.settled
  refine ⟨fun target captured => ?_, fun inner global a first => ?_⟩
  · have nearest : t.finish.Nearest n target (t.finish.closedAround s) :=
      (k.straight.settled k.wellFormed settled s n target captured).congr fun _ _ => rfl
    obtain ⟨before, after, way, between⟩ := nearest.split
    refine ⟨before, after, way, nearest.bound, fun a ha => ?_⟩
    exact (between a ha).imp_left fun free => free.resolve_right (settled.complete a n)
  · have falls := settled.fallsThrough inner (k.recorded s n) global
    have around : t.finish.closedAround s = t.closedAround s := settled.same.closedAround s
    rw [around] at first
    exact find?_speaksFor settled k.wellFormed (k.recorded · n) _ rfl falls.2 first

/-- The walker that goes by a list of reports for each scope. -/
def ofReports (reports : ScopeId → List (Action π)) : Walker σ π := fun s =>
  (reports s).forM fun a => Walking.attempt fun t => t.act s a

theorem reportsOwn_ofReports {reports : ScopeId → List (Action π)}
    (plain : ∀ s n, Action.assignExpr n ∉ reports s) : (ofReports reports : Walker σ π).ReportsOwn := by
  intro s x y _ _ walked
  have own : ∀ (actions : List (Action π)) (x : σ × ScopeTree π), (∀ n, Action.assignExpr n ∉ actions) →
      (actions.forM fun a => (Walking.attempt fun t => t.act s a : Walking σ π Unit)) x = .ok () y →
      ReflTransGen (OwnReport s) x.2 y.2 := by
    intro actions
    induction actions with
    | nil =>
      rintro x - ⟨⟩
      exact .refl
    | cons a actions ih =>
      intro x plain walked
      obtain ⟨_, z, first, walked⟩ := bind_eq_ok walked
      dsimp only [Walking.attempt] at first
      cases acted : x.2.act s a with
      | error e =>
        rw [acted] at first
        cases first
      | ok t =>
        rw [acted] at first
        cases first
        have rest := ih _ (fun n hn => plain n (List.mem_cons_of_mem a hn)) walked
        exact .head ⟨a, acted, fun n here => absurd (here ▸ List.mem_cons_self) (plain n)⟩ rest
  exact own _ x (plain s) walked

/-- Three functions, one in another. The innermost declares nonlocal a name that the outermost
    binds, and uses one that the outermost declares global. -/
def threeFunctions : ScopeId → List (Action Unit)
  | 0 => [.nest .function none ()]
  | 1 => [.store ⟨1⟩, .declareGlobal ⟨2⟩, .nest .function none ()]
  | 2 => [.nest .function none ()]
  | 3 => [.declareNonlocal ⟨1⟩, .load ⟨2⟩]
  | _ => []

theorem captures_nearest_binder_threeFunctions : ∃ u : ScopeTree Unit,
    (ofReports threeFunctions : Walker Unit Unit).build ((), .new ()) = .ok () ((), u) ∧
      u.entryAt? 3 ⟨1⟩ = some (.captured 1) ∧
      (∃ before after, u.closedAround 3 = before ++ 1 :: after ∧ u.entryAt? 1 ⟨1⟩ = some .bound ∧
        ∀ a ∈ before, u.entryAt? a ⟨1⟩ = none ∨ u.entryAt? a ⟨1⟩ = some (.captured 1)) ∧
      u.entryAt? 3 ⟨2⟩ = some (.global false) ∧ (u.closedAround 3).find? (u.speaksFor ⟨2⟩) = some 1 ∧
      u.entryAt? 1 ⟨2⟩ = some (.global true) := by
  have plain : ∀ s n, Action.assignExpr n ∉ threeFunctions s := by
    intro s n
    match s with
    | 0 | 1 | 2 | 3 | _ + 4 => simp [threeFunctions]
  obtain ⟨u, built⟩ :
      ∃ u, (ofReports threeFunctions : Walker Unit Unit).build ((), .new ()) = .ok () ((), u) :=
    ⟨_, rfl⟩
  have nearest := captures_nearest_binder (reportsOwn_ofReports plain) built 3
  have captured : u.entryAt? 3 ⟨1⟩ = some (.captured 1) := by
    cases built
    decide
  have global : u.entryAt? 3 ⟨2⟩ = some (.global false) ∧
      (u.closedAround 3).find? (u.speaksFor ⟨2⟩) = some 1 := by
    cases built
    decide
  exact ⟨u, built, captured, (nearest ⟨1⟩).1 1 captured, global.1, global.2,
    (nearest ⟨2⟩).2 (by decide) global.1 1 global.2⟩

end Walker

end Scoping
