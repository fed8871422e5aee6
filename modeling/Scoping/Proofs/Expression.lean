import Scoping.Proofs.Home

/-! Assignment expressions in the analysis. An expression in a comprehension binds its name where the
    outermost comprehension around it stands. When the expression is reported, the analysis binds the
    name there, and in its own scope it notes no more than is needed for every later search from there
    to end at the same home. It does so as long as no comprehension on the way is given an entry for
    the name by any other kind of report. The argument follows a list of reports: the comprehensions on
    the way stay clear throughout, and what the expression leaves at its target is never taken back. -/

namespace Scoping

/-- Whether a report gives a name an entry in the scope that it is about, other than by a mere use. -/
def Action.fixes {π : Type} (n : Ident) : Action π → Bool
  | .store m | .declareNonlocal m | .declareGlobal m => m = n
  | .nest kind (some m) _ => kind.bindsName && m = n
  | .nest _ none _ | .load _ | .assignExpr _ | .setInIterable _ => false

namespace ScopeTree

variable {π : Type} {t u x : ScopeTree π} {s a c target : ScopeId} {inner outer : List ScopeId}
  {n : Ident}

/-! ### Accepted reports -/

/-- The reports of a list that are accepted. -/
def accepted (t : ScopeTree π) : List (ScopeId × Action π) → List (ScopeId × Action π)
  | [] => []
  | report :: reports =>
    match t.perform report.1 report.2 with
    | .ok u => report :: u.accepted reports
    | .error _ => t.accepted reports

section cons

variable {report : ScopeId × Action π} (reports : List (ScopeId × Action π))

theorem accepted_cons_of_ok (performed : t.perform report.1 report.2 = .ok u) :
    t.accepted (report :: reports) = report :: u.accepted reports := by
  rw [accepted, performed]

theorem accepted_cons_of_error {e : Refusal} (refused : t.perform report.1 report.2 = .error e) :
    t.accepted (report :: reports) = t.accepted reports := by
  rw [accepted, refused]

end cons

/-- A report that is accepted comes after some reports and before the others. -/
theorem exists_of_mem_accepted {report : ScopeId × Action π} : ∀ {reports : List (ScopeId × Action π)}
    {t : ScopeTree π}, report ∈ t.accepted reports → ∃ before after u,
      (t.recordAll before).perform report.1 report.2 = .ok u ∧
      t.recordAll reports = u.recordAll after ∧ t.accepted before ⊆ t.accepted reports
  | [], _, mem => absurd mem List.not_mem_nil
  | first :: reports, t, mem => by
    cases performed : t.perform first.1 first.2 with
    | error e =>
      rw [accepted_cons_of_error reports performed] at mem ⊢
      rw [recordAll_cons_of_error reports performed]
      exact exists_of_mem_accepted mem
    | ok v =>
      rw [accepted_cons_of_ok reports performed] at mem ⊢
      rw [recordAll_cons_of_ok reports performed]
      rcases List.mem_cons.mp mem with rfl | mem
      · exact ⟨[], reports, v, performed, rfl, List.nil_subset _⟩
      · obtain ⟨before, after, u, accepted, eq, subset⟩ := exists_of_mem_accepted mem
        refine ⟨first :: before, after, u, ?_, eq, ?_⟩
        · rwa [recordAll_cons_of_ok before performed]
        · rw [accepted_cons_of_ok before performed]
          exact List.cons_subset_cons first subset

/-! ### The way out of the comprehensions -/

/-- The way from a scope through comprehensions to the first scope that is none. -/
structure Outward (t : ScopeTree π) (s target : ScopeId) (inner outer : List ScopeId) : Prop where
  way : t.path s = inner ++ target :: outer
  inside : ∀ c ∈ inner, t.kind? c = some .comprehension
  stop : t.kind? target ≠ some .comprehension

namespace Outward

theorem find? (o : t.Outward s target inner outer) :
    (t.path s).find? (fun a => t.kind? a ≠ some .comprehension) = some target := by
  refine List.find?_eq_some_iff_append.mpr ⟨decide_eq_true o.stop, inner, outer, o.way, fun c hc => ?_⟩
  simp [o.inside c hc]

theorem unique {target' : ScopeId} {inner' outer' : List ScopeId} (o : t.Outward s target inner outer)
    (o' : t.Outward s target' inner' outer') : target' = target :=
  Option.some.inj (o'.find?.symm.trans o.find?)

/-- The comprehensions on the way lead out to the same scope. -/
theorem of_mem (h : t.WellFormed) (o : t.Outward s target inner outer) (hc : c ∈ inner) :
    ∃ rest, t.Outward c target (c :: rest) outer := by
  obtain ⟨before, rest, rfl⟩ := List.append_of_mem hc
  have way := o.way
  rw [List.append_assoc, List.cons_append] at way
  refine ⟨rest, ?_, fun b hb => o.inside b (List.mem_append_right before hb), o.stop⟩
  rw [path, h.path_split way]
  rfl

theorem target_mem (h : t.WellFormed) (hs : s ∈ t) (o : t.Outward s target inner outer) : target ∈ t :=
  h.mem_around hs (o.way ▸ List.mem_append_right _ List.mem_cons_self)

theorem enclosing_target (h : t.WellFormed) (o : t.Outward s target inner outer) :
    t.enclosing target = outer :=
  h.path_split o.way

theorem ne_root (h : t.WellFormed) (o : t.Outward s target inner outer) (hc : c ∈ inner) :
    c ≠ ScopeId.root := by
  rintro rfl
  have inside := o.inside _ hc
  rw [h.kind_root] at inside
  cases inside

end Outward

/-- The way out stays the same while a tree grows. -/
theorem Grows.outward_iff (g : Grows t u) (h : t.WellFormed) (hs : s ∈ t) :
    u.Outward s target inner outer ↔ t.Outward s target inner outer := by
  have kinds (way : t.path s = inner ++ target :: outer) : (∀ c ∈ inner, u.kind? c = t.kind? c) ∧
      u.kind? target = t.kind? target := by
    have mem : ∀ b ∈ inner ++ target :: outer, b ∈ t := fun b hb => h.mem_around hs (way ▸ hb)
    exact ⟨fun c hc => g.kind? c (mem c (List.mem_append_left _ hc)),
      g.kind? target (mem target (List.mem_append_right _ List.mem_cons_self))⟩
  constructor
  · rintro ⟨way, inside, stop⟩
    rw [g.path hs] at way
    obtain ⟨same, last⟩ := kinds way
    exact ⟨way, fun c hc => (same c hc).symm.trans (inside c hc), last ▸ stop⟩
  · rintro ⟨way, inside, stop⟩
    obtain ⟨same, last⟩ := kinds way
    exact ⟨(g.path hs).trans way, fun c hc => (same c hc).trans (inside c hc), last ▸ stop⟩

/-- The target of an assignment expression is neither a comprehension nor a class. -/
theorem WellFormed.expressionTarget_kind (h : t.WellFormed) (hs : s ∈ t)
    (found : t.expressionTarget n s (t.enclosing s) = .ok target) :
    t.kind? target ≠ some .comprehension ∧ t.kind? target ≠ some .classBody := by
  induction s using Nat.strongRecOn with
  | ind s ih =>
    by_cases root : s = ScopeId.root
    · rw [root, h.enclosing_root, expressionTarget] at found
      split_ifs at found
      cases found
      rw [h.kind_root]
      exact ⟨by decide, by decide⟩
    · obtain ⟨p, lt, around⟩ := h.below s hs root
      rw [around, path, expressionTarget] at found
      split_ifs at found with _ comprehension _ body
      · exact ih p lt (Nat.lt_trans lt hs) found
      · cases found
        exact ⟨comprehension, body⟩

theorem WellFormed.outward_of_expressionTarget (h : t.WellFormed) (hs : s ∈ t)
    (found : t.expressionTarget n s (t.enclosing s) = .ok target) :
    ∃ inner outer, t.Outward s target inner outer := by
  obtain ⟨inner, outer, way, comprehensions⟩ := expressionTarget_eq_ok found
  exact ⟨inner, outer, way, fun c hc => (comprehensions c hc).1, (h.expressionTarget_kind hs found).1⟩

/-! ### Comprehensions that stay open -/

theorem Undecided.congr (free : t.Undecided s n) (same : u.entryAt? s n = t.entryAt? s n) :
    u.Undecided s n := by
  rwa [Undecided, same]

theorem Undecided.load (free : t.Undecided c n) (ha : a ∈ t) (m : Ident) :
    (t.load a m).Undecided c n := by
  by_cases here : a = c ∧ m = n
  · obtain ⟨rfl, rfl⟩ := here
    right
    rw [entryAt?_load t ha, if_pos ⟨rfl, rfl⟩]
    rcases free with free | free <;> rw [free] <;> rfl
  · exact free.congr (by rw [entryAt?_load t ha, if_neg here])

theorem Undecided.setEntry (free : t.Undecided c n) (ha : a ∈ t) {m : Ident} (other : m ≠ n ∨ c ≠ a)
    (e : Entry) : (t.setEntry a m e).Undecided c n := by
  refine free.congr ?_
  rw [entryAt?_setEntry t ha, if_neg fun here => other.elim (· here.2) (· here.1.symm)]

theorem Undecided.store (free : t.Undecided c n) (hr : ScopeId.root ∈ t) (ha : a ∈ t)
    (below : c ≠ ScopeId.root) {m : Ident} (other : m ≠ n ∨ c ≠ a) : (t.store a m).Undecided c n :=
  free.congr (entryAt?_store_other ha hr (other.imp_right fun ne => ⟨ne, below⟩))

theorem noteToplevel_of_undecided (free : t.Undecided s n) :
    t.noteToplevel s target n = t.setEntry s n (.captured target) := by
  rcases free with free | free <;> simp only [noteToplevel, free]

/-- An assignment expression leaves a name open in a comprehension, unless it stands in there and
    binds the name in toplevel code. -/
theorem Undecided.assignExpr (free : t.Undecided c n) (h : t.WellFormed) (ha : a ∈ t) {m : Ident}
    (acted : t.assignExpr a m = .ok u) (below : c ≠ ScopeId.root)
    (inside : c ∈ t → t.kind? c = some .comprehension) : u.Undecided c n ∨
      c = a ∧ ∃ target, t.expressionTarget n c (t.enclosing c) = .ok target ∧
        t.kind? target = some .toplevel ∧ u.entryAt? c n = some (.captured target) := by
  obtain ⟨target, found, cases⟩ := assignExpr_eq_ok acted
  obtain ⟨_, _, o⟩ := h.outward_of_expressionTarget ha found
  have ht := o.target_mem h ha
  have other : c ≠ target := by
    rintro rfl
    exact o.stop (inside ht)
  have bound : (t.store target m).Undecided c n := free.store h.root_mem ht below (.inr other)
  have same := sameScopes_store t target m
  have ha' : a ∈ t.store target m := (mem_congr same.size a).mpr ha
  rcases cases with ⟨rfl, rfl⟩ | ⟨-, top, -, rfl⟩ | ⟨-, -, rfl⟩
  · exact .inl bound
  · by_cases here : m = n ∧ c = a
    · obtain ⟨rfl, rfl⟩ := here
      refine .inr ⟨rfl, target, found, by rwa [same.kind?] at top, ?_⟩
      rw [noteToplevel_of_undecided bound, entryAt?_setEntry _ ha', if_pos ⟨rfl, rfl⟩]
    · rw [noteToplevel]
      split
      iterate 2 exact .inl (bound.setEntry ha' (not_and_or.mp here) _)
      exact .inl bound
  · exact .inl (bound.load ha' m)

/-- A report leaves a name open in a comprehension, unless it gives it an entry there or is an
    assignment expression in there that binds the name in toplevel code. -/
theorem Undecided.act {r : Action π} (free : t.Undecided c n) (h : t.WellFormed) (ha : a ∈ t)
    (acted : t.act a r = .ok u) (below : c ≠ ScopeId.root)
    (inside : c ∈ t → t.kind? c = some .comprehension) (spared : c = a → ¬r.fixes n) : u.Undecided c n ∨
      c = a ∧ ∃ target, t.expressionTarget n c (t.enclosing c) = .ok target ∧
        t.kind? target = some .toplevel ∧ u.entryAt? c n = some (.captured target) := by
  have other {m : Ident} (fixes : r.fixes n = decide (m = n)) : m ≠ n ∨ c ≠ a := by
    by_contra here
    simp only [not_or, not_not] at here
    exact spared here.2 (fixes.trans (decide_eq_true here.1))
  cases r with
  | load m =>
    cases acted
    exact .inl (free.load ha m)
  | store m =>
    cases acted
    exact .inl (free.store h.root_mem ha below (other rfl))
  | assignExpr m => exact free.assignExpr h ha acted below inside
  | declareNonlocal m =>
    rcases declareNonlocal_eq_ok acted with rfl | ⟨target, -, -, rfl⟩
    · exact .inl free
    · exact .inl (free.setEntry ha (other rfl) _)
  | declareGlobal m =>
    have root := free.store h.root_mem h.root_mem below (m := m) (.inr below)
    rcases declareGlobal_eq_ok ha acted with ⟨rfl, rfl⟩ | ⟨-, -, rfl⟩
    · exact .inl root
    · have same := sameScopes_store t ScopeId.root m
      exact .inl (root.setEntry ((mem_congr same.size a).mpr ha) (other rfl) _)
  | nest kind name payload =>
    obtain ⟨-, -, rfl⟩ := nest_eq_ok acted
    have same := sameScopes_bindOwnName t a kind name
    have own : (t.bindOwnName a kind name).Undecided c n := by
      cases name with
      | none => exact free
      | some m =>
        rw [bindOwnName]
        split_ifs with binds
        · refine free.store h.root_mem ha below (other ?_)
          rw [Action.fixes, binds, Bool.true_and]
        · exact free
    exact .inl (own.congr (entryAt?_push _ kind name payload ((mem_congr same.size a).mpr ha) c n))
  | setInIterable on =>
    cases acted
    exact .inl (free.congr (entryAt?_setInIterable ..))

/-! ### The comprehensions on the way -/

/-- Whether the comprehensions on a way leave a name open. One in toplevel code may have noted that
    the name is bound there. -/
def Clear (t : ScopeTree π) (n : Ident) (target : ScopeId) (inner : List ScopeId) : Prop :=
  ∀ c ∈ inner, t.Undecided c n ∨ t.entryAt? c n = some (.captured target) ∧
    t.kind? target = some .toplevel

theorem clear_new (payload : π) (n : Ident) (target : ScopeId) (inner : List ScopeId) :
    (ScopeTree.new payload).Clear n target inner := by
  intro c _
  left
  left
  cases c <;> rfl

/-- The comprehensions on a way stay clear under reports that give the name no entry there. -/
theorem Clear.act {r : Action π} (k : t.Clear n target inner) (h : t.WellFormed) (ha : a ∈ t)
    (acted : t.act a r = .ok u) (g : Grows u x) (o : x.Outward s target inner outer)
    (hx : x.WellFormed) (spared : a ∈ inner → ¬r.fixes n) : u.Clear n target inner := by
  have first := (changes_act h ha acted).grows
  intro c hc
  have below := o.ne_root hx hc
  have inside (mem : c ∈ t) : t.kind? c = some .comprehension := by
    rw [← (first.trans g).kind? c mem, o.inside c hc]
  rcases k c hc with free | ⟨captured, top⟩
  · rcases free.act h ha acted below inside fun here =>
      spared (here ▸ hc) with free | ⟨rfl, b, found, top, entry⟩
    · exact .inl free
    · obtain ⟨_, _, own⟩ := h.outward_of_expressionTarget ha found
      obtain ⟨_, o⟩ := o.of_mem hx hc
      obtain rfl := o.unique (((first.trans g).outward_iff h ha).mpr own)
      exact .inr ⟨entry, (first.kind? b (own.target_mem h ha)).trans top⟩
  · refine .inr ⟨first.captured below captured, ?_⟩
    rw [first.kind? target (mem_of_kind? top), top]

theorem Clear.recordAll : ∀ {reports : List (ScopeId × Action π)} {t : ScopeTree π},
    t.Clear n target inner → t.WellFormed → Grows (t.recordAll reports) x →
    x.Outward s target inner outer → x.WellFormed →
    (∀ report ∈ t.accepted reports, report.1 ∈ inner → ¬report.2.fixes n) →
    (t.recordAll reports).Clear n target inner
  | [], _, k, _, _, _, _, _ => k
  | report :: reports, t, k, h, g, o, hx, spared => by
    cases performed : t.perform report.1 report.2 with
    | error e =>
      rw [accepted_cons_of_error reports performed] at spared
      rw [recordAll_cons_of_error reports performed] at g ⊢
      exact k.recordAll h g o hx spared
    | ok u =>
      rw [accepted_cons_of_ok reports performed] at spared
      rw [recordAll_cons_of_ok reports performed] at g ⊢
      obtain ⟨now, later⟩ := List.forall_mem_cons.mp spared
      have wf := h.perform performed
      obtain ⟨mem, acted⟩ := perform_eq_ok.mp performed
      exact (k.act h mem acted ((Grows.recordAll reports wf).trans g) o hx now).recordAll wf g o hx later

/-! ### What an expression leaves -/

/-- What an assignment expression in a scope leaves at its target: the target decides where the name
    lives, and if it is toplevel code that binds the name, then the scope has noted it. -/
inductive Answered (t : ScopeTree π) (s : ScopeId) (n : Ident) (target : ScopeId) : Prop
  | root (here : target = ScopeId.root)
  | captured {home : ScopeId} (below : target ≠ ScopeId.root)
      (entry : t.entryAt? target n = some (.captured home))
  | global {declared : Bool} (below : target ≠ ScopeId.root)
      (entry : t.entryAt? target n = some (.global declared))
  | bound (entry : t.entryAt? target n = some .bound)
      (noted : t.kind? target = some .toplevel → t.entryAt? s n = some (.captured target))

/-- What an expression notes or reads in its own scope changes nothing at the target, and it notes a
    name that toplevel code has come to bind. -/
theorem entryAt?_assignExpr (h : t.WellFormed) (hs : s ∈ t) (below : s ≠ ScopeId.root)
    (acted : t.assignExpr s n = .ok u) (o : t.Outward s target inner outer) (away : s ∈ inner)
    (k : t.Clear n target inner) : u.entryAt? target n = (t.store target n).entryAt? target n ∧
      (t.kind? target = some .toplevel → u.entryAt? target n = some .bound →
        u.entryAt? s n = some (.captured target)) := by
  obtain ⟨b, found, cases⟩ := assignExpr_eq_ok acted
  obtain ⟨_, _, own⟩ := h.outward_of_expressionTarget hs found
  obtain rfl := o.unique own
  have other : b ≠ s := by
    rintro rfl
    exact o.stop (o.inside b away)
  have same := sameScopes_store t b n
  have hs' : s ∈ t.store b n := (mem_congr same.size s).mpr hs
  have here : (t.store b n).entryAt? s n = t.entryAt? s n :=
    entryAt?_store_other (o.target_mem h hs) h.root_mem (.inr ⟨other.symm, below⟩)
  rcases cases with ⟨rfl, -⟩ | ⟨-, -, -, rfl⟩ | ⟨-, passed, rfl⟩
  · exact absurd rfl other
  · rcases k s away with free | ⟨captured, -⟩
    · rw [noteToplevel_of_undecided (free.congr here)]
      refine ⟨?_, fun _ _ => ?_⟩
      · rw [entryAt?_setEntry _ hs', if_neg fun same => other same.1.symm]
      · rw [entryAt?_setEntry _ hs', if_pos ⟨rfl, rfl⟩]
    · have noted := here.trans captured
      simp only [noteToplevel, noted]
      exact ⟨trivial, fun _ _ => trivial⟩
  · have kept : ((t.store b n).load s n).entryAt? b n = (t.store b n).entryAt? b n := by
      rw [entryAt?_load _ hs', if_neg fun same => other same.1.symm]
    refine ⟨kept, fun top bound => absurd ⟨?_, home_of_bound (kept ▸ bound)⟩ passed⟩
    rw [same.kind?, top]

theorem answered_assignExpr (h : t.WellFormed) (hs : s ∈ t) (below : s ≠ ScopeId.root)
    (acted : t.assignExpr s n = .ok u) (o : t.Outward s target inner outer) (away : s ∈ inner)
    (k : t.Clear n target inner) : u.Answered s n target := by
  have ht := o.target_mem h hs
  obtain ⟨kept, noted⟩ := entryAt?_assignExpr h hs below acted o away k
  by_cases root : target = ScopeId.root
  · exact .root root
  · rcases entryAt?_store_self h.root_mem ht n with bound | ⟨home, captured⟩ | ⟨-, declared, global⟩
    · have bound := kept.trans bound
      refine .bound bound fun top => noted ?_ bound
      rw [← (changes_assignExpr h hs acted).grows.kind? target ht, top]
    · exact .captured root (kept.trans captured)
    · exact .global root (kept.trans global)

theorem Answered.grows (k : t.Answered s n target) (g : Grows t u) (below : s ≠ ScopeId.root)
    (ht : target ∈ t) : u.Answered s n target := by
  cases k with
  | root here => exact .root here
  | captured inner entry => exact .captured inner (g.captured inner entry)
  | global inner entry =>
    obtain ⟨_, entry⟩ := g.global inner entry
    exact .global inner entry
  | bound entry noted =>
    refine .bound (g.bound entry) fun top => g.captured below (noted ?_)
    rw [← g.kind? target ht, top]

/-- Toplevel code that binds the name of an expression has been noted. -/
theorem Answered.noted (k : t.Answered s n target) (h : t.WellFormed)
    (top : t.kind? target = some .toplevel)
    (bound : t.entryAt? target n = some .bound) : t.entryAt? s n = some (.captured target) := by
  cases k with
  | root root =>
    rw [root, h.kind_root] at top
    cases top
  | captured _ entry => rw [bound] at entry; cases entry
  | global _ entry => rw [bound] at entry; cases entry
  | bound _ noted => exact noted top

/-! ### One home for both -/

/-- A search passes over scopes in which the name is open. -/
theorem captureAmong?_append : ∀ {before : List ScopeId} (rest : List ScopeId),
    (∀ b ∈ before, t.Undecided b n) → t.captureAmong? n (before ++ rest) = t.captureAmong? n rest
  | [], _, _ => rfl
  | b :: before, rest, free => by
    obtain ⟨first, free⟩ := List.forall_mem_cons.mp free
    rw [List.cons_append, captureAmong?]
    rcases first with first | first <;> rw [first] <;> exact captureAmong?_append rest free

/-- Where the comprehensions on the way are open, the search for a name goes on from their end. -/
theorem Outward.capture? (o : t.Outward s target (s :: inner) outer)
    (free : ∀ c ∈ s :: inner, t.Undecided c n) :
    t.capture? s n = t.captureAmong? n ((target :: outer).filter t.isClosed) := by
  have way : t.enclosing s = inner ++ target :: outer := (List.cons.inj o.way).2
  rw [ScopeTree.capture?, closedAround, way, List.filter_append]
  refine captureAmong?_append _ fun c hc => free c ?_
  exact List.mem_cons_of_mem s (List.mem_filter.mp hc).1

/-- An open scope other than a class is the global scope or toplevel code. -/
theorem WellFormed.root_or_toplevel (h : t.WellFormed) (hs : s ∈ t) (visible : ¬t.isClosed s)
    (body : t.kind? s ≠ some .classBody) : s = ScopeId.root ∨ t.kind? s = some .toplevel := by
  by_cases root : s = ScopeId.root
  · exact .inl root
  obtain ⟨kind, hk⟩ : ∃ kind, t.kind? s = some kind :=
    ⟨_, congrArg (Option.map Scope.kind) (Array.getElem?_eq_getElem hs)⟩
  have below := h.kind_below s hs root
  rw [isClosed, hk] at visible
  rw [hk] at below body ⊢
  cases kind with
  | global => exact absurd rfl below
  | toplevel => exact .inr rfl
  | classBody => exact absurd rfl body
  | function => exact absurd rfl visible
  | lambda => exact absurd rfl visible
  | comprehension => exact absurd rfl visible

/-- The analysis has the name live in one place for the scope of an expression and for its target. -/
theorem home_eq_of_answered (h : t.WellFormed) (k : t.TargetsSound) (hs : s ∈ t)
    (o : t.Outward s target (s :: inner) outer) (body : t.kind? target ≠ some .classBody)
    (clear : t.Clear n target (s :: inner)) (answered : t.Answered s n target) :
    t.home s n = t.home target n := by
  by_cases noted : t.kind? target = some .toplevel ∧ t.entryAt? target n = some .bound
  · rw [home_of_bound noted.2, home_of_captured (answered.noted h noted.1 noted.2)]
  -- nothing is noted on the way, so the search goes on from the target
  have free : ∀ c ∈ s :: inner, t.Undecided c n := by
    intro c hc
    refine (clear c hc).resolve_right ?_
    rintro ⟨captured, top⟩
    exact noted ⟨top, (k c n target captured).bound⟩
  rw [home_of_undecided (free s List.mem_cons_self), o.capture? free]
  by_cases closed : t.isClosed target
  · rw [List.filter_cons_of_pos closed, captureAmong?, home]
    cases answered with
    | root root => rw [root, h.not_isClosed_root] at closed; cases closed
    | captured _ entry => rw [entry]; rfl
    | global _ entry => rw [entry]; rfl
    | bound entry _ => rw [entry]; rfl
  · rw [List.filter_cons_of_neg closed, ← o.enclosing_target h, ← closedAround]
    rcases h.root_or_toplevel (o.target_mem h hs) closed body with rfl | top
    · rw [h.closedAround_root, k.home_root h]
      rfl
    · rw [h.closedAround_toplevel top]
      cases answered with
      | root root => rw [root, h.kind_root] at top; cases top
      | captured _ entry => exact absurd top (k _ n _ entry).inner
      | global _ entry => exact (home_of_global entry).symm
      | bound entry _ => exact absurd ⟨top, entry⟩ noted

/-- The home of a name is the same for the scope of an accepted assignment expression and for the scope
    that the expression binds it in. -/
theorem home_assignExpr {payload : π} {reports : List (ScopeId × Action π)}
    (recorded : (ScopeTree.new payload).recordAll reports = x)
    (assigned : (s, .assignExpr n) ∈ (ScopeTree.new payload).accepted reports)
    (o : x.Outward s target inner outer)
    (spared : ∀ report ∈ (ScopeTree.new payload).accepted reports, report.1 ∈ inner →
      ¬report.2.fixes n) :
    s ∈ x ∧ x.home s n = x.home target n := by
  subst recorded
  obtain ⟨before, after, u, performed, eq, subset⟩ := exists_of_mem_accepted assigned
  have new := Reachable.new payload
  have h := new.recordAll before
  have hx := new.recordAll reports
  have first : Grows _ u := .perform h.wellFormed performed
  have later := eq ▸ Grows.recordAll after (h.wellFormed.perform performed)
  obtain ⟨mem, acted⟩ := perform_eq_ok.mp performed
  have hs := later.mem s (first.mem s mem)
  refine ⟨hs, ?_⟩
  cases inner with
  | nil =>
    obtain ⟨rfl, -⟩ := List.cons.inj o.way
    rfl
  | cons b inner =>
    obtain ⟨rfl, -⟩ := List.cons.inj o.way
    have below := o.ne_root hx.wellFormed List.mem_cons_self
    have started := clear_new payload n target (s :: inner)
    have clear := started.recordAll new.wellFormed (first.trans later) o hx.wellFormed
      fun report mem => spared report (subset mem)
    have o' := ((first.trans later).outward_iff h.wellFormed mem).mp o
    have ht := o'.target_mem h.wellFormed mem
    have answered := answered_assignExpr h.wellFormed mem below acted o' List.mem_cons_self clear
    refine home_eq_of_answered hx.wellFormed hx.targetsSound hs o ?_ ?_ ?_
    · obtain ⟨b, found, -⟩ := assignExpr_eq_ok acted
      obtain ⟨_, _, own⟩ := h.wellFormed.outward_of_expressionTarget mem found
      obtain rfl := o'.unique own
      rw [(first.trans later).kind? b ht]
      exact (h.wellFormed.expressionTarget_kind mem found).2
    · exact started.recordAll new.wellFormed (.refl _) o hx.wellFormed spared
    · exact answered.grows later below (first.mem target ht)

end ScopeTree

end Scoping
