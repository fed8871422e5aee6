import Scoping.Proofs.Resolution

/-! Resolution without an order. As long as code holds neither nonlocal declarations nor assignment
    expressions, where its names live depends on which names occur in which scopes and how, not on the
    order in which the occurrences are met. `reference` reads the answer off the set of occurrences:
    the scope at hand decides, or else the nearest closed scope around it that decides, and a scope
    decides for itself if it binds the name and for the global scope if it declares the name global. -/

namespace Scoping

/-- How a name occurs in a scope. -/
inductive Manner
  | read
  | bound
  | declared
  deriving DecidableEq

/-- An occurrence of a name. -/
structure Occurrence where
  scope : ScopeId
  name : Ident
  manner : Manner
  deriving DecidableEq

namespace Action

variable {π : Type}

/-- Reports that neither look for a target nor depend on iterables. -/
def isPlain : Action π → Bool
  | .load _ | .store _ | .declareGlobal _ | .nest _ _ _ => true
  | .assignExpr _ | .declareNonlocal _ | .setInIterable _ => false

/-- The occurrence that a plain report on a scope tells of. In the global scope a global
    declaration is a mere binding. -/
def occurrence? (s : ScopeId) : Action π → Option Occurrence
  | .load n => some ⟨s, n, .read⟩
  | .store n => some ⟨s, n, .bound⟩
  | .declareGlobal n => some ⟨s, n, if s = ScopeId.root then .bound else .declared⟩
  | .nest kind (some n) _ => if kind.bindsName then some ⟨s, n, .bound⟩ else none
  | .nest _ none _ | .assignExpr _ | .declareNonlocal _ | .setInIterable _ => none

end Action

namespace ScopeTree

variable {π : Type} {t u : ScopeTree π} {s : ScopeId} {n : Ident} {occs : List Occurrence}

/-- The occurrences in those reports of a list that are accepted. -/
def occurrences (t : ScopeTree π) : List (ScopeId × Action π) → List Occurrence
  | [] => []
  | report :: reports =>
    match t.perform report.1 report.2 with
    | .ok u => (report.2.occurrence? report.1).toList ++ u.occurrences reports
    | .error _ => t.occurrences reports

/-! ### The reference -/

/-- Whether a scope decides where a name lives. -/
def Decides (occs : List Occurrence) (n : Ident) (a : ScopeId) : Prop :=
  ⟨a, n, .declared⟩ ∈ occs ∨ ⟨a, n, .bound⟩ ∈ occs

instance (occs : List Occurrence) (n : Ident) (a : ScopeId) : Decidable (Decides occs n a) :=
  inferInstanceAs (Decidable (_ ∨ _))

/-- The scope in which a name lives, from a scope that decides it. -/
def decision (occs : List Occurrence) (n : Ident) (a : ScopeId) : ScopeId :=
  if ⟨a, n, .declared⟩ ∈ occs then ScopeId.root else a

/-- The scope in which a name lives, as seen from a scope. -/
def reference (t : ScopeTree π) (occs : List Occurrence) (s : ScopeId) (n : Ident) : ScopeId :=
  if Decides occs n s then decision occs n s
  else ((t.closedAround s).find? fun a => Decides occs n a).elim ScopeId.root (decision occs n)

/-- Whether a scope other than the global one declares a name global. -/
def DeclaredSomewhere (occs : List Occurrence) (n : Ident) : Prop :=
  ∃ o ∈ occs, o.name = n ∧ o.manner = .declared

instance (occs : List Occurrence) (n : Ident) : Decidable (DeclaredSomewhere occs n) :=
  inferInstanceAs (Decidable (∃ o ∈ occs, _))

/-- Whether a scope merely reads a name that lives in the global scope. -/
def ReadsGlobal (t : ScopeTree π) (occs : List Occurrence) (s : ScopeId) (n : Ident) : Prop :=
  ⟨s, n, .read⟩ ∈ occs ∧ ¬Decides occs n s ∧ t.reference occs s n = ScopeId.root

instance (t : ScopeTree π) (occs : List Occurrence) (s : ScopeId) (n : Ident) :
    Decidable (ReadsGlobal t occs s n) :=
  inferInstanceAs (Decidable (_ ∧ _ ∧ _))

/-- The status of a name in a scope. -/
def referenceStatus (t : ScopeTree π) (occs : List Occurrence) (s : ScopeId) (n : Ident) : Status :=
  if s = ScopeId.root then
    if ⟨ScopeId.root, n, .bound⟩ ∈ occs ∨ DeclaredSomewhere occs n then .top
    else if ∃ o ∈ occs, o.name = n ∧ ReadsGlobal t occs o.scope n then .global
    else .unknown
  else if ⟨s, n, .declared⟩ ∈ occs then .global
  else if ⟨s, n, .bound⟩ ∈ occs then .bound
  else if ⟨s, n, .read⟩ ∈ occs then
    if t.reference occs s n = ScopeId.root then .global else .captured
  else .unknown

/-! ### What a tree has recorded -/

/-- The entry that a set of occurrences gives a name in a scope. -/
def recordedEntry (occs : List Occurrence) (s : ScopeId) (n : Ident) : Option Entry :=
  if ⟨s, n, .declared⟩ ∈ occs then some (.global true)
  else if ⟨s, n, .bound⟩ ∈ occs ∨ s = ScopeId.root ∧ DeclaredSomewhere occs n then some .bound
  else if ⟨s, n, .read⟩ ∈ occs then some .used
  else none

/-- A tree whose entries are those of a set of occurrences. -/
structure Records (t : ScopeTree π) (occs : List Occurrence) : Prop where
  root : ∀ n, ⟨ScopeId.root, n, .declared⟩ ∉ occs
  entry : ∀ s n, t.entryAt? s n = recordedEntry occs s n

theorem records_new (payload : π) : Records (.new payload) [] where
  root n := List.not_mem_nil
  entry s n := by
    cases s <;> rfl

theorem declaredSomewhere_append (o : Occurrence) (n : Ident) :
    DeclaredSomewhere (occs ++ [o]) n ↔ DeclaredSomewhere occs n ∨ o.name = n ∧
      o.manner = .declared := by
  simp [DeclaredSomewhere, or_and_right, exists_or]

/-- One more occurrence leaves the entries of other names as they were, and unless it declares the name
    global, those in other scopes. -/
theorem recordedEntry_append (o : Occurrence) {a : ScopeId} {m : Ident}
    (other : o.name ≠ m ∨ o.scope ≠ a ∧ (a ≠ ScopeId.root ∨ o.manner ≠ .declared)) :
    recordedEntry (occs ++ [o]) a m = recordedEntry occs a m := by
  have here (manner : Manner) : ⟨a, m, manner⟩ ∈ occs ++ [o] ↔ ⟨a, m, manner⟩ ∈ occs := by
    rw [List.mem_append, List.mem_singleton, or_iff_left]
    rintro rfl
    simp at other
  have noted : a = ScopeId.root ∧ DeclaredSomewhere (occs ++ [o]) m ↔
      a = ScopeId.root ∧ DeclaredSomewhere occs m := by
    rw [declaredSomewhere_append]
    grind
  simp only [recordedEntry, here, noted]

theorem Records.load (k : Records t occs) (hs : s ∈ t) (n : Ident) :
    Records (t.load s n) (occs ++ [⟨s, n, .read⟩]) where
  root m := by simp [k.root]
  entry a m := by
    rw [entryAt?_load t hs]
    by_cases here : s = a ∧ n = m
    · obtain ⟨rfl, rfl⟩ := here
      rw [if_pos ⟨rfl, rfl⟩, k.entry]
      simp only [recordedEntry, declaredSomewhere_append, List.mem_append, List.mem_singleton]
      grind
    · rw [if_neg here, k.entry, recordedEntry_append]
      simpa [or_iff_not_imp_left] using fun h => mt (And.intro · h) here

/-- Of the entries that occurrences give a name, a declaration is the only one that a
    binding passes on. -/
theorem Records.entryAt?_store (k : Records t occs) (hs : s ∈ t) (hr : ScopeId.root ∈ t) (n : Ident)
    (a : ScopeId) (m : Ident) : (t.store s n).entryAt? a m =
      if (s = a ∧ n = m) ∧ ⟨s, n, .declared⟩ ∉ occs then some .bound else t.entryAt? a m := by
  by_cases declared : ⟨s, n, .declared⟩ ∈ occs
  · have global : t.entryAt? s n = some (.global true) := by
      rw [k.entry, recordedEntry, if_pos declared]
    have bound : t.entryAt? ScopeId.root n = some .bound := by
      have noted : DeclaredSomewhere occs n := ⟨_, declared, rfl, rfl⟩
      rw [k.entry, recordedEntry, if_neg (k.root n), if_pos (.inr ⟨rfl, noted⟩)]
    rw [if_neg fun h => h.2 declared, store_of_global global, entryAt?_setEntry t hr]
    split_ifs with here
    · rw [← here.1, ← here.2, bound]
    · rfl
  · have entry := k.entry s n
    rw [recordedEntry, if_neg declared] at entry
    by_cases bound : t.entryAt? s n = some .bound
    · rw [store_of_bound bound]
      split_ifs with here
      · rw [← here.1.1, ← here.1.2, bound]
      · rfl
    · have free : t.Undecided s n := by
        unfold Undecided
        grind
      rw [store_of_undecided free, entryAt?_setEntry t hs]
      simp only [declared, not_false_eq_true, and_true]

theorem Records.store (k : Records t occs) (hs : s ∈ t) (hr : ScopeId.root ∈ t) (n : Ident) :
    Records (t.store s n) (occs ++ [⟨s, n, .bound⟩]) where
  root m := by simp [k.root]
  entry a m := by
    rw [k.entryAt?_store hs hr]
    by_cases here : s = a ∧ n = m
    · obtain ⟨rfl, rfl⟩ := here
      rw [k.entry]
      simp only [recordedEntry, declaredSomewhere_append, List.mem_append, List.mem_singleton]
      grind
    · rw [if_neg fun h => here h.1, k.entry, recordedEntry_append]
      simpa [or_iff_not_imp_left] using fun h => mt (And.intro · h) here

theorem Records.declareGlobal (k : Records t occs) (hs : s ∈ t) (hr : ScopeId.root ∈ t)
    (inner : s ≠ ScopeId.root) (n : Ident) :
    Records ((t.store ScopeId.root n).setEntry s n (.global true)) (occs ++ [⟨s, n, .declared⟩]) where
  root m := by simp [k.root, inner.symm]
  entry a m := by
    have hs' : s ∈ t.store ScopeId.root n := (mem_congr (sameScopes_store ..).size s).mpr hs
    rw [entryAt?_setEntry _ hs', k.entryAt?_store hr hr]
    by_cases same : n = m
    · subst same
      have := k.root n
      rw [k.entry]
      simp only [recordedEntry, declaredSomewhere_append, List.mem_append, List.mem_singleton]
      grind
    · rw [if_neg fun h => same h.2, if_neg fun h => same h.1.2, k.entry, recordedEntry_append]
      exact .inl same

/-- A plain report adds its occurrence. -/
theorem Records.act (k : Records t occs) (h : t.WellFormed) (hs : s ∈ t) {a : Action π}
    (plain : a.isPlain) (acted : t.act s a = .ok u) : Records u (occs ++ (a.occurrence? s).toList) := by
  cases a with
  | load n =>
    cases acted
    exact k.load hs n
  | store n =>
    cases acted
    exact k.store hs h.root_mem n
  | declareGlobal n =>
    rcases declareGlobal_eq_ok hs acted with ⟨rfl, rfl⟩ | ⟨inner, -, rfl⟩
    · exact k.store hs h.root_mem n
    · rw [Action.occurrence?, if_neg inner]
      exact k.declareGlobal hs h.root_mem inner n
  | nest kind name payload =>
    obtain ⟨-, -, rfl⟩ := nest_eq_ok acted
    have own : Records (t.bindOwnName s kind name)
        (occs ++ ((Action.nest kind name payload).occurrence? s).toList) := by
      cases name with
      | none => simpa [bindOwnName, Action.occurrence?] using k
      | some n =>
        by_cases binds : kind.bindsName
        · simpa [bindOwnName, Action.occurrence?, binds] using k.store hs h.root_mem n
        · simpa [bindOwnName, Action.occurrence?, binds] using k
    have hs' : s ∈ t.bindOwnName s kind name := (mem_congr (sameScopes_bindOwnName ..).size s).mpr hs
    exact ⟨own.root, fun b m => by rw [entryAt?_push _ kind name payload hs', own.entry]⟩
  | assignExpr n => cases plain
  | declareNonlocal n => cases plain
  | setInIterable on => cases plain

/-- A list of plain reports adds the occurrences in those that are accepted. -/
theorem Records.recordAll : ∀ {reports : List (ScopeId × Action π)} {t : ScopeTree π}
    {occs : List Occurrence}, Records t occs → t.Reachable → (∀ report ∈ reports, report.2.isPlain) →
    Records (t.recordAll reports) (occs ++ t.occurrences reports)
  | [], t, occs, k, _, _ => by
    rwa [occurrences, List.append_nil]
  | report :: reports, t, occs, k, h, plain => by
    obtain ⟨first, rest⟩ := List.forall_mem_cons.mp plain
    cases performed : t.perform report.1 report.2 with
    | error refusal =>
      rw [recordAll_cons_of_error reports performed, occurrences, performed]
      exact k.recordAll h rest
    | ok u =>
      rw [recordAll_cons_of_ok reports performed, occurrences, performed]
      obtain ⟨mem, acted⟩ := perform_eq_ok.mp performed
      have := (k.act h.wellFormed mem first acted).recordAll (h.step (.perform performed)) rest
      rwa [List.append_assoc] at this

/-! ### What a tree answers -/

/-- A search stops at the first scope that decides the name. -/
theorem Records.captureAmong?_eq (k : Records t occs) (n : Ident) : ∀ {around : List ScopeId},
    ScopeId.root ∉ around → t.captureAmong? n around =
      (around.find? fun a => Decides occs n a).bind fun a =>
        if ⟨a, n, .declared⟩ ∈ occs then none else some a
  | [], _ => rfl
  | a :: rest, hr => by
    obtain ⟨ha, hr⟩ := not_or.mp (mt List.mem_cons.mpr hr)
    rw [captureAmong?, k.captureAmong?_eq n hr, k.entry, recordedEntry]
    by_cases declared : ⟨a, n, .declared⟩ ∈ occs
    · have decides : Decides occs n a := .inl declared
      simp [declared, decides]
    · by_cases bound : ⟨a, n, .bound⟩ ∈ occs
      · have decides : Decides occs n a := .inr bound
        simp [declared, bound, decides]
      · have open' : ¬Decides occs n a := not_or.mpr ⟨declared, bound⟩
        simp only [declared, bound, Ne.symm ha, if_false, false_or, false_and]
        rw [List.find?_cons_of_neg (by simpa using open')]
        split_ifs <;> rfl

theorem Records.capture?_eq (k : Records t occs) (h : t.WellFormed) (s : ScopeId) (n : Ident) :
    t.capture? s n = ((t.closedAround s).find? fun a => Decides occs n a).bind fun a =>
      if ⟨a, n, .declared⟩ ∈ occs then none else some a :=
  k.captureAmong?_eq n (h.root_not_mem_closedAround s)

/-- The global scope is never the target of a search. -/
theorem Records.capture?_ne_root (k : Records t occs) (h : t.WellFormed) {target : ScopeId}
    (found : t.capture? s n = some target) : target ≠ ScopeId.root := by
  rw [k.capture?_eq h, Option.bind_eq_some_iff] at found
  obtain ⟨a, first, stop⟩ := found
  split_ifs at stop
  cases stop
  rintro rfl
  exact h.root_not_mem_closedAround s (List.mem_of_find?_eq_some first)

/-- The reference for a scope that leaves the name open is the outcome of its search. -/
theorem Records.reference_of_open (k : Records t occs) (h : t.WellFormed) (free : ¬Decides occs n s) :
    t.reference occs s n = (t.capture? s n).getD ScopeId.root := by
  rw [reference, if_neg free, k.capture?_eq h]
  cases (t.closedAround s).find? fun a => Decides occs n a with
  | none => rfl
  | some a =>
    simp only [Option.elim_some, Option.bind_some, decision]
    split_ifs <;> rfl

/-- A recorded tree answers by the reference already before it is settled. -/
theorem Records.home (k : Records t occs) (h : t.WellFormed) (s : ScopeId) (n : Ident) :
    t.home s n = t.reference occs s n := by
  have entry := k.entry s n
  unfold recordedEntry at entry
  by_cases declared : ⟨s, n, .declared⟩ ∈ occs
  · rw [if_pos declared] at entry
    rw [ScopeTree.home, entry, reference, if_pos (.inl declared), decision, if_pos declared]
  · rw [if_neg declared] at entry
    by_cases bound : ⟨s, n, .bound⟩ ∈ occs
    · rw [if_pos (.inl bound)] at entry
      rw [ScopeTree.home, entry, reference, if_pos (.inr bound), decision, if_neg declared]
    · rw [k.reference_of_open h (not_or.mpr ⟨declared, bound⟩)]
      split_ifs at entry with noted read
      · -- the name is declared global somewhere, and the scope at hand is the global scope
        obtain ⟨rfl, -⟩ := noted.resolve_left bound
        rw [ScopeTree.home, entry, h.capture?_root]
        rfl
      · exact home_of_undecided (.inr entry)
      · exact home_of_undecided (.inl entry)

theorem Records.fallsThrough_iff (k : Records t occs) (h : t.WellFormed) (hs : s ≠ ScopeId.root) :
    t.FallsThrough s n ↔ ReadsGlobal t occs s n := by
  have used : t.entryAt? s n = some .used ↔ ⟨s, n, .read⟩ ∈ occs ∧ ¬Decides occs n s := by
    rw [k.entry, recordedEntry]
    unfold Decides
    grind
  rw [FallsThrough, used, ReadsGlobal, and_assoc]
  refine and_congr_right fun _ => and_congr_right fun free => ?_
  rw [k.reference_of_open h free]
  cases found : t.capture? s n with
  | none => simp
  | some target => simp [k.capture?_ne_root h found]

theorem exists_readsGlobal :
    (∃ o ∈ occs, o.name = n ∧ ReadsGlobal t occs o.scope n) ↔ ∃ a, ReadsGlobal t occs a n := by
  constructor
  · rintro ⟨o, -, -, reads⟩
    exact ⟨o.scope, reads⟩
  · rintro ⟨a, reads⟩
    exact ⟨⟨a, n, .read⟩, reads.1, rfl, reads⟩

/-- Once everything is settled, the global scope has the status of the reference. -/
theorem Records.status_root (k : Records t occs) (h : t.WellFormed) (settled : Settled t u) (n : Ident) :
    u.status ScopeId.root n = t.referenceStatus occs ScopeId.root n := by
  have entry := k.entry ScopeId.root n
  simp only [recordedEntry, k.root, if_false, true_and] at entry
  rw [referenceStatus, if_pos rfl, ScopeTree.status]
  split_ifs at entry ⊢ with bound noted read read
  · rw [settled.root_kept n _ entry (by simp)]
    rfl
  · rw [settled.root_used n entry]
    rfl
  · obtain ⟨a, reads⟩ := exists_readsGlobal.mp noted
    have ha : a ≠ ScopeId.root := by
      rintro rfl
      exact read reads.1
    rw [settled.root_noted n entry ⟨a, ha, (k.fallsThrough_iff h ha).mpr reads⟩]
    rfl
  · -- the global scope reads the name itself, so it counts among the readers
    have free : ¬Decides occs n ScopeId.root := not_or.mpr ⟨k.root n, (not_or.mp bound).1⟩
    have answer := k.reference_of_open h free
    rw [h.capture?_root] at answer
    exact absurd (exists_readsGlobal.mpr ⟨_, read, free, answer⟩) noted
  · rw [settled.root_absent n entry]
    · rfl
    · rintro ⟨a, ha, falls⟩
      exact noted (exists_readsGlobal.mpr ⟨a, (k.fallsThrough_iff h ha).mp falls⟩)

/-- Once everything is settled, every other scope has the status of the reference. -/
theorem Records.status_inner (k : Records t occs) (h : t.WellFormed) (settled : Settled t u)
    (hs : s ≠ ScopeId.root) (n : Ident) : u.status s n = t.referenceStatus occs s n := by
  have entry := k.entry s n
  simp only [recordedEntry, hs, false_and, or_false] at entry
  rw [referenceStatus, if_neg hs, ScopeTree.status]
  split_ifs at entry ⊢ with declared bound read global
  · rw [settled.of_ne_used entry (by simp)]
    rfl
  · rw [settled.of_ne_used entry (by simp)]
    exact if_neg hs
  · have reads : ReadsGlobal t occs s n := ⟨read, not_or.mpr ⟨declared, bound⟩, global⟩
    rw [settled.defaulted s n hs ((k.fallsThrough_iff h hs).mpr reads)]
    rfl
  · rw [k.reference_of_open h (not_or.mpr ⟨declared, bound⟩)] at global
    cases found : t.capture? s n with
    | none =>
      rw [found] at global
      exact absurd rfl global
    | some target =>
      rw [settled.captured s n target hs entry found]
      rfl
  · rw [settled.kept s n hs (by simp [entry]), entry]
    rfl

theorem Records.status (k : Records t occs) (h : t.WellFormed) (settled : Settled t u) (s : ScopeId)
    (n : Ident) : u.status s n = t.referenceStatus occs s n := by
  by_cases hs : s = ScopeId.root
  · subst hs
    exact k.status_root h settled n
  · exact k.status_inner h settled hs n

/-! ### Main result -/

/-- Reports on a lambda in a class in a function. Two of them are refused: the lambda has read a name
    before it declares the name global, and toplevel code stands below the global scope alone. -/
def reportsOnLambda : List (ScopeId × Action Unit) :=
  [(0, .nest .function (some ⟨1⟩) ()), (1, .nest .classBody none ()), (2, .nest .lambda none ()),
   (3, .load ⟨2⟩), (3, .declareGlobal ⟨2⟩), (3, .load ⟨3⟩), (3, .load ⟨4⟩), (2, .store ⟨4⟩),
   (1, .declareGlobal ⟨3⟩), (1, .store ⟨2⟩), (1, .store ⟨3⟩), (1, .nest .toplevel none ())]

/-- After any plain reports, accepted or not, and the end of the analysis, every name lives where
    the reference says and has the status that the reference says. -/
theorem build_eq_reference (payload : π) {reports : List (ScopeId × Action π)}
    (plain : ∀ report ∈ reports, report.2.isPlain) {σ : Type} (x : σ) :
    ∃ u, (Walker.idle : Walker σ π).build (x, (new payload).recordAll reports) = .ok () (x, u) ∧
      ∀ s n,
        u.home s n =
          ((new payload).recordAll reports).reference ((new payload).occurrences reports) s n ∧
        u.status s n =
          ((new payload).recordAll reports).referenceStatus ((new payload).occurrences reports) s n := by
  have wf := (Reachable.recordAll reports (.new payload)).wellFormed
  have k : Records ((new payload).recordAll reports) ((new payload).occurrences reports) :=
    (records_new payload).recordAll (.new payload) plain
  refine ⟨_, Walker.build_idle _, fun s n => ⟨?_, k.status wf wf.settled s n⟩⟩
  rw [home_finish, wf.settled.home wf, k.home wf]

theorem build_eq_reference_reportsOnLambda :
    (∀ report ∈ reportsOnLambda, report.2.isPlain) ∧
      ∃ u, (Walker.idle : Walker Unit Unit).build ((), (new ()).recordAll reportsOnLambda) =
      .ok () ((), u) ∧
        u.home 3 ⟨2⟩ = 1 ∧ u.home 3 ⟨3⟩ = ScopeId.root ∧ u.status 3 ⟨2⟩ = .captured ∧
        u.status 3 ⟨4⟩ = .global ∧ u.status ScopeId.root ⟨3⟩ = .top ∧
        u.status ScopeId.root ⟨4⟩ = .global ∧ u.status ScopeId.root ⟨5⟩ = .unknown := by
  have plain : ∀ report ∈ reportsOnLambda, report.2.isPlain := by decide
  obtain ⟨u, built, answers⟩ := build_eq_reference () plain ()
  refine ⟨plain, u, built, ?_⟩
  simp only [fun s n => (answers s n).1, fun s n => (answers s n).2]
  decide

end ScopeTree

end Scoping
