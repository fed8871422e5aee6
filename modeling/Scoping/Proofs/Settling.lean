import Scoping.Proofs.Form

/-! What settling does. Settling a name gives it an entry that repeats the outcome of the search for its
    target, so a later search that meets the entry stops there with the outcome it would have reached by
    going on: no search is affected. The names of a scope are therefore settled independently of each
    other, and the scopes of a tree independently of their order, except that the global scope has to
    come last. What remains to be shown is that every scope is reached. -/

namespace Scoping

/-- The entry that settles a name, from the scope that the name is captured from. -/
def Entry.ofCapture : Option ScopeId → Entry
  | some target => .captured target
  | none => .global false

namespace ScopeTree

variable {π : Type} {t u : ScopeTree π} {s : ScopeId} {n : Ident}

/-! ### One name -/

theorem sameScopes_settleName (t : ScopeTree π) (s : ScopeId) (n : Ident) :
    SameScopes t (t.settleName s n) := by
  rw [settleName]
  split
  · exact sameScopes_setEntry ..
  · exact (sameScopes_load ..).trans (sameScopes_setEntry ..)

/-- The scope gets the entry that settles the name, and the global scope takes note of a name that no
    scope decides. -/
theorem entryAt?_settleName (hr : ScopeId.root ∈ t) (hs : s ∈ t) (n : Ident) (a : ScopeId) (m : Ident) :
    (t.settleName s n).entryAt? a m =
      if s = a ∧ n = m then some (.ofCapture (t.capture? s n))
      else if t.capture? s n = none ∧ ScopeId.root = a ∧ n = m then
        some ((t.entryAt? ScopeId.root n).getD .used)
      else t.entryAt? a m := by
  rw [settleName]
  split
  · rename_i target found
    rw [entryAt?_setEntry t hs, found]
    simp [Entry.ofCapture]
  · rename_i found
    have hs' : s ∈ t.load ScopeId.root n := (mem_congr (sameScopes_load ..).size s).mpr hs
    rw [entryAt?_setEntry _ hs', entryAt?_load t hr, found]
    simp [Entry.ofCapture]

theorem entryAt?_settleName_self (hr : ScopeId.root ∈ t) (hs : s ∈ t) (n : Ident) :
    (t.settleName s n).entryAt? s n = some (.ofCapture (t.capture? s n)) := by
  rw [entryAt?_settleName hr hs, if_pos ⟨rfl, rfl⟩]

theorem entryAt?_settleName_of_ne (hr : ScopeId.root ∈ t) (hs : s ∈ t) {m : Ident} (hm : n ≠ m)
    (a : ScopeId) : (t.settleName s n).entryAt? a m = t.entryAt? a m := by
  rw [entryAt?_settleName hr hs, if_neg fun h => hm h.2, if_neg fun h => hm h.2.2]

/-- A name is settled by what the scopes know of this name alone. -/
theorem entryAt?_settleName_congr (same : SameScopes t u) (hr : ScopeId.root ∈ t) (hs : s ∈ t)
    (he : ∀ a, u.entryAt? a n = t.entryAt? a n) (a : ScopeId) :
    (u.settleName s n).entryAt? a n = (t.settleName s n).entryAt? a n := by
  have mem := mem_congr same.size
  rw [entryAt?_settleName hr hs, entryAt?_settleName ((mem _).mpr hr) ((mem s).mpr hs),
    same.capture? he, he, he]

/-- A search that meets the settled entry stops with the outcome it had when it went on. -/
theorem captureAmong?_settled (used : t.entryAt? s n = some .used)
    (settled : u.entryAt? s n = some (.ofCapture (t.capture? s n)))
    (other : ∀ a, a ≠ ScopeId.root → a ≠ s → u.entryAt? a n = t.entryAt? a n) :
    ∀ around, ScopeId.root ∉ around →
      (∀ before after, around = before ++ s :: after → t.captureAmong? n after = t.capture? s n) →
      u.captureAmong? n around = t.captureAmong? n around
  | [], _, _ => rfl
  | a :: rest, hr, hrest => by
    obtain ⟨ha, hr⟩ := not_or.mp (mt List.mem_cons.mpr hr)
    by_cases hs : a = s
    · subst hs
      have onward := hrest [] rest rfl
      rw [captureAmong?, captureAmong?, settled, used]
      rw [← onward]
      cases t.captureAmong? n rest <;> rfl
    · have ih := captureAmong?_settled used settled other rest hr fun before after h =>
        hrest (a :: before) after (by rw [h]; rfl)
      rw [captureAmong?, captureAmong?, other a (Ne.symm ha) hs, ih]

/-- Settling a used name changes the outcome of no search. -/
theorem capture?_settleName (h : t.WellFormed) (used : t.entryAt? s n = some .used) (a : ScopeId)
    (m : Ident) : (t.settleName s n).capture? a m = t.capture? a m := by
  have hs := mem_of_entryAt? used
  have same := sameScopes_settleName t s n
  by_cases hm : n = m
  · subst hm
    rw [capture?, capture?, same.closedAround]
    refine captureAmong?_settled used (entryAt?_settleName_self h.root_mem hs n) ?_ _
      (h.root_not_mem_closedAround a) ?_
    · intro b hb hbs
      rw [entryAt?_settleName h.root_mem hs, if_neg fun h => hbs h.1.symm,
        if_neg fun h => hb h.2.1.symm]
    · intro before after split
      rw [capture?, h.closedAround_split split]
  · exact same.capture? (entryAt?_settleName_of_ne h.root_mem hs hm) a

/-! ### One scope -/

theorem mem_pending : n ∈ t.pending s ↔ t.entryAt? s n = some .used := by
  rw [pending, entries, entryAt?]
  cases t.scope? s <;> simp

theorem nodup_pending : (t.pending s).Nodup := by
  rw [pending, entries]
  cases t.scope? s with
  | none => exact List.nodup_nil
  | some sc =>
    refine List.Pairwise.filterMap _ ?_ (Std.ExtTreeMap.distinct_keys_toList (t := sc.entries))
    rintro a a' hne b hb b' hb' rfl
    simp only [Option.ite_none_right_eq_some, Option.some.injEq] at hb hb'
    exact hne (by rw [hb.2, hb'.2]; exact Std.ReflOrd.compare_self)

theorem sameScopes_foldl_settleName (s : ScopeId) : ∀ (names : List Ident) (t : ScopeTree π),
    SameScopes t (names.foldl (settleName s) t)
  | [], t => .refl t
  | n :: names, t => (sameScopes_settleName t s n).trans (sameScopes_foldl_settleName s names _)

theorem sameScopes_settleScope (t : ScopeTree π) (s : ScopeId) : SameScopes t (t.settleScope s) :=
  sameScopes_foldl_settleName ..

/-- Names are settled independently of each other. -/
theorem entryAt?_foldl_settleName (a : ScopeId) (m : Ident) : ∀ {names : List Ident} {t : ScopeTree π},
    ScopeId.root ∈ t → s ∈ t → names.Nodup → (names.foldl (settleName s) t).entryAt? a m =
      if m ∈ names then (t.settleName s m).entryAt? a m else t.entryAt? a m
  | [], _, _, _, _ => rfl
  | n :: names, t, hr, hs, hd => by
    obtain ⟨hn, hd⟩ := List.nodup_cons.mp hd
    have same := sameScopes_settleName t s n
    have mem := mem_congr same.size
    rw [List.foldl_cons, entryAt?_foldl_settleName a m ((mem _).mpr hr) ((mem s).mpr hs) hd]
    by_cases hm : n = m
    · subst hm
      rw [if_neg hn, if_pos List.mem_cons_self]
    · have untouched := entryAt?_settleName_of_ne hr hs hm
      rw [entryAt?_settleName_congr same hr hs untouched, untouched]
      simp [Ne.symm hm]

theorem entryAt?_settleScope (hr : ScopeId.root ∈ t) (hs : s ∈ t) (a : ScopeId) (m : Ident) :
    (t.settleScope s).entryAt? a m =
      if t.entryAt? s m = some .used then (t.settleName s m).entryAt? a m else t.entryAt? a m := by
  rw [settleScope, entryAt?_foldl_settleName a m hr hs nodup_pending]
  simp only [mem_pending]

/-- Settling a scope changes the outcome of no search. -/
theorem capture?_settleScope (h : t.WellFormed) (hs : s ∈ t) (a : ScopeId) (m : Ident) :
    (t.settleScope s).capture? a m = t.capture? a m := by
  have entries := entryAt?_settleScope h.root_mem hs (m := m)
  by_cases used : t.entryAt? s m = some .used
  · have same := (sameScopes_settleName t s m).symm.trans (sameScopes_settleScope t s)
    rw [same.capture? fun b => by rw [entries, if_pos used]]
    exact capture?_settleName h used a m
  · exact (sameScopes_settleScope t s).capture? (fun b => by rw [entries, if_neg used]) a

/-! ### Many scopes -/

/-- A name that a scope uses and that no scope around it decides. -/
def FallsThrough (t : ScopeTree π) (s : ScopeId) (n : Ident) : Prop :=
  t.entryAt? s n = some .used ∧ t.capture? s n = none

instance (t : ScopeTree π) (s : ScopeId) (n : Ident) : Decidable (FallsThrough t s n) :=
  inferInstanceAs (Decidable (_ ∧ _))

/-- The entry of a name in a scope once the scope is settled. -/
def settledAt? (t : ScopeTree π) (s : ScopeId) (n : Ident) : Option Entry :=
  if t.entryAt? s n = some .used then some (.ofCapture (t.capture? s n)) else t.entryAt? s n

theorem settledAt?_ne_used (t : ScopeTree π) (s : ScopeId) (n : Ident) :
    t.settledAt? s n ≠ some .used := by
  unfold settledAt?
  split_ifs with h
  · cases t.capture? s n <;> simp [Entry.ofCapture]
  · exact h

/-- A tree on the way: some scopes of the original are settled, the global scope is not, and it has
    taken note of every name that it was left with. -/
structure Settling (t u : ScopeTree π) (done : List ScopeId) : Prop where
  same : SameScopes t u
  search : ∀ s n, u.capture? s n = t.capture? s n
  entry : ∀ s n, s ≠ ScopeId.root →
    u.entryAt? s n = if s ∈ done then t.settledAt? s n else t.entryAt? s n
  root : ∀ n, u.entryAt? ScopeId.root n =
    (t.entryAt? ScopeId.root n).or (if ∃ s ∈ done, t.FallsThrough s n then some .used else none)

theorem Settling.start (t : ScopeTree π) : Settling t t [] where
  same := .refl t
  search _ _ := rfl
  entry _ _ _ := by simp
  root n := by simp

/-- The names that are still open are those of the scopes that are still to be settled. -/
theorem Settling.used_iff {done : List ScopeId} (k : Settling t u done) (hr : s ≠ ScopeId.root)
    (m : Ident) : u.entryAt? s m = some .used ↔ s ∉ done ∧ t.entryAt? s m = some .used := by
  rw [k.entry s m hr]
  split_ifs with hd <;> simp [hd, settledAt?_ne_used]

/-- Settling one more scope gives that scope its settled entries. One that is settled already
    has no used name left. -/
theorem Settling.entry_step {done : List ScopeId} (k : Settling t u done) (h : u.WellFormed) (hs : s ∈ u)
    (hr : s ≠ ScopeId.root) {a : ScopeId} (ha : a ≠ ScopeId.root) (m : Ident) :
    (u.settleScope s).entryAt? a m = if a ∈ s :: done then t.settledAt? a m else t.entryAt? a m := by
  rw [entryAt?_settleScope h.root_mem hs]
  by_cases has : a = s
  · subst has
    rw [if_pos List.mem_cons_self]
    split_ifs with used
    · rw [entryAt?_settleName_self h.root_mem hs, k.search, settledAt?,
        if_pos ((k.used_iff hr m).mp used).2]
    · rw [k.entry a m ha]
      split_ifs with hd
      · rfl
      · have free : t.entryAt? a m ≠ some .used := fun ht => used ((k.used_iff hr m).mpr ⟨hd, ht⟩)
        rw [settledAt?, if_neg free]
  · have kept : (u.settleName s m).entryAt? a m = u.entryAt? a m := by
      rw [entryAt?_settleName h.root_mem hs]
      simp [Ne.symm has, Ne.symm ha]
    rw [kept, ite_self, k.entry a m ha]
    simp [has]

/-- Settling one more scope lets the global scope take note of the names that fall through from there. -/
theorem Settling.root_step {done : List ScopeId} (k : Settling t u done) (h : u.WellFormed) (hs : s ∈ u)
    (hr : s ≠ ScopeId.root) (m : Ident) : (u.settleScope s).entryAt? ScopeId.root m =
      (t.entryAt? ScopeId.root m).or
        (if ∃ a ∈ s :: done, t.FallsThrough a m then some .used else none) := by
  have single : (u.settleName s m).entryAt? ScopeId.root m =
      if t.capture? s m = none then some ((u.entryAt? ScopeId.root m).getD .used)
      else u.entryAt? ScopeId.root m := by
    rw [entryAt?_settleName h.root_mem hs, if_neg fun hx => hr hx.1, k.search]
    simp
  rw [entryAt?_settleScope h.root_mem hs, single]
  by_cases hf : s ∉ done ∧ t.FallsThrough s m
  · obtain ⟨hd, used, lost⟩ := hf
    have noted : ∃ a ∈ s :: done, t.FallsThrough a m := ⟨s, List.mem_cons_self, used, lost⟩
    rw [if_pos ((k.used_iff hr m).mpr ⟨hd, used⟩), if_pos lost, if_pos noted, k.root]
    cases t.entryAt? ScopeId.root m with
    | some e => rfl
    | none => split_ifs <;> rfl
  · have same_notes : (∃ a ∈ s :: done, t.FallsThrough a m) ↔ ∃ a ∈ done, t.FallsThrough a m := by
      simp only [List.mem_cons, exists_eq_or_imp]
      refine ⟨?_, .inr⟩
      rintro (lost | noted)
      · exact ⟨s, not_not.mp fun hd => hf ⟨hd, lost⟩, lost⟩
      · exact noted
    simp only [same_notes, ← k.root]
    split_ifs with used lost
    · obtain ⟨hd, used⟩ := (k.used_iff hr m).mp used
      exact absurd ⟨hd, used, lost⟩ hf
    iterate 2 rfl

/-- Settling one more scope. -/
theorem Settling.step {done : List ScopeId} (k : Settling t u done) (h : t.WellFormed) (hs : s ∈ t)
    (hr : s ≠ ScopeId.root) : Settling t (u.settleScope s) (s :: done) := by
  have hu := h.of_sameScopes k.same
  have hs' : s ∈ u := (mem_congr k.same.size s).mpr hs
  refine ⟨k.same.trans (sameScopes_settleScope u s), fun a m => ?_,
    fun a m ha => k.entry_step hu hs' hr ha m, k.root_step hu hs' hr⟩
  rw [capture?_settleScope hu hs', k.search]

/-- Settling the scopes of a list. -/
theorem Settling.steps (h : t.WellFormed) : ∀ {order : List ScopeId} {u : ScopeTree π}
    {done : List ScopeId}, Settling t u done → (∀ s ∈ order, s ∈ t ∧ s ≠ ScopeId.root) →
    Settling t (order.foldl settleScope u) (order.reverse ++ done)
  | [], _, _, k, _ => k
  | s :: order, u, done, k, ho => by
    obtain ⟨⟨hs, hr⟩, ho⟩ := List.forall_mem_cons.mp ho
    rw [List.reverse_cons, List.append_assoc]
    exact (k.step h hs hr).steps h ho

/-! ### Every scope -/

/-- The scopes in the order in which settling comes to them: all that is nested in a scope, to a given
    depth, and then the scope. -/
def postOrderWithin (t : ScopeTree π) : Nat → ScopeId → List ScopeId
  | 0, _ => []
  | depth + 1, s => (t.nested s).flatMap (t.postOrderWithin depth) ++ [s]

theorem postOrderWithin_congr (same : SameScopes t u) : u.postOrderWithin = t.postOrderWithin := by
  funext depth
  induction depth with
  | zero => rfl
  | succ depth ih =>
    funext s
    rw [postOrderWithin, postOrderWithin, ih, same.nested]

theorem sameScopes_foldl_settleScope : ∀ (order : List ScopeId) (t : ScopeTree π),
    SameScopes t (order.foldl settleScope t)
  | [], t => .refl t
  | s :: order, t => (sameScopes_settleScope t s).trans (sameScopes_foldl_settleScope order _)

/-- Settling changes no list of nested scopes, so it comes to the scopes in an order known beforehand. -/
theorem foldl_settleWithin {depth : Nat}
    (single : ∀ (t : ScopeTree π) s,
      t.settleWithin depth s = (t.postOrderWithin depth s).foldl settleScope t) :
    ∀ (scopes : List ScopeId) (t : ScopeTree π),
      scopes.foldl (settleWithin depth) t =
      (scopes.flatMap (t.postOrderWithin depth)).foldl settleScope t
  | [], _ => rfl
  | s :: scopes, t => by
    have same := sameScopes_foldl_settleScope (t.postOrderWithin depth s) t
    rw [List.foldl_cons, foldl_settleWithin single scopes, single, postOrderWithin_congr same,
      List.flatMap_cons, List.foldl_append]

theorem settleWithin_eq : ∀ (depth : Nat) (t : ScopeTree π) (s : ScopeId),
    t.settleWithin depth s = (t.postOrderWithin depth s).foldl settleScope t
  | 0, _, _ => rfl
  | depth + 1, t, s => by
    rw [settleWithin, foldl_settleWithin (settleWithin_eq depth), postOrderWithin, List.foldl_append]
    rfl

/-- The order has every scope below a scope that is not deeper than the depth allows. -/
theorem mem_postOrderWithin (h : t.WellFormed) : ∀ {depth : Nat} {s a : ScopeId}, s ∈ t.path a →
    (t.enclosing a).length < (t.enclosing s).length + depth → a ∈ t.postOrderWithin depth s
  | 0, s, a, hs, lt => by
    rcases List.mem_cons.mp hs with rfl | hs
    · omega
    · have := h.length_enclosing_lt hs
      omega
  | depth + 1, s, a, hs, lt => by
    rw [postOrderWithin, List.mem_append, List.mem_singleton]
    rcases List.mem_cons.mp hs with rfl | hs
    · exact .inr rfl
    · obtain ⟨c, hc, hp⟩ := h.exists_child hs
      refine .inl (List.mem_flatMap.mpr ⟨c, h.mem_nested.mpr hp, mem_postOrderWithin h hc ?_⟩)
      rw [(h.enclosing_of_parent? hp).2.2, path, List.length_cons]
      omega

theorem path_of_mem_postOrderWithin (h : t.WellFormed) : ∀ {depth : Nat} {s a : ScopeId},
    a ∈ t.postOrderWithin depth s → s ∈ t.path a
  | 0, _, _, ha => absurd ha List.not_mem_nil
  | depth + 1, s, a, ha => by
    rw [postOrderWithin, List.mem_append, List.mem_singleton] at ha
    rcases ha with ha | rfl
    · obtain ⟨c, hc, ha⟩ := List.mem_flatMap.mp ha
      have inner := path_of_mem_postOrderWithin h ha
      have outer := (h.enclosing_of_parent? (h.mem_nested.mp hc)).2.2
      refine List.mem_cons_of_mem a ?_
      rcases List.mem_cons.mp inner with rfl | inner
      · rw [outer]
        exact List.mem_cons_self
      · exact h.enclosing_subset inner (by rw [outer]; exact List.mem_cons_self)
    · exact List.mem_cons_self

/-- Settling comes to the scopes of the list, which are all but the global scope, and then
    to that one. -/
theorem settle_eq (h : t.WellFormed) : ∃ order : List ScopeId,
    (∀ s, s ∈ order ↔ s ∈ t ∧ s ≠ ScopeId.root) ∧
    t.settle = (order.foldl settleScope t).settleScope ScopeId.root := by
  obtain ⟨depth, size⟩ : ∃ depth, t.size = depth + 1 :=
    Nat.exists_eq_succ_of_ne_zero (Nat.ne_of_gt h.root_mem)
  refine ⟨(t.nested ScopeId.root).flatMap (t.postOrderWithin depth), fun s => ⟨?_, ?_⟩, ?_⟩
  · intro hs
    obtain ⟨c, hc, hs⟩ := List.mem_flatMap.mp hs
    obtain ⟨mem, lt, -⟩ := h.enclosing_of_parent? (h.mem_nested.mp hc)
    have way := path_of_mem_postOrderWithin h hs
    refine ⟨h.mem_of_mem_path mem way, ?_⟩
    rintro rfl
    rw [path, h.enclosing_root, List.mem_singleton] at way
    exact Nat.ne_of_gt lt way
  · rintro ⟨hs, hr⟩
    have short : (t.enclosing s).length < (t.enclosing ScopeId.root).length + t.size :=
      Nat.lt_of_le_of_lt (h.length_enclosing_le s) (Nat.lt_of_lt_of_le hs (Nat.le_add_left ..))
    have reached := mem_postOrderWithin h (h.root_mem_path hs) short
    rw [size, postOrderWithin, List.mem_append, List.mem_singleton] at reached
    exact reached.resolve_right hr
  · rw [settle, size, settleWithin, foldl_settleWithin (settleWithin_eq depth)]

/-! ### The settled tree -/

/-- A tree and the same tree with everything settled. -/
structure Settled (t u : ScopeTree π) : Prop where
  same : SameScopes t u
  search : ∀ s n, u.capture? s n = t.capture? s n
  kept : ∀ s n, s ≠ ScopeId.root → t.entryAt? s n ≠ some .used → u.entryAt? s n = t.entryAt? s n
  captured : ∀ s n target, s ≠ ScopeId.root → t.entryAt? s n = some .used →
    t.capture? s n = some target → u.entryAt? s n = some (.captured target)
  defaulted : ∀ s n, s ≠ ScopeId.root → t.FallsThrough s n → u.entryAt? s n = some (.global false)
  root_kept : ∀ n e, t.entryAt? ScopeId.root n = some e → e ≠ .used →
    u.entryAt? ScopeId.root n = some e
  root_used : ∀ n, t.entryAt? ScopeId.root n = some .used →
    u.entryAt? ScopeId.root n = some (.global false)
  root_noted : ∀ n, t.entryAt? ScopeId.root n = none → (∃ s, s ≠ ScopeId.root ∧ t.FallsThrough s n) →
    u.entryAt? ScopeId.root n = some (.global false)
  root_absent : ∀ n, t.entryAt? ScopeId.root n = none → (¬∃ s, s ≠ ScopeId.root ∧ t.FallsThrough s n) →
    u.entryAt? ScopeId.root n = none
  complete : ∀ s n, u.entryAt? s n ≠ some .used

/-- The global scope comes last and captures nothing. -/
theorem entryAt?_settleRoot (h : t.WellFormed) (a : ScopeId) (m : Ident) :
    (t.settleScope ScopeId.root).entryAt? a m =
      if t.entryAt? ScopeId.root m = some .used ∧ a = ScopeId.root then some (.global false)
      else t.entryAt? a m := by
  rw [entryAt?_settleScope h.root_mem h.root_mem, entryAt?_settleName h.root_mem h.root_mem,
    h.capture?_root]
  by_cases ha : a = ScopeId.root
  · simp [ha, Entry.ofCapture]
  · simp [ha, Ne.symm ha]

/-- Once every other scope is settled, settling the global scope settles the tree. -/
theorem Settling.last {done : List ScopeId} (k : Settling t u done) (h : t.WellFormed)
    (all : ∀ s, s ∈ done ↔ s ∈ t ∧ s ≠ ScopeId.root) : Settled t (u.settleScope ScopeId.root) := by
  have wf := h.of_sameScopes k.same
  have last := entryAt?_settleRoot wf
  have inner : ∀ s n, s ≠ ScopeId.root →
      (u.settleScope ScopeId.root).entryAt? s n = t.settledAt? s n := by
    intro s n hs
    rw [last, if_neg fun hx => hs hx.2, k.entry s n hs]
    split_ifs with hd
    · rfl
    · have hm : s ∉ t := fun hm => hd ((all s).mpr ⟨hm, hs⟩)
      rw [settledAt?, entryAt?_of_not_mem hm]
      rfl
  have notes : ∀ n, (∃ s ∈ done, t.FallsThrough s n) ↔ ∃ s, s ≠ ScopeId.root ∧ t.FallsThrough s n := by
    intro n
    refine exists_congr fun s => ⟨?_, ?_⟩
    · rintro ⟨hd, falls⟩
      exact ⟨((all s).mp hd).2, falls⟩
    · rintro ⟨hs, falls⟩
      exact ⟨(all s).mpr ⟨mem_of_entryAt? falls.1, hs⟩, falls⟩
  exact {
    same := k.same.trans (sameScopes_settleScope u _)
    search := fun s n => by rw [capture?_settleScope wf wf.root_mem, k.search]
    kept := fun s n hs free => by rw [inner s n hs, settledAt?, if_neg free]
    captured := fun s n target hs used found => by
      rw [inner s n hs, settledAt?, if_pos used, found]
      rfl
    defaulted := fun s n hs ⟨used, lost⟩ => by
      rw [inner s n hs, settledAt?, if_pos used, lost]
      rfl
    root_kept := fun n e he free => by
      rw [last, k.root, he]
      simp [free]
    root_used := fun n used => by
      rw [last, k.root, used]
      simp
    root_noted := fun n absent noted => by
      rw [last, k.root, absent, if_pos ((notes n).mpr noted)]
      simp
    root_absent := fun n absent unnoted => by
      rw [last, k.root, absent, if_neg (mt (notes n).mp unnoted)]
      simp
    complete := fun s n => by
      by_cases hs : s = ScopeId.root
      · subst hs
        rw [last]
        split_ifs with used
        · simp
        · exact fun hx => used ⟨hx, rfl⟩
      · rw [inner s n hs]
        exact settledAt?_ne_used t s n }

theorem WellFormed.settled (h : t.WellFormed) : Settled t t.settle := by
  obtain ⟨order, all, eq⟩ := settle_eq h
  have k : Settling t (order.foldl settleScope t) order.reverse := by
    have := (Settling.start t).steps h fun s hs => (all s).mp hs
    rwa [List.append_nil] at this
  rw [eq]
  exact k.last h fun s => List.mem_reverse.trans (all s)

end ScopeTree

end Scoping
