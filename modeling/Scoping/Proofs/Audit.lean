import Scoping.Scope.Audit
import Scoping.Proofs.Targets
import Scoping.Proofs.Resolution

/-! What an audit finds. On a tree that reports have led to, every scope is in its place and every
    recorded target is around the scope that captures and binds the name there, so an audit that
    goes outward from the scope meets the target. All that is left to be found is a name that was
    read after the analysis was completed. An audit goes through the scopes in the order of their
    creation and so comes upon the oldest scope with such a name, but which of its names it comes
    upon depends on the order of the entries. -/

namespace Scoping

namespace ScopeTree

variable {π : Type} {t : ScopeTree π} {s : ScopeId} {n : Ident} {e : Entry}

theorem mem_entries : (n, e) ∈ t.entries s ↔ t.entryAt? s n = some e := by
  rw [entries, entryAt?]
  cases t.scope? s <;> simp

/-! ### One scope -/

namespace WellFormed

variable (h : t.WellFormed)

include h

/-- Going outward step by step comes to every scope around, and to no other. -/
theorem climbs_iff (target : ScopeId) : ∀ {steps : Nat} {s : ScopeId}, s < steps →
    (t.climbs target steps s ↔ target ∈ t.enclosing s)
  | steps + 1, s, lt => by
    rw [climbs]
    cases nested : t.parent? s with
    | none =>
      have outermost : t.enclosing s = [] := List.head?_eq_none_iff.mp nested
      simp [outermost]
    | some p =>
      obtain ⟨-, older, around⟩ := h.enclosing_of_parent? nested
      have further := climbs_iff target (Nat.lt_of_lt_of_le older (Nat.le_of_lt_succ lt))
      rw [around, path, List.mem_cons, ← further, Bool.or_eq_true, decide_eq_true_eq]
      exact or_congr_left eq_comm

/-- Going outward as often as there are scopes is enough. -/
theorem climbs_size_iff (target s : ScopeId) : t.climbs target t.size s ↔ target ∈ t.enclosing s := by
  by_cases hs : s ∈ t
  · exact h.climbs_iff target hs
  · have outside : t.enclosing s = [] := enclosing_of_not_mem hs
    obtain ⟨steps, size⟩ := Nat.exists_eq_add_of_lt h.root_mem
    rw [size, climbs, parent?, outside]
    simp

/-- Every scope is in its place. -/
theorem placeDefect?_eq_none (hs : s ∈ t) : t.placeDefect? s = none := by
  by_cases root : s = ScopeId.root
  · rw [placeDefect?, root, h.kind_root, parent?, h.enclosing_root]
    rfl
  · obtain ⟨p, -, around⟩ := h.below s hs root
    have nested : t.parent? s = some p := by
      rw [parent?, around]
      rfl
    have listed : s ∈ t.nested p := h.mem_nested.mpr nested
    have top (kind : t.kind? s = some .toplevel) : p = ScopeId.root := by
      rw [h.toplevel s kind] at around
      exact (List.cons.inj around).1.symm
    have inner := h.kind_below s hs root
    rw [placeDefect?, nested]
    cases kind : t.kind? s with
    | none => simp [listed]
    | some k => cases k <;> simp_all

end WellFormed

theorem WellFormed.entryFault?_eq (h : t.WellFormed) (s : ScopeId) :
    t.entryFault? s = t.entryDefect? s := by
  funext ⟨n, e⟩
  cases e with
  | used | bound | global => rfl
  | captured target =>
    rw [entryFault?, entryDefect?]
    by_cases around : target ∈ t.enclosing s <;> by_cases bound : t.entryAt? target n = some .bound <;>
      simp [(h.climbs_size_iff target s), around, bound]

/-- An audit is an inspection in the order of the names. -/
theorem WellFormed.audit_eq (h : t.WellFormed) : t.audit = t.inspect t.entries := by
  have same (s : ScopeId) : t.defectAt? s = t.faultAt? t.entries s := by
    rw [defectAt?, faultAt?, h.entryFault?_eq]
  rw [audit, inspect, funext same]

/-- An entry is a defect if the name is still open after the analysis. -/
theorem Reachable.entryDefect?_eq (h : t.Reachable) (entry : t.entryAt? s n = some e) :
    t.entryDefect? s (n, e) = if e = .used ∧ t.built then some (.unresolved s n) else none := by
  cases e with
  | used => simp [entryDefect?]
  | bound | global => rfl
  | captured target =>
    have sound := h.targetsSound s n target entry
    simp [entryDefect?, sound.around, sound.bound]

/-! ### Every scope -/

/-- Whether the entries of every scope are listed, in whatever order. -/
def Lists (t : ScopeTree π) (listing : ScopeId → List (Ident × Entry)) : Prop :=
  ∀ s, (listing s).Perm (t.entries s)

/-- Older scopes come before a scope. -/
theorem mem_before_of_lt {before after : List ScopeId} {a : ScopeId}
    (order : t.ids = before ++ s :: after) (ha : a ∈ t) (older : a < s) : a ∈ before := by
  have listed : a ∈ before ++ s :: after := order ▸ List.mem_range.mpr ha
  have sorted : (before ++ s :: after).Pairwise (· < ·) := order ▸ List.pairwise_lt_range
  obtain ⟨younger, -⟩ := List.pairwise_cons.mp (List.pairwise_append.mp sorted).2.1
  rcases List.mem_append.mp listed with first | later
  · exact first
  · rcases List.mem_cons.mp later with rfl | later
    · exact absurd older (Nat.lt_irrefl a)
    · exact absurd older (Nat.lt_asymm (younger a later))

theorem WellFormed.faultAt?_eq (h : t.WellFormed) (listing : ScopeId → List (Ident × Entry))
    (hs : s ∈ t) : t.faultAt? listing s = (listing s).findSome? (t.entryDefect? s) := by
  rw [faultAt?, h.placeDefect?_eq_none hs, Option.none_or, h.entryFault?_eq]

section listing

variable {listing : ScopeId → List (Ident × Entry)} {d : Defect} (h : t.Reachable)
  (lists : t.Lists listing)

include h lists

theorem Reachable.faultAt?_eq_some (hs : s ∈ t) (found : t.faultAt? listing s = some d) :
    t.built ∧ ∃ n, d = .unresolved s n ∧ t.entryAt? s n = some .used := by
  rw [h.wellFormed.faultAt?_eq listing hs] at found
  obtain ⟨⟨n, e⟩, listed, fault⟩ := List.exists_of_findSome?_eq_some found
  have entry := mem_entries.mp ((lists s).mem_iff.mp listed)
  rw [h.entryDefect?_eq entry] at fault
  split_ifs at fault with opened
  obtain ⟨rfl, built⟩ := opened
  exact ⟨built, n, (Option.some.inj fault).symm, entry⟩

theorem Reachable.faultAt?_eq_none (hs : s ∈ t) :
    t.faultAt? listing s = none ↔ t.built = false ∨ ∀ n, t.entryAt? s n ≠ some .used := by
  constructor
  · intro clean
    rw [h.wellFormed.faultAt?_eq listing hs, List.findSome?_eq_none_iff] at clean
    by_contra opened
    obtain ⟨built, used⟩ := not_or.mp opened
    obtain ⟨n, used⟩ := not_forall_not.mp used
    have fault := clean (n, .used) ((lists s).mem_iff.mpr (mem_entries.mpr used))
    rw [h.entryDefect?_eq used, if_pos ⟨rfl, eq_true_of_ne_false built⟩] at fault
    cases fault
  · intro closed
    by_contra faulty
    obtain ⟨d, found⟩ := Option.ne_none_iff_exists'.mp faulty
    obtain ⟨built, n, -, used⟩ := h.faultAt?_eq_some lists hs found
    exact closed.elim (by simp [built]) fun settled => settled n used

theorem Reachable.inspect_eq_none :
    t.inspect listing = none ↔ t.built = false ∨ ∀ s n, t.entryAt? s n ≠ some .used := by
  rw [inspect, List.findSome?_eq_none_iff]
  constructor
  · intro clean
    refine or_iff_not_imp_left.mpr fun built s n used => ?_
    have hs := mem_of_entryAt? used
    exact ((h.faultAt?_eq_none lists hs).mp (clean s (List.mem_range.mpr hs))).elim built (· n used)
  · intro closed s listed
    exact (h.faultAt?_eq_none lists (List.mem_range.mp listed)).mpr (closed.imp_right (· s))

/-- What is found is an open name of the oldest scope that has one. -/
theorem Reachable.inspect_eq_some (found : t.inspect listing = some d) : t.built ∧ ∃ s n,
    d = .unresolved s n ∧ t.entryAt? s n = some .used ∧ ∀ a < s, ∀ m, t.entryAt? a m ≠ some .used := by
  obtain ⟨before, s, after, order, fault, clean⟩ := List.findSome?_eq_some_iff.mp found
  have hs : s ∈ t := by
    have listed : s ∈ t.ids := by simp [order]
    exact List.mem_range.mp listed
  obtain ⟨built, n, rfl, used⟩ := h.faultAt?_eq_some lists hs fault
  refine ⟨built, s, n, rfl, used, fun a older m opened => ?_⟩
  have ha := mem_of_entryAt? opened
  have first : a ∈ before := mem_before_of_lt order ha older
  exact ((h.faultAt?_eq_none lists ha).mp (clean a first)).elim (by simp [built]) (· m opened)

end listing

/-! ### Main result -/

/-- An audit finds nothing exactly if the analysis is not complete or no name is open, and otherwise
    an open name of the oldest scope that has one. -/
theorem audit_exact (h : t.Reachable) :
    (∀ listing, t.Lists listing →
      (t.inspect listing = none ↔ t.built = false ∨ ∀ s n, t.entryAt? s n ≠ some .used) ∧
      ∀ d, t.inspect listing = some d → t.built ∧ ∃ s n, d = .unresolved s n ∧
        t.entryAt? s n = some .used ∧ ∀ a < s, ∀ m, t.entryAt? a m ≠ some .used) ∧
    (t.Lists t.entries ∧ t.audit = t.inspect t.entries) ∧
    ∀ {σ : Type} (w : Walker σ π), (∀ s, Walking.Keeps Reachable (w s)) → ∀ x, match w.build (x, t) with
      | .ok _ y => y.2.Reachable ∧ ∀ listing, y.2.Lists listing → y.2.inspect listing = none
      | .error _ y => y.2.Reachable := by
  refine ⟨fun listing lists => ⟨h.inspect_eq_none lists, fun d => h.inspect_eq_some lists⟩,
    ⟨fun s => .refl _, h.wellFormed.audit_eq⟩, fun w hw x => ?_⟩
  have keeps := Walker.build_reachable hw
  cases built : w.build (x, t) with
  | error e y => exact keeps.of_error built h
  | ok _ y =>
    have kept : y.2.Reachable := keeps.of_ok built h
    obtain ⟨v, reached, finished⟩ := Walker.build_eq_ok hw h built
    refine ⟨kept, fun listing lists => (kept.inspect_eq_none lists).mpr (.inr fun s n => ?_)⟩
    rw [finished]
    exact reached.wellFormed.settled.complete s n

/-- The method and the class read names after the analysis has been completed. -/
def readAfterwards : ScopeTree Unit :=
  methodInClass.finish.recordAll [(2, .load ⟨8⟩), (1, .load ⟨7⟩), (1, .load ⟨9⟩)]

theorem audit_exact_readAfterwards :
    readAfterwards.Reachable ∧ readAfterwards.audit = some (.unresolved 1 ⟨7⟩) ∧
      (∀ m, readAfterwards.entryAt? ScopeId.root m ≠ some .used) ∧
      ∀ listing, readAfterwards.Lists listing → readAfterwards.inspect listing ≠ none := by
  have reached : readAfterwards.Reachable :=
    .recordAll _ ((Reachable.recordAll _ (.new ())).step (.finish _))
  have found : readAfterwards.audit = some (.unresolved 1 ⟨7⟩) := by decide +kernel
  have read : readAfterwards.entryAt? 2 ⟨8⟩ = some .used := by decide +kernel
  obtain ⟨exact, ⟨lists, same⟩, -⟩ := audit_exact reached
  obtain ⟨built, s, n, eq, -, first⟩ := (exact _ lists).2 _ (same.symm.trans found)
  obtain ⟨rfl, rfl⟩ := Defect.unresolved.inj eq
  refine ⟨reached, found, first ScopeId.root Nat.zero_lt_one, fun listing lists clean => ?_⟩
  exact ((exact listing lists).1.mp clean).elim (by simp [built]) fun settled => settled 2 ⟨8⟩ read

end ScopeTree

end Scoping
