import Mathlib.Logic.Relation
import Scoping.Proofs.Settling

/-! Elementary changes. All that reports and the end of the analysis do to a tree comes down to a few
    elementary changes, each with its reason: a new entry for one name, a new scope, a mark. A property
    of trees is kept by every report if it is kept by every elementary change, and there is no need to
    look at the reports again. -/

namespace Scoping

namespace ScopeTree

variable {π : Type} {t u : ScopeTree π} {s : ScopeId} {n : Ident}

open Relation

/-! ### Elementary changes -/

/-- Why a name gets an entry in a scope. -/
inductive Reason (t : ScopeTree π) (s : ScopeId) (n : Ident) : Entry → Prop
  /-- The name is read for the first time. -/
  | use (absent : t.entryAt? s n = none) : Reason t s n .used
  /-- The name is bound. -/
  | bind (free : t.Undecided s n) : Reason t s n .bound
  /-- The name is bound in a scope that takes it from the global scope. -/
  | bindGlobal {a : ScopeId} {declared : Bool} (here : s = ScopeId.root)
      (global : t.entryAt? a n = some (.global declared)) : Reason t s n .bound
  /-- The name is captured from its target. -/
  | capture {target : ScopeId} (free : t.Undecided s n) (found : t.capture? s n = some target) :
      Reason t s n (.captured target)
  /-- An assignment expression in a comprehension binds the name in toplevel code. -/
  | note {target : ScopeId} (free : t.Undecided s n) (inside : t.kind? s = some .comprehension)
      (child : ∃ c ∈ t.path s, t.parent? c = some target ∧ t.kind? c = some .comprehension)
      (top : t.kind? target = some .toplevel) (home : t.home target n = target) :
      Reason t s n (.captured target)
  /-- The name is declared global. The global scope has bound it before. -/
  | declare (inner : s ≠ ScopeId.root)
      (rule : t.entryAt? s n = none ∨ ∃ declared, t.entryAt? s n = some (.global declared))
      (bound : t.entryAt? ScopeId.root n = some .bound ∨
        ∃ target, t.entryAt? ScopeId.root n = some (.captured target)) : Reason t s n (.global true)
  /-- No scope decides the name. The global scope has taken note of it before. -/
  | fallThrough (used : t.entryAt? s n = some .used) (noted : t.entryAt? ScopeId.root n ≠ none) :
      Reason t s n (.global false)

/-- One elementary change of a tree. -/
inductive Change (t : ScopeTree π) : ScopeTree π → Prop
  | entry {s : ScopeId} {n : Ident} {e : Entry} (mem : s ∈ t) (reason : Reason t s n e) :
      Change t (t.setEntry s n e)
  | push {p : ScopeId} {kind : ScopeKind} (mem : p ∈ t) (fit : fits kind p) (name : Option Ident)
      (payload : π) : Change t (t.push p kind name payload)
  | mark (s : ScopeId) (on : Bool) : Change t (t.setInIterable s on)
  | complete : Change t { t with built := true }

/-- A chain of elementary changes. -/
abbrev Changes : ScopeTree π → ScopeTree π → Prop := ReflTransGen Change

theorem Change.wellFormed (h : t.WellFormed) : Change t u → u.WellFormed
  | .entry .. => h.of_sameScopes (sameScopes_setEntry ..)
  | .push mem fit name payload => h.push mem fit name payload
  | .mark s on => h.congr (size_setInIterable ..) (kind?_setInIterable t s on)
      (enclosing_setInIterable t s on) (nested_setInIterable t s on)
  | .complete => h.congr rfl (fun _ => rfl) (fun _ => rfl) (fun _ => rfl)

theorem Changes.wellFormed (h : t.WellFormed) (hu : Changes t u) : u.WellFormed := by
  induction hu with
  | refl => exact h
  | tail _ change ih => exact change.wellFormed ih

/-! ### Reports as chains of changes -/

theorem changes_load (hs : s ∈ t) (n : Ident) : Changes t (t.load s n) := by
  rw [load]
  split
  · rename_i absent
    exact .single (.entry hs (.use absent))
  · exact .refl

theorem changes_store (hr : ScopeId.root ∈ t) (hs : s ∈ t) (n : Ident) : Changes t (t.store s n) := by
  rw [store]
  split
  · rename_i absent
    exact .single (.entry hs (.bind (.inl absent)))
  · rename_i used
    exact .single (.entry hs (.bind (.inr used)))
  · rename_i global
    exact .single (.entry hr (.bindGlobal rfl global))
  iterate 2 exact .refl

/-- A new entry in a scope other than those in which a name is bound may come before or after. -/
theorem setEntry_store {a : ScopeId} (ne : s ≠ a) (inner : s ≠ ScopeId.root) (hs : s ∈ t) (n m : Ident)
    (e : Entry) : (t.setEntry s n e).store a m = (t.store a m).setEntry s n e := by
  have same : (t.setEntry s n e).entryAt? a m = t.entryAt? a m := by
    rw [entryAt?_setEntry t hs, if_neg fun here => ne here.1]
  unfold store
  rw [same]
  split
  iterate 2 exact t.setEntry_comm ne ..
  · exact t.setEntry_comm inner ..
  iterate 2 rfl

/-- Binding a name makes the scope at hand decide where it lives. -/
theorem entryAt?_store_self (hr : ScopeId.root ∈ t) (hs : s ∈ t) (n : Ident) :
    (t.store s n).entryAt? s n = some .bound ∨
      (∃ target, (t.store s n).entryAt? s n = some (.captured target)) ∨
      s ≠ ScopeId.root ∧ ∃ declared, (t.store s n).entryAt? s n = some (.global declared) := by
  unfold store
  split
  iterate 2 exact .inl (by rw [entryAt?_setEntry t hs, if_pos ⟨rfl, rfl⟩])
  · rename_i declared global
    rw [entryAt?_setEntry t hr]
    split_ifs with root
    · exact .inl rfl
    · exact .inr (.inr ⟨fun here => root ⟨here.symm, rfl⟩, declared, global⟩)
  · rename_i bound
    exact .inl bound
  · rename_i target captured
    exact .inr (.inl ⟨target, captured⟩)

theorem entryAt?_store_root (hr : ScopeId.root ∈ t) (n : Ident) :
    (t.store ScopeId.root n).entryAt? ScopeId.root n = some .bound ∨
      ∃ target, (t.store ScopeId.root n).entryAt? ScopeId.root n = some (.captured target) :=
  (entryAt?_store_self hr hr n).imp_right fun decided => decided.resolve_right fun away => away.1 rfl

theorem entryAt?_store_other (hs : s ∈ t) (hr : ScopeId.root ∈ t) {a : ScopeId} {m : Ident}
    (hne : n ≠ m ∨ a ≠ s ∧ a ≠ ScopeId.root) : (t.store s n).entryAt? a m = t.entryAt? a m := by
  have other : ∀ b ∈ t, b = s ∨ b = ScopeId.root →
      (t.setEntry b n .bound).entryAt? a m = t.entryAt? a m := by
    intro b hb hbs
    rw [entryAt?_setEntry t hb, if_neg]
    rintro ⟨rfl, rfl⟩
    rcases hne with hne | hne
    · exact hne rfl
    · exact hbs.elim hne.1 hne.2
  unfold store
  split
  iterate 2 exact other s hs (.inl rfl)
  · exact other _ hr (.inr rfl)
  iterate 2 rfl

/-- What a global declaration does once it is accepted. -/
theorem declareGlobal_eq_ok (hs : s ∈ t) (hu : t.declareGlobal s n = .ok u) :
    s = ScopeId.root ∧ u = t.store s n ∨
    s ≠ ScopeId.root ∧
      (t.entryAt? s n = none ∨ ∃ declared, t.entryAt? s n = some (.global declared)) ∧
      u = (t.store ScopeId.root n).setEntry s n (.global true) := by
  unfold declareGlobal at hu
  split_ifs at hu with root
  · exact .inl ⟨root, (Except.ok.inj hu).symm⟩
  · rw [setEntry_store root root hs] at hu
    refine .inr ⟨root, ?_⟩
    split at hu
    iterate 3 cases hu
    · rename_i declared global
      exact ⟨.inr ⟨declared, global⟩, (Except.ok.inj hu).symm⟩
    · rename_i absent
      exact ⟨.inl absent, (Except.ok.inj hu).symm⟩

theorem changes_declareGlobal (h : t.WellFormed) (hs : s ∈ t) (n : Ident)
    (hu : t.declareGlobal s n = .ok u) : Changes t u := by
  rcases declareGlobal_eq_ok hs hu with ⟨-, rfl⟩ | ⟨inner, rule, rfl⟩
  · exact changes_store h.root_mem hs n
  · have same := sameScopes_store t ScopeId.root n
    refine (changes_store h.root_mem h.root_mem n).tail (.entry ((mem_congr same.size s).mpr hs) ?_)
    refine .declare inner ?_ (entryAt?_store_root h.root_mem n)
    rwa [entryAt?_store_other h.root_mem h.root_mem (.inr ⟨inner, inner⟩)]

/-- What a nonlocal declaration does once it is accepted. -/
theorem declareNonlocal_eq_ok (hu : t.declareNonlocal s n = .ok u) :
    u = t ∨ ∃ target, t.entryAt? s n = none ∧ t.capture? s n = some target ∧
      u = t.setEntry s n (.captured target) := by
  unfold declareNonlocal at hu
  split_ifs at hu
  split at hu
  iterate 3 cases hu
  · exact .inl (Except.ok.inj hu).symm
  · rename_i absent
    split at hu
    · rename_i target found
      exact .inr ⟨target, absent, found, (Except.ok.inj hu).symm⟩
    · cases hu

theorem changes_declareNonlocal (hs : s ∈ t) (n : Ident) (hu : t.declareNonlocal s n = .ok u) :
    Changes t u := by
  rcases declareNonlocal_eq_ok hu with rfl | ⟨target, absent, found, rfl⟩
  · exact .refl
  · exact .single (.entry hs (.capture (.inl absent) found))

/-- The way to the scope in which an assignment expression binds leads through comprehensions that
    do not have the name for an iteration variable. -/
theorem expressionTarget_eq_ok : ∀ {around : List ScopeId} {s target : ScopeId},
    t.expressionTarget n s around = .ok target → ∃ inner outer, s :: around = inner ++ target :: outer ∧
      ∀ a ∈ inner, t.kind? a = some .comprehension ∧ t.entryAt? a n ≠ some .bound
  | [], s, target, h => by
    unfold expressionTarget at h
    split_ifs at h
    cases h
    exact ⟨[], [], rfl, fun _ ha => absurd ha List.not_mem_nil⟩
  | outer :: rest, s, target, h => by
    unfold expressionTarget at h
    split_ifs at h with _ hk he
    · obtain ⟨inner, after, eq, hi⟩ := expressionTarget_eq_ok h
      refine ⟨s :: inner, after, by rw [eq]; rfl, ?_⟩
      rintro a (_ | ⟨_, ha⟩)
      · exact ⟨hk, he⟩
      · exact hi a ha
    · cases h
      exact ⟨[], outer :: rest, rfl, fun _ ha => absurd ha List.not_mem_nil⟩

/-- What an assignment expression does once its target is found. -/
theorem assignExpr_eq_ok (hu : t.assignExpr s n = .ok u) :
    ∃ target, t.expressionTarget n s (t.enclosing s) = .ok target ∧
      (target = s ∧ u = t.store s n ∨
       target ≠ s ∧ (t.store target n).kind? target = some .toplevel ∧
         (t.store target n).home target n = target ∧ u = (t.store target n).noteToplevel s target n ∨
       target ≠ s ∧ ¬((t.store target n).kind? target = some .toplevel ∧
         (t.store target n).home target n = target) ∧ u = (t.store target n).load s n) := by
  unfold assignExpr at hu
  split at hu
  · cases hu
  · rename_i target found
    refine ⟨target, found, ?_⟩
    split_ifs at hu with here
    · exact .inl ⟨here, (Except.ok.inj hu).symm⟩
    · dsimp only at hu
      split_ifs at hu with top
      · exact .inr (.inl ⟨here, top.1, top.2, (Except.ok.inj hu).symm⟩)
      · exact .inr (.inr ⟨here, top, (Except.ok.inj hu).symm⟩)

theorem changes_noteToplevel {target : ScopeId} (hs : s ∈ t) (inside : t.kind? s = some .comprehension)
    (child : ∃ c ∈ t.path s, t.parent? c = some target ∧ t.kind? c = some .comprehension)
    (top : t.kind? target = some .toplevel) (home : t.home target n = target) :
    Changes t (t.noteToplevel s target n) := by
  rw [noteToplevel]
  split
  · rename_i absent
    exact .single (.entry hs (.note (.inl absent) inside child top home))
  · rename_i used
    exact .single (.entry hs (.note (.inr used) inside child top home))
  · exact .refl

/-- On a way through comprehensions to a scope, the scope directly below it is a comprehension. -/
theorem exists_comprehension_child (h : t.WellFormed) {inner outer : List ScopeId} {target : ScopeId}
    (way : t.enclosing s = inner ++ target :: outer)
    (comprehensions : ∀ a ∈ s :: inner, t.kind? a = some .comprehension) :
    ∃ c ∈ t.path s, t.parent? c = some target ∧ t.kind? c = some .comprehension := by
  obtain ⟨-, around⟩ := h.enclosing_split s way
  obtain ⟨c, hc, hp⟩ := h.exists_child (way ▸ List.mem_append_right inner List.mem_cons_self)
  refine ⟨c, hc, hp, comprehensions c ?_⟩
  have lt := (h.enclosing_of_parent? hp).2.1
  rw [path, way, ← List.cons_append, List.mem_append] at hc
  refine hc.resolve_right fun hc => ?_
  rcases List.mem_cons.mp hc with rfl | hc
  · exact absurd lt (Nat.lt_irrefl c)
  · exact absurd (h.lt_of_mem_enclosing (around ▸ hc)) (Nat.lt_asymm lt)

theorem changes_assignExpr (h : t.WellFormed) (hs : s ∈ t) (hu : t.assignExpr s n = .ok u) :
    Changes t u := by
  obtain ⟨target, found, cases⟩ := assignExpr_eq_ok hu
  obtain ⟨inner, outer, way, comprehensions⟩ := expressionTarget_eq_ok found
  cases inner with
  | nil =>
    obtain ⟨rfl, -⟩ := List.cons.inj way
    rcases cases with ⟨-, rfl⟩ | ⟨ne, -⟩ | ⟨ne, -⟩
    · exact changes_store h.root_mem hs n
    iterate 2 exact absurd rfl ne
  | cons b inner =>
    obtain ⟨rfl, around⟩ := List.cons.inj way
    have ht : target ∈ t.enclosing s := around ▸ List.mem_append_right inner List.mem_cons_self
    have same := sameScopes_store t target n
    have hs' : s ∈ t.store target n := (mem_congr same.size s).mpr hs
    have bound := changes_store h.root_mem (h.mem_of_mem_enclosing ht) n
    rcases cases with ⟨rfl, -⟩ | ⟨-, top, home, rfl⟩ | ⟨-, -, rfl⟩
    · exact absurd (h.lt_of_mem_enclosing ht) (Nat.lt_irrefl _)
    · have inside := (comprehensions s List.mem_cons_self).1
      have child := exists_comprehension_child (h.of_sameScopes same) ((same.enclosing s).trans around)
        fun a ha => (same.kind? a).trans (comprehensions a ha).1
      exact bound.trans (changes_noteToplevel hs' ((same.kind? s).trans inside) child top home)
    · exact bound.trans (changes_load hs' n)

theorem bindOwnName_cases (t : ScopeTree π) (p : ScopeId) (kind : ScopeKind) (name : Option Ident) :
    t.bindOwnName p kind name = t ∨ ∃ n, t.bindOwnName p kind name = t.store p n := by
  cases name with
  | none => exact .inl rfl
  | some n =>
    rw [bindOwnName]
    split_ifs
    · exact .inr ⟨n, rfl⟩
    · exact .inl rfl

theorem sameScopes_bindOwnName (t : ScopeTree π) (p : ScopeId) (kind : ScopeKind) (name : Option Ident) :
    SameScopes t (t.bindOwnName p kind name) := by
  rcases t.bindOwnName_cases p kind name with eq | ⟨n, eq⟩ <;> rw [eq]
  · exact .refl t
  · exact sameScopes_store t p n

theorem nest_eq_ok {p : ScopeId} {kind : ScopeKind} {name : Option Ident} {payload : π}
    (hu : t.nest p kind name payload = .ok u) :
    fits kind p ∧ p ∈ t ∧ u = (t.bindOwnName p kind name).push p kind name payload := by
  unfold nest at hu
  split_ifs at hu with placed full
  · exact ⟨placed.1, placed.2, (Except.ok.inj hu).symm⟩

theorem changes_nest (h : t.WellFormed) {p : ScopeId} {kind : ScopeKind} {name : Option Ident}
    {payload : π} (hu : t.nest p kind name payload = .ok u) : Changes t u := by
  obtain ⟨fit, hp, rfl⟩ := nest_eq_ok hu
  have same := sameScopes_bindOwnName t p kind name
  have own : Changes t (t.bindOwnName p kind name) := by
    rcases t.bindOwnName_cases p kind name with eq | ⟨n, eq⟩ <;> rw [eq]
    exact changes_store h.root_mem hp n
  exact own.tail (.push ((mem_congr same.size p).mpr hp) fit name payload)

theorem changes_act (h : t.WellFormed) (hs : s ∈ t) {a : Action π} (hu : t.act s a = .ok u) :
    Changes t u := by
  cases a with
  | load n =>
    cases hu
    exact changes_load hs n
  | store n =>
    cases hu
    exact changes_store h.root_mem hs n
  | assignExpr n => exact changes_assignExpr h hs hu
  | declareNonlocal n => exact changes_declareNonlocal hs n hu
  | declareGlobal n => exact changes_declareGlobal h hs n hu
  | nest kind name payload => exact changes_nest h hu
  | setInIterable on =>
    cases hu
    exact .single (.mark s on)

/-! ### Settling as a chain of changes -/

theorem changes_settleName (h : t.WellFormed) (used : t.entryAt? s n = some .used) :
    Changes t (t.settleName s n) := by
  have hs := mem_of_entryAt? used
  rw [settleName]
  split
  · rename_i target found
    exact .single (.entry hs (.capture (.inr used) found))
  · have same := sameScopes_load t ScopeId.root n
    refine (changes_load h.root_mem n).tail
      (.entry ((mem_congr same.size s).mpr hs) (.fallThrough ?_ ?_))
    · rw [entryAt?_load t h.root_mem]
      split_ifs with hr
      · rw [hr.1, used]
        rfl
      · exact used
    · rw [entryAt?_load t h.root_mem, if_pos ⟨rfl, rfl⟩]
      exact Option.some_ne_none _

theorem changes_foldl_settleName : ∀ {names : List Ident} {t : ScopeTree π}, t.WellFormed →
    names.Nodup → (∀ n ∈ names, t.entryAt? s n = some .used) → Changes t (names.foldl (settleName s) t)
  | [], _, _, _, _ => .refl
  | n :: names, t, h, hd, used => by
    obtain ⟨hn, hd⟩ := List.nodup_cons.mp hd
    obtain ⟨first, rest⟩ := List.forall_mem_cons.mp used
    refine (changes_settleName h first).trans
      (changes_foldl_settleName (h.of_sameScopes (sameScopes_settleName t s n)) hd fun m hm => ?_)
    have hne : n ≠ m := fun h => hn (h ▸ hm)
    rw [entryAt?_settleName_of_ne h.root_mem (mem_of_entryAt? first) hne, rest m hm]

theorem changes_foldl_settleScope : ∀ (order : List ScopeId) {t : ScopeTree π}, t.WellFormed →
    Changes t (order.foldl settleScope t)
  | [], _, _ => .refl
  | s :: order, t, h =>
    (changes_foldl_settleName h nodup_pending fun _ hn => mem_pending.mp hn).trans
      (changes_foldl_settleScope order (h.of_sameScopes (sameScopes_settleScope t s)))

theorem changes_finish (h : t.WellFormed) : Changes t t.finish := by
  have settled : Changes t t.settle := by
    rw [settle, settleWithin_eq]
    exact changes_foldl_settleScope _ h
  exact settled.tail .complete

end ScopeTree

end Scoping
