import Mathlib.Data.List.Nodup
import Mathlib.Data.List.Perm.Basic
import Scoping.Proofs.Reachable
import Scoping.Scope.Outline

/-! The arena of a tree. Where a scope stands is on record three times: in its parent, in the list
    of what is nested in its parent, and in the order of creation. The form of a tree keeps the
    three in accord, and this is all that walks need: a walk outward goes to smaller and smaller ids
    and ends at the global scope, and a walk over the nested lists goes to larger and larger ones,
    so it ends as well, and it comes to every scope exactly once, since a scope is listed once and
    by its parent alone. -/

namespace Scoping

namespace ScopeTree

variable {π : Type} {t : ScopeTree π} {s a p c : ScopeId}

/-! ### Outward -/

/-- The scopes met on the way from parent to parent, up to a scope that has none. -/
inductive ParentPath (t : ScopeTree π) : ScopeId → List ScopeId → Prop
  | top {s : ScopeId} (alone : t.parent? s = none) : ParentPath t s []
  | up {s p : ScopeId} {rest : List ScopeId} (parent : t.parent? s = some p)
      (path : ParentPath t p rest) : ParentPath t s (p :: rest)

theorem ParentPath.unique {way way' : List ScopeId} (path : t.ParentPath s way)
    (path' : t.ParentPath s way') : way = way' := by
  induction path generalizing way' with
  | top alone =>
    cases path' with
    | top => rfl
    | up parent => simp [alone] at parent
  | up parent _ ih =>
    cases path' with
    | top alone => simp [alone] at parent
    | up parent' path' =>
      obtain rfl : _ = _ := Option.some.inj (parent.symm.trans parent')
      rw [ih path']

namespace WellFormed

theorem parentPath (h : t.WellFormed) (s : ScopeId) : t.ParentPath s (t.enclosing s) := by
  induction s using Nat.strongRecOn with
  | ind s ih =>
    cases hp : t.parent? s with
    | none =>
      rw [List.head?_eq_none_iff.mp hp]
      exact .top hp
    | some p =>
      obtain ⟨-, lt, around⟩ := h.enclosing_of_parent? hp
      rw [around]
      exact .up hp (ih p lt)

/-- The way from parent to parent is the list of the scopes around a scope. -/
theorem parentPath_iff (h : t.WellFormed) {way : List ScopeId} :
    t.ParentPath s way ↔ way = t.enclosing s := by
  refine ⟨fun path => path.unique (h.parentPath s), ?_⟩
  rintro rfl
  exact h.parentPath s

theorem parent?_eq_none_iff (h : t.WellFormed) (hs : s ∈ t) : t.parent? s = none ↔ s = ScopeId.root := by
  constructor
  · intro alone
    by_contra inner
    obtain ⟨p, -, around⟩ := h.below s hs inner
    simp [parent?, around, path] at alone
  · rintro rfl
    simp [parent?, h.enclosing_root]

theorem kind?_eq_global_iff (h : t.WellFormed) (hs : s ∈ t) :
    t.kind? s = some .global ↔ s = ScopeId.root := by
  constructor
  · intro global
    by_contra inner
    exact h.kind_below s hs inner global
  · rintro rfl
    exact h.kind_root

theorem globalScope_eq_root (h : t.WellFormed) (hs : s ∈ t) : t.globalScope s = ScopeId.root := by
  induction s using Nat.strongRecOn with
  | ind s ih =>
    cases hp : t.parent? s with
    | none =>
      rw [globalScope, List.head?_eq_none_iff.mp hp]
      exact (h.parent?_eq_none_iff hs).mp hp
    | some p =>
      obtain ⟨-, lt, around⟩ := h.enclosing_of_parent? hp
      rw [globalScope, around, path, List.getLastD_cons]
      exact ih p lt (Nat.lt_trans lt hs)

/-! ### Inward -/

theorem nested_pairwise (h : t.WellFormed) (s : ScopeId) : (t.nested s).Pairwise (· < ·) := by
  rw [h.nested]
  exact List.pairwise_lt_range.filter _

theorem nested_nodup (h : t.WellFormed) (s : ScopeId) : (t.nested s).Nodup :=
  (h.nested_pairwise s).imp fun lt => Nat.ne_of_lt lt

/-- A scope is listed once, by its parent, and by no other scope. -/
theorem count_nested (h : t.WellFormed) (p c : ScopeId) :
    (t.nested p).count c = if t.parent? c = some p then 1 else 0 := by
  rw [(h.nested_nodup p).count]
  simp only [h.mem_nested]

end WellFormed

/-! ### The walk over the nested lists -/

/-- The two orders of a walk, the outer scope first or last, come to the same scopes. -/
theorem preOrderWithin_perm : ∀ (depth : Nat) (s : ScopeId),
    (t.preOrderWithin depth s).Perm (t.postOrderWithin depth s)
  | 0, _ => .refl _
  | depth + 1, s => by
    have below : ((t.nested s).flatMap (t.preOrderWithin depth)).Perm
        ((t.nested s).flatMap (t.postOrderWithin depth)) :=
      List.Perm.flatMap_left _ fun c _ => preOrderWithin_perm depth c
    exact (below.cons s).trans (List.perm_append_singleton s _).symm

namespace WellFormed

theorem path_of_mem_preOrderWithin (h : t.WellFormed) {depth : Nat} (ha : a ∈ t.preOrderWithin depth s) :
    s ∈ t.path a :=
  path_of_mem_postOrderWithin h ((preOrderWithin_perm depth s).mem_iff.mp ha)

/-- Of two scopes in one list only one is on a way to the root. -/
theorem eq_of_mem_path (h : t.WellFormed) {c' : ScopeId} (hc : t.parent? c = some s)
    (hc' : t.parent? c' = some s) (ha : c ∈ t.path a) (ha' : c' ∈ t.path a) : c = c' := by
  -- of two scopes on one way the inner would have the outer around its parent
  have apart {b b' : ScopeId} (hb : t.parent? b = some s) (hb' : t.parent? b' = some s) :
      b ∉ t.enclosing b' := by
    obtain ⟨-, -, around⟩ := h.enclosing_of_parent? hb'
    obtain ⟨-, lt, -⟩ := h.enclosing_of_parent? hb
    rw [around]
    intro hm
    rcases List.mem_cons.mp hm with rfl | hm
    · exact Nat.lt_irrefl b lt
    · exact Nat.lt_asymm lt (h.lt_of_mem_enclosing hm)
  rcases h.path_total ha ha' with around | around
  · rcases List.mem_cons.mp around with rfl | around
    · rfl
    · exact absurd around (apart hc hc')
  · exact absurd around (apart hc' hc)

theorem le_of_mem_path (h : t.WellFormed) (ha : a ∈ t.path s) : a ≤ s := by
  rcases List.mem_cons.mp ha with rfl | around
  · exact Nat.le_refl a
  · exact Nat.le_of_lt (h.lt_of_mem_enclosing around)

theorem lt_of_mem_nested (h : t.WellFormed) (listed : c ∈ t.nested s) : s < c :=
  (h.enclosing_of_parent? (h.mem_nested.mp listed)).2.1

/-- A walk never comes back to a scope, nor does it come to one around a scope where it has been. -/
theorem pairwise_preOrderWithin (h : t.WellFormed) :
    ∀ (depth : Nat) (s : ScopeId), (t.preOrderWithin depth s).Pairwise fun a b => b ∉ t.path a
  | 0, _ => .nil
  | depth + 1, s => by
    refine List.pairwise_cons.mpr ⟨fun b hb around => ?_,
      List.pairwise_flatMap.mpr ⟨fun c _ => pairwise_preOrderWithin h depth c, ?_⟩⟩
    · obtain ⟨c, hc, hb⟩ := List.mem_flatMap.mp hb
      have inner : c ≤ b := h.le_of_mem_path (h.path_of_mem_preOrderWithin hb)
      exact Nat.not_lt_of_le (Nat.le_trans inner (h.le_of_mem_path around)) (h.lt_of_mem_nested hc)
    · refine (h.nested_nodup s).imp_of_mem fun {c c'} hc hc' ne a ha b hb around => ne ?_
      have outer : c' ∈ t.path a := by
        rcases List.mem_cons.mp (h.path_of_mem_preOrderWithin hb) with rfl | outer
        · exact around
        · exact List.mem_cons_of_mem a (h.enclosing_subset_of_path around outer)
      have inner := h.path_of_mem_preOrderWithin ha
      exact h.eq_of_mem_path (h.mem_nested.mp hc) (h.mem_nested.mp hc') inner outer

theorem nodup_preOrderWithin (h : t.WellFormed) (depth : Nat) (s : ScopeId) :
    (t.preOrderWithin depth s).Nodup := by
  refine (h.pairwise_preOrderWithin depth s).imp ?_
  rintro a b away rfl
  exact away List.mem_cons_self

/-- From a scope inward there are not more scopes than ids after it, so a depth beyond them
    makes no difference. -/
theorem preOrderWithin_eq (h : t.WellFormed) : ∀ {depth depth' : Nat} {s : ScopeId}, s ∈ t →
    t.size ≤ s + depth → t.size ≤ s + depth' → t.preOrderWithin depth s = t.preOrderWithin depth' s
  | 0, _, s, hs, le, _ => absurd hs (Nat.not_lt.mpr le)
  | _ + 1, 0, s, hs, _, le' => absurd hs (Nat.not_lt.mpr le')
  | depth + 1, depth' + 1, s, _, le, le' => by
    rw [preOrderWithin, preOrderWithin]
    congr 1
    refine List.flatMap_congr fun c hc => ?_
    obtain ⟨mem, lt, -⟩ := h.enclosing_of_parent? (h.mem_nested.mp hc)
    have shorter {rest : Nat} (le : t.size ≤ s + (rest + 1)) : t.size ≤ c + rest := by
      rw [← Nat.succ_add_eq_add_succ] at le
      exact Nat.le_trans le (Nat.add_le_add_right lt rest)
    exact preOrderWithin_eq h mem (shorter le) (shorter le')

/-- A walk from a scope is the scope followed by the walks from the scopes in its list. -/
theorem preOrder_eq (h : t.WellFormed) (hs : s ∈ t) :
    t.preOrder s = s :: (t.nested s).flatMap t.preOrder := by
  have deeper : t.preOrder s = t.preOrderWithin (t.size + 1) s :=
    h.preOrderWithin_eq hs (Nat.le_add_left ..) (by omega)
  rw [deeper, preOrderWithin]
  rfl

/-- A walk from the global scope comes to every scope once. -/
theorem preOrder_perm_ids (h : t.WellFormed) : (t.preOrder ScopeId.root).Perm t.ids := by
  refine (List.perm_ext_iff_of_nodup (h.nodup_preOrderWithin _ _) List.nodup_range).mpr fun a => ?_
  rw [(preOrderWithin_perm ..).mem_iff, List.mem_range]
  constructor
  · intro ha
    exact h.mem_of_mem_path h.root_mem (path_of_mem_postOrderWithin h ha)
  · intro ha
    refine mem_postOrderWithin h (h.root_mem_path ha) ?_
    exact Nat.lt_of_le_of_lt (h.length_enclosing_le a) (Nat.lt_of_lt_of_le ha (Nat.le_add_left ..))

/-- A walk from the global scope comes to every other scope after the one it is listed below. -/
theorem preOrder_outer (h : t.WellFormed) {before after : List ScopeId}
    (order : t.preOrder ScopeId.root = before ++ s :: after) :
    s = ScopeId.root ∨ ∃ p ∈ before, s ∈ t.nested p := by
  have came (a : ScopeId) : a ∈ before ++ s :: after ↔ a ∈ t := by
    rw [← order, h.preOrder_perm_ids.mem_iff]
    exact List.mem_range
  have hs : s ∈ t := (came s).mp (List.mem_append_right before List.mem_cons_self)
  have away : (t.preOrder ScopeId.root).Pairwise fun a b => b ∉ t.path a :=
    h.pairwise_preOrderWithin t.size ScopeId.root
  cases parent : t.parent? s with
  | none => exact .inl ((h.parent?_eq_none_iff hs).mp parent)
  | some p =>
    obtain ⟨-, lt, around⟩ := h.enclosing_of_parent? parent
    have way : p ∈ t.path s := by
      rw [path, around]
      exact List.mem_cons_of_mem s List.mem_cons_self
    rw [order, List.pairwise_append, List.pairwise_cons] at away
    obtain ⟨-, ⟨later, -⟩, -⟩ := away
    have first : p ∈ before := by
      rcases List.mem_append.mp ((came p).mpr (Nat.lt_trans lt hs)) with before | rest
      · exact before
      · rcases List.mem_cons.mp rest with rfl | after
        · exact absurd lt (Nat.lt_irrefl p)
        · exact absurd way (later p after)
    exact .inr ⟨p, first, h.mem_nested.mpr parent⟩

/-- Settling comes to every scope once as well. -/
theorem settle_perm_ids (h : t.WellFormed) :
    ∃ order : List ScopeId, order.Perm t.ids ∧ t.settle = order.foldl settleScope t :=
  ⟨_, (preOrderWithin_perm ..).symm.trans h.preOrder_perm_ids, settleWithin_eq ..⟩

end WellFormed

/-! ### Main result -/

/-- How the scopes of a tree are arranged in the arena. -/
structure Arranged (t : ScopeTree π) : Prop where
  root : ScopeId.root ∈ t
  global : ∀ s ∈ t, t.kind? s = some .global ↔ s = ScopeId.root
  orphan : ∀ s ∈ t, t.parent? s = none ↔ s = ScopeId.root
  older : ∀ s p, t.parent? s = some p → p ∈ t ∧ p < s
  /-- A parent lists what is nested in it, once and the older before the younger, and nothing else. -/
  listed : ∀ p c, (t.nested p).count c = if t.parent? c = some p then 1 else 0
  sorted : ∀ p, (t.nested p).Pairwise (· < ·)
  toplevel : ∀ s, t.kind? s = some .toplevel → t.parent? s = some ScopeId.root
  way : ∀ s ∈ t, ∃ way, (∀ way', t.ParentPath s way' ↔ way' = way) ∧
    t.globalScope s = way.getLastD s ∧ t.globalScope s = ScopeId.root ∧
    t.enclosingClosed? s = way.find? t.isClosed
  preOrder : ∀ s ∈ t, t.preOrder s = s :: (t.nested s).flatMap t.preOrder
  complete : (t.preOrder ScopeId.root).Perm t.ids
  settle : ∃ order : List ScopeId, order.Perm t.ids ∧ t.settle = order.foldl settleScope t

/-- The ways from parent to parent end at the global scope, and the walks over the nested lists come
    to every scope of the arena exactly once. -/
theorem arena_in_order (h : t.Reachable) : Arranged t := by
  have wf := h.wellFormed
  refine {
    root := wf.root_mem
    global := fun s => wf.kind?_eq_global_iff
    orphan := fun s => wf.parent?_eq_none_iff
    older := fun s p hp => ?_
    listed := wf.count_nested
    sorted := wf.nested_pairwise
    toplevel := fun s top => ?_
    way := fun s hs =>
      ⟨t.enclosing s, fun _ => wf.parentPath_iff, rfl, wf.globalScope_eq_root hs, List.head?_filter⟩
    preOrder := fun s => wf.preOrder_eq
    complete := wf.preOrder_perm_ids
    settle := wf.settle_perm_ids }
  · obtain ⟨mem, lt, -⟩ := wf.enclosing_of_parent? hp
    exact ⟨Nat.lt_trans lt mem, lt⟩
  · rw [parent?, wf.toplevel s top]
    rfl

/-- A function and toplevel code with a scope in each, made in turn. -/
def madeInTurn : ScopeTree Unit :=
  (ScopeTree.new ()).recordAll
    [(0, .nest .function none ()), (0, .nest .toplevel none ()), (1, .nest .classBody none ()),
     (2, .nest .lambda none ()), (3, .nest .comprehension none ())]

theorem arena_in_order_madeInTurn :
    madeInTurn.Reachable ∧ madeInTurn.size = 6 ∧
      madeInTurn.preOrder 1 = 1 :: (madeInTurn.nested 1).flatMap madeInTurn.preOrder ∧
      (madeInTurn.preOrder ScopeId.root).Perm [0, 1, 2, 3, 4, 5] ∧
      madeInTurn.preOrder ScopeId.root = [0, 1, 3, 5, 2, 4] ∧
      madeInTurn.enclosingClosed? 5 = some 1 := by
  have h : madeInTurn.Reachable := Reachable.recordAll _ (Reachable.new ())
  have arranged := arena_in_order h
  exact ⟨h, by decide, arranged.preOrder 1 (by decide), arranged.complete, by decide, by decide⟩

end ScopeTree

end Scoping
