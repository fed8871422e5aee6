import Scoping.Proofs.Frame

/-! The form of a tree. The global scope comes first and is the only one of its kind, every other
    scope stands directly below an older one, and a scope lists exactly the scopes that stand
    directly below it, oldest first. The list of the scopes around a scope is then the way to the
    root along parents, and the ways to the root fit together: the way from a scope that lies on the
    way from another is the rest of that way. No report breaks this form. -/

namespace Scoping

namespace ScopeTree

variable {π : Type} {t u : ScopeTree π}

/-- The form that reports keep. -/
structure WellFormed (t : ScopeTree π) : Prop where
  root_mem : ScopeId.root ∈ t
  kind_root : t.kind? ScopeId.root = some .global
  enclosing_root : t.enclosing ScopeId.root = []
  below : ∀ s ∈ t, s ≠ ScopeId.root → ∃ p < s, t.enclosing s = t.path p
  kind_below : ∀ s ∈ t, s ≠ ScopeId.root → t.kind? s ≠ some .global
  toplevel : ∀ s, t.kind? s = some .toplevel → t.enclosing s = [ScopeId.root]
  nested : ∀ s, t.nested s = t.ids.filter fun c => t.parent? c = some s

/-! ### The way to the root -/

namespace WellFormed

/-- The scope that the scope at hand stands in, and with it the way outward. -/
theorem enclosing_eq (h : t.WellFormed) {s : ScopeId} (hs : t.enclosing s ≠ []) :
    s ∈ t ∧ ∃ p < s, t.enclosing s = t.path p := by
  have mem : s ∈ t := by
    by_contra hm
    exact hs (enclosing_of_not_mem hm)
  refine ⟨mem, h.below s mem ?_⟩
  rintro rfl
  exact hs h.enclosing_root

theorem enclosing_of_parent? (h : t.WellFormed) {s p : ScopeId} (hp : t.parent? s = some p) :
    s ∈ t ∧ p < s ∧ t.enclosing s = t.path p := by
  have hs : t.enclosing s ≠ [] := by
    intro hs
    rw [parent?, hs] at hp
    cases hp
  obtain ⟨mem, q, lt, eq⟩ := h.enclosing_eq hs
  rw [parent?, eq] at hp
  cases hp
  exact ⟨mem, lt, eq⟩

/-- The way from a scope that lies on the way from another is the rest of that way. -/
theorem enclosing_split (h : t.WellFormed) : ∀ (s : ScopeId) {before after : List ScopeId} {a : ScopeId},
    t.enclosing s = before ++ a :: after → a < s ∧ t.enclosing a = after := by
  intro s
  induction s using Nat.strongRecOn with
  | ind s ih =>
    intro before after a hs
    obtain ⟨-, p, lt, eq⟩ := h.enclosing_eq (s := s) (by simp [hs])
    rw [eq, path] at hs
    cases before with
    | nil =>
      cases hs
      exact ⟨lt, rfl⟩
    | cons b before =>
      obtain ⟨-, rest⟩ := List.cons.inj hs
      obtain ⟨lt', eq'⟩ := ih p lt rest
      exact ⟨Nat.lt_trans lt' lt, eq'⟩

theorem path_split (h : t.WellFormed) {s a : ScopeId} {before after : List ScopeId}
    (hs : t.path s = before ++ a :: after) : t.enclosing a = after := by
  cases before with
  | nil =>
    obtain ⟨rfl, around⟩ := List.cons.inj hs
    exact around
  | cons b before => exact (h.enclosing_split s (List.cons.inj hs).2).2

theorem lt_of_mem_enclosing (h : t.WellFormed) {s a : ScopeId} (ha : a ∈ t.enclosing s) : a < s := by
  obtain ⟨before, after, hs⟩ := List.append_of_mem ha
  exact (h.enclosing_split s hs).1

theorem mem_of_mem_enclosing (h : t.WellFormed) {s a : ScopeId} (ha : a ∈ t.enclosing s) : a ∈ t := by
  have hs : s ∈ t := (h.enclosing_eq (List.ne_nil_of_mem ha)).1
  exact Nat.lt_trans (h.lt_of_mem_enclosing ha) hs

theorem mem_around (h : t.WellFormed) {s a : ScopeId} (hs : s ∈ t) (ha : a ∈ t.path s) : a ∈ t := by
  rcases List.mem_cons.mp ha with rfl | ha
  · exact hs
  · exact h.mem_of_mem_enclosing ha

theorem mem_of_mem_path (h : t.WellFormed) {s a : ScopeId} (hs : s ∈ t) (ha : s ∈ t.path a) : a ∈ t := by
  rcases List.mem_cons.mp ha with rfl | ha
  · exact hs
  · exact (h.enclosing_eq (List.ne_nil_of_mem ha)).1

/-- What is around a scope that is around another is around the other as well. -/
theorem enclosing_subset (h : t.WellFormed) {s a : ScopeId} (ha : a ∈ t.enclosing s) :
    t.enclosing a ⊆ t.enclosing s := by
  obtain ⟨before, after, hs⟩ := List.append_of_mem ha
  rw [(h.enclosing_split s hs).2, hs]
  exact fun b hb => by simp [hb]

theorem enclosing_subset_of_path (h : t.WellFormed) {s a : ScopeId} (ha : a ∈ t.path s) :
    t.enclosing a ⊆ t.enclosing s := by
  rcases List.mem_cons.mp ha with rfl | ha
  · exact List.Subset.refl _
  · exact h.enclosing_subset ha

/-- Of two scopes on a way to the root, one stands around the other. -/
theorem path_total (h : t.WellFormed) {s a b : ScopeId} (ha : a ∈ t.path s) (hb : b ∈ t.path s) :
    a ∈ t.path b ∨ b ∈ t.enclosing a := by
  obtain ⟨before, after, way⟩ := List.append_of_mem hb
  rw [way, List.mem_append] at ha
  rcases ha with inside | outside
  · obtain ⟨first, rest, rfl⟩ := List.append_of_mem inside
    rw [List.append_assoc, List.cons_append] at way
    rw [h.path_split way]
    exact .inr (List.mem_append_right rest List.mem_cons_self)
  · rw [path, h.path_split way]
    exact .inl outside

theorem length_enclosing_lt (h : t.WellFormed) {s a : ScopeId} (ha : a ∈ t.enclosing s) :
    (t.enclosing a).length < (t.enclosing s).length := by
  obtain ⟨before, after, hs⟩ := List.append_of_mem ha
  rw [(h.enclosing_split s hs).2, hs, List.length_append, List.length_cons]
  omega

/-- No chain of scopes is longer than their number. -/
theorem length_enclosing_le (h : t.WellFormed) (s : ScopeId) : (t.enclosing s).length ≤ s := by
  induction s using Nat.strongRecOn with
  | ind s ih =>
    by_cases hs : t.enclosing s = []
    · rw [hs]
      exact Nat.zero_le s
    · obtain ⟨-, p, lt, eq⟩ := h.enclosing_eq hs
      rw [eq, path, List.length_cons]
      exact Nat.lt_of_le_of_lt (ih p lt) lt

/-- The way to the root comes to no scope twice. -/
theorem nodup_path (h : t.WellFormed) (s : ScopeId) : (t.path s).Nodup := by
  induction s using Nat.strongRecOn with
  | ind s ih =>
    refine List.nodup_cons.mpr ⟨fun hs => Nat.lt_irrefl s (h.lt_of_mem_enclosing hs), ?_⟩
    by_cases hs : t.enclosing s = []
    · rw [hs]
      exact List.nodup_nil
    · obtain ⟨-, p, lt, eq⟩ := h.enclosing_eq hs
      rw [eq]
      exact ih p lt

/-- The way to the root goes from each scope to the one that it stands in. -/
theorem isChain_path (h : t.WellFormed) (s : ScopeId) :
    (t.path s).IsChain fun a b => t.parent? a = some b := by
  induction s using Nat.strongRecOn with
  | ind s ih =>
    by_cases hs : t.enclosing s = []
    · rw [path, hs]
      exact .singleton s
    · obtain ⟨-, p, lt, eq⟩ := h.enclosing_eq hs
      rw [path, eq]
      exact List.isChain_cons_cons.mpr ⟨by rw [parent?, eq]; rfl, ih p lt⟩

/-- The way from a scope to one around it passes through a scope directly below the latter. -/
theorem exists_child (h : t.WellFormed) {s a : ScopeId} (ha : a ∈ t.enclosing s) :
    ∃ c ∈ t.path s, t.parent? c = some a := by
  induction s using Nat.strongRecOn with
  | ind s ih =>
    obtain ⟨-, p, lt, eq⟩ := h.enclosing_eq (List.ne_nil_of_mem ha)
    rw [eq, path, List.mem_cons] at ha
    rcases ha with rfl | ha
    · exact ⟨s, List.mem_cons_self, by rw [parent?, eq]; rfl⟩
    · obtain ⟨c, hc, hp⟩ := ih p lt ha
      exact ⟨c, List.mem_cons_of_mem s (by rwa [eq]), hp⟩

theorem root_mem_enclosing (h : t.WellFormed) {s : ScopeId} (hs : s ∈ t) (hr : s ≠ ScopeId.root) :
    ScopeId.root ∈ t.enclosing s := by
  induction s using Nat.strongRecOn with
  | ind s ih =>
    obtain ⟨p, lt, eq⟩ := h.below s hs hr
    rw [eq, path, List.mem_cons]
    by_cases hp : p = ScopeId.root
    · exact .inl hp.symm
    · exact .inr (ih p lt (Nat.lt_trans lt hs) hp)

theorem root_mem_path (h : t.WellFormed) {s : ScopeId} (hs : s ∈ t) : ScopeId.root ∈ t.path s := by
  by_cases hr : s = ScopeId.root
  · exact hr ▸ List.mem_cons_self
  · exact List.mem_cons_of_mem s (h.root_mem_enclosing hs hr)

theorem mem_nested (h : t.WellFormed) {s c : ScopeId} : c ∈ t.nested s ↔ t.parent? c = some s := by
  rw [h.nested, List.mem_filter, decide_eq_true_iff]
  refine ⟨And.right, fun hp => ⟨?_, hp⟩⟩
  exact List.mem_range.mpr (h.enclosing_of_parent? hp).1

/-! ### The closed scopes on the way -/

theorem not_isClosed_root (h : t.WellFormed) : t.isClosed ScopeId.root = false := by
  rw [isClosed, h.kind_root]
  rfl

theorem root_not_mem_closedAround (h : t.WellFormed) (s : ScopeId) :
    ScopeId.root ∉ t.closedAround s := by
  intro hr
  have := (List.mem_filter.mp hr).2
  rw [h.not_isClosed_root] at this
  cases this

theorem closedAround_root (h : t.WellFormed) : t.closedAround ScopeId.root = [] := by
  rw [closedAround, h.enclosing_root]
  rfl

theorem capture?_root (h : t.WellFormed) (n : Ident) : t.capture? ScopeId.root n = none := by
  rw [capture?, h.closedAround_root]
  rfl

theorem closedAround_toplevel (h : t.WellFormed) {s : ScopeId} (hs : t.kind? s = some .toplevel) :
    t.closedAround s = [] := by
  rw [closedAround, h.toplevel s hs]
  simp [h.not_isClosed_root]

/-- The closed scopes around a closed scope are the rest of those around a scope below it. -/
theorem closedAround_split (h : t.WellFormed) {s a : ScopeId} {before after : List ScopeId}
    (hs : t.closedAround s = before ++ a :: after) : t.closedAround a = after := by
  obtain ⟨outer, inner, eq, -, hinner⟩ := List.filter_eq_append_iff.mp hs
  obtain ⟨skipped, rest, rfl, -, -, hrest⟩ := List.filter_eq_cons_iff.mp hinner
  rw [← List.append_assoc] at eq
  rw [closedAround, (h.enclosing_split s eq).2, hrest]

/-! ### What keeps the form -/

theorem new (payload : π) : (ScopeTree.new payload).WellFormed where
  root_mem := Nat.zero_lt_one
  kind_root := rfl
  enclosing_root := rfl
  below s hs hr := absurd (Nat.lt_one_iff.mp hs) hr
  kind_below s hs hr := absurd (Nat.lt_one_iff.mp hs) hr
  toplevel s hk := by
    cases s <;> cases hk
  nested s := by
    cases s <;> rfl

/-- The form depends on the kinds and the places of the scopes alone. -/
theorem congr (h : t.WellFormed) (size : u.size = t.size) (kind? : ∀ s, u.kind? s = t.kind? s)
    (enclosing : ∀ s, u.enclosing s = t.enclosing s) (nested : ∀ s, u.nested s = t.nested s) :
    u.WellFormed where
  root_mem := (mem_congr size _).mpr h.root_mem
  kind_root := (kind? _).trans h.kind_root
  enclosing_root := (enclosing _).trans h.enclosing_root
  below s hs hr := by
    obtain ⟨p, lt, eq⟩ := h.below s ((mem_congr size s).mp hs) hr
    exact ⟨p, lt, by rw [enclosing, eq, path, path, enclosing]⟩
  kind_below s hs hr := kind? s ▸ h.kind_below s ((mem_congr size s).mp hs) hr
  toplevel s hk := (enclosing s).trans (h.toplevel s (kind? s ▸ hk))
  nested s := by
    have parents : u.parent? = t.parent? := funext fun c => by rw [parent?, parent?, enclosing]
    rw [nested, h.nested, ids, ids, size, parents]

/-- A new scope is listed below the one that it is put in, and keeps the other lists as they were. -/
theorem nested_push_eq (h : t.WellFormed) {p : ScopeId} (hp : p ∈ t) (kind : ScopeKind)
    (name : Option Ident) (payload : π) (s : ScopeId) : (t.push p kind name payload).nested s =
      (t.push p kind name payload).ids.filter fun c =>
        (t.push p kind name payload).parent? c = some s := by
  have parents := parent?_push t kind name payload hp
  have listed : t.ids.filter (fun c => (t.push p kind name payload).parent? c = some s) =
      t.nested s := by
    rw [h.nested]
    exact List.filter_congr fun c hc => by rw [parents, if_neg (Nat.ne_of_lt (List.mem_range.mp hc))]
  have added : (t.push p kind name payload).parent? t.size = some p := by rw [parents, if_pos rfl]
  rw [ids, size_push, List.range_succ, List.filter_append, ← ids, listed,
    nested_push t kind name payload hp]
  split_ifs with hn hs
  · subst hn
    simp [nested_of_not_mem (Nat.lt_irrefl t.size), added, Nat.ne_of_lt hp]
  · simp [added, hs]
  · simp [added, Ne.symm hs]

/-- A new scope keeps the form if it is put where its kind fits. -/
theorem push (h : t.WellFormed) {p : ScopeId} (hp : p ∈ t) {kind : ScopeKind} (fit : fits kind p)
    (name : Option Ident) (payload : π) : (t.push p kind name payload).WellFormed := by
  have kinds := kind?_push t kind name payload hp
  have around := enclosing_push t kind name payload hp
  have old : ∀ s ∈ t, s ≠ t.size := fun s hs => Nat.ne_of_lt hs
  have path_old : ∀ s ∈ t, (t.push p kind name payload).path s = t.path s := fun s hs => by
    rw [path, around, if_neg (old s hs), path]
  refine {
    root_mem := (mem_push ..).mpr (.inl h.root_mem)
    kind_root := by rw [kinds, if_neg (old _ h.root_mem), h.kind_root]
    enclosing_root := by rw [around, if_neg (old _ h.root_mem), h.enclosing_root]
    below := fun s hs hr => ?_
    kind_below := fun s hs hr => ?_
    toplevel := fun s hk => ?_
    nested := h.nested_push_eq hp kind name payload }
  · rw [around]
    rcases (mem_push ..).mp hs with hs | rfl
    · obtain ⟨q, lt, eq⟩ := h.below s hs hr
      exact ⟨q, lt, by rw [if_neg (old s hs), eq, path_old q (Nat.lt_trans lt hs)]⟩
    · exact ⟨p, hp, by rw [if_pos rfl, path_old p hp]⟩
  · rw [kinds]
    rcases (mem_push ..).mp hs with hs | rfl
    · rw [if_neg (old s hs)]
      exact h.kind_below s hs hr
    · rw [if_pos rfl]
      rintro ⟨⟩
      cases fit
  · rw [kinds] at hk
    rw [around]
    split_ifs at hk ⊢ with hn
    · cases hk
      have hroot : p = ScopeId.root := of_decide_eq_true fit
      rw [path, hroot, h.enclosing_root]
    · exact h.toplevel s hk

theorem of_sameScopes (h : t.WellFormed) (same : SameScopes t u) : u.WellFormed :=
  h.congr same.size same.kind? same.enclosing same.nested

end WellFormed

end ScopeTree

end Scoping
