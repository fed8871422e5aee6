import Mathlib.Data.List.Find
import Mathlib.Data.List.Nodup
import Scoping.Proofs.Home
import Scoping.Namespace.Environment

/-! The form of an environment. The global namespace comes first and stands alone, and every other
    namespace stands directly below an older one, which is a namespace of the scope that its own scope is
    nested in. So the way from a namespace to the global one goes through exactly one namespace of each
    scope around, and the home of a name, which is one of these scopes, has one namespace on the way. No
    use of an environment breaks this form: values are put into cells, and new namespaces come last. -/

namespace Scoping

namespace Environment

variable {ν π : Type} {env after : Environment ν π} {h g : NamespaceId} {s : ScopeId} {n : Ident}

/-! ### Cells and new namespaces -/

theorem namespace?_setCell (env : Environment ν π) (g : NamespaceId) (n : Ident) (c : Cell ν)
    (h : NamespaceId) : (env.setCell g n c).namespace? h =
      if g = h then (env.namespace? h).map fun ns => { ns with cells := ns.cells.insert n c }
      else env.namespace? h :=
  Array.getElem?_modify

section setCell

variable (env : Environment ν π) (g : NamespaceId) (n : Ident) (c : Cell ν) (h : NamespaceId)

@[simp] theorem tree_setCell : (env.setCell g n c).tree = env.tree := rfl

@[simp] theorem size_setCell : (env.setCell g n c).size = env.size := Array.size_modify

@[simp] theorem scope_setCell : (env.setCell g n c).scope h = env.scope h := by
  rw [scope, namespace?_setCell, scope]
  split <;> cases env.namespace? h <;> rfl

@[simp] theorem path_setCell : (env.setCell g n c).path h = env.path h := by
  rw [path, namespace?_setCell, path]
  split <;> cases env.namespace? h <;> rfl

end setCell

/-- A new namespace comes last. -/
def grow (env : Environment ν π) (ns : Namespace ν) : Environment ν π :=
  { env with namespaces := env.namespaces.push ns }

theorem namespace?_grow (env : Environment ν π) (ns : Namespace ν) (h : NamespaceId) :
    (env.grow ns).namespace? h = if h = env.size then some ns else env.namespace? h :=
  Array.getElem?_push

theorem namespace?_of_not_mem (out : h ∉ env) : env.namespace? h = none :=
  Array.getElem?_eq_none (Nat.le_of_not_lt out)

theorem size_grow (env : Environment ν π) (ns : Namespace ν) : (env.grow ns).size = env.size + 1 :=
  Array.size_push ns

theorem mem_grow (env : Environment ν π) (ns : Namespace ν) :
    h ∈ env.grow ns ↔ h ∈ env ∨ h = env.size := by
  change h < (env.grow ns).size ↔ h < env.size ∨ h = env.size
  rw [size_grow]
  exact Nat.lt_succ_iff_lt_or_eq

theorem scope_grow (env : Environment ν π) (ns : Namespace ν) (mem : h ∈ env) :
    (env.grow ns).scope h = env.scope h := by
  rw [scope, namespace?_grow, if_neg (Nat.ne_of_lt mem), scope]

theorem path_grow (env : Environment ν π) (ns : Namespace ν) (mem : h ∈ env) :
    (env.grow ns).path h = env.path h := by
  rw [path, namespace?_grow, if_neg (Nat.ne_of_lt mem), path]

/-- A namespace is created below one that is there, for a scope that is nested directly in its scope. -/
theorem nest_eq_ok : env.nest h s = .ok after ↔ (h ∈ env ∧ env.tree.parent? s = some (env.scope h)) ∧
    after = env.grow (activate env.tree s (env.path h)) := by
  rw [nest]
  split_ifs with fit
  · rw [Except.ok.injEq, eq_comm, and_iff_right fit]
    rfl
  · exact ⟨nofun, fun accepted => absurd accepted.1 fit⟩

theorem start_tree {t : ScopeTree π} {builtins : Builtins ν}
    (started : Environment.start t builtins = .ok env) : env.tree = t := by
  rw [start] at started
  split_ifs at started
  cases started
  rfl

theorem kind?_eq (mem : h ∈ env) : env.kind? h = env.tree.kind? (env.scope h) := by
  have found : env.namespace? h = some env.namespaces[h] := Array.getElem?_eq_getElem mem
  rw [kind?, scope, found]
  rfl

/-! ### The form -/

/-- The form that every use of an environment keeps. -/
structure WellFormed (env : Environment ν π) : Prop where
  tree : env.tree.Reachable
  root_mem : NamespaceId.root ∈ env
  scope_root : env.scope NamespaceId.root = ScopeId.root
  path_root : env.path NamespaceId.root = [NamespaceId.root]
  below : ∀ h ∈ env, h ≠ NamespaceId.root → ∃ p < h, env.path h = h :: env.path p ∧
    env.tree.parent? (env.scope h) = some (env.scope p)

namespace WellFormed

theorem start {t : ScopeTree π} {builtins : Builtins ν} (reached : t.Reachable)
    (started : Environment.start t builtins = .ok env) : env.WellFormed := by
  rw [Environment.start] at started
  split_ifs at started
  cases started
  exact ⟨reached, Nat.zero_lt_one, rfl, rfl, fun h mem inner => absurd (Nat.lt_one_iff.mp mem) inner⟩

theorem setCell (w : env.WellFormed) (g : NamespaceId) (n : Ident) (c : Cell ν) :
    (env.setCell g n c).WellFormed := by
  have mem (h : NamespaceId) : h ∈ env.setCell g n c ↔ h ∈ env := by
    change h < (env.setCell g n c).size ↔ h < env.size
    rw [size_setCell]
  refine ⟨w.tree, (mem _).mpr w.root_mem, ?_, ?_, fun h inside inner => ?_⟩
  · rw [scope_setCell, w.scope_root]
  · rw [path_setCell, w.path_root]
  · simpa only [path_setCell, scope_setCell, tree_setCell] using w.below h ((mem h).mp inside) inner

theorem install (w : env.WellFormed) (builtins : Builtins ν) :
    WellFormed { env with builtins := builtins } :=
  ⟨w.tree, w.root_mem, w.scope_root, w.path_root, w.below⟩

theorem nest (w : env.WellFormed) (mem : h ∈ env) (fit : env.tree.parent? s = some (env.scope h)) :
    (env.grow (activate env.tree s (env.path h))).WellFormed := by
  refine ⟨w.tree, (mem_grow ..).mpr (.inl w.root_mem), ?_, ?_, fun g inside inner => ?_⟩
  · rw [scope_grow _ _ w.root_mem, w.scope_root]
  · rw [path_grow _ _ w.root_mem, w.path_root]
  · rcases (mem_grow ..).mp inside with old | rfl
    · obtain ⟨p, lt, way, nested⟩ := w.below g old inner
      have outer : p ∈ env := Nat.lt_trans lt old
      refine ⟨p, lt, ?_, ?_⟩
      · rw [path_grow _ _ old, path_grow _ _ outer, way]
      · rw [scope_grow _ _ old, scope_grow _ _ outer]
        exact nested
    · refine ⟨h, mem, ?_, ?_⟩
      · rw [path_grow _ _ mem, path, namespace?_grow, if_pos rfl]
        rfl
      · rw [scope_grow _ _ mem, scope, namespace?_grow, if_pos rfl]
        exact fit

/-! ### The way to the global namespace -/

/-- The namespaces on the way are there, and the way from each of them is the rest of the way. -/
theorem path_split (w : env.WellFormed) (mem : h ∈ env) {before rest : List NamespaceId}
    (way : env.path h = before ++ g :: rest) : g ∈ env ∧ env.path g = g :: rest := by
  induction h using Nat.strongRecOn generalizing before with
  | ind h ih =>
    cases before with
    | nil =>
      obtain ⟨rfl, -⟩ := List.cons.inj way
      exact ⟨mem, way⟩
    | cons b before =>
      have inner : h ≠ NamespaceId.root := by
        rintro rfl
        rw [w.path_root] at way
        simp at way
      obtain ⟨p, lt, outward, -⟩ := w.below h mem inner
      rw [outward] at way
      exact ih p lt (Nat.lt_trans lt mem) (List.cons.inj way).2

theorem mem_of_mem_path (w : env.WellFormed) (mem : h ∈ env) (around : g ∈ env.path h) : g ∈ env := by
  obtain ⟨before, rest, way⟩ := List.append_of_mem around
  exact (w.path_split mem way).1

theorem path_subset (w : env.WellFormed) (mem : h ∈ env) (around : g ∈ env.path h) :
    env.path g ⊆ env.path h := by
  obtain ⟨before, rest, way⟩ := List.append_of_mem around
  rw [(w.path_split mem way).2, way]
  exact List.subset_append_right ..

theorem getLast?_path (w : env.WellFormed) (mem : h ∈ env) :
    (env.path h).getLast? = some NamespaceId.root := by
  induction h using Nat.strongRecOn with
  | ind h ih =>
    by_cases inner : h = NamespaceId.root
    · rw [inner, w.path_root]
      rfl
    · obtain ⟨p, lt, outward, -⟩ := w.below h mem inner
      have rest := ih p lt (Nat.lt_trans lt mem)
      rw [path] at rest
      rw [outward, path, List.getLast?_cons_cons]
      exact rest

/-- The way goes from each namespace to the one that it was created below. -/
theorem isChain_path (w : env.WellFormed) (mem : h ∈ env) :
    (env.path h).IsChain fun a b => env.parent? a = some b := by
  induction h using Nat.strongRecOn with
  | ind h ih =>
    by_cases inner : h = NamespaceId.root
    · rw [inner, w.path_root]
      exact .singleton _
    · obtain ⟨p, lt, outward, -⟩ := w.below h mem inner
      have rest := ih p lt (Nat.lt_trans lt mem)
      have parent : env.parent? h = some p := by
        rw [parent?, outward]
        rfl
      rw [path] at rest
      rw [outward, path]
      exact List.isChain_cons_cons.mpr ⟨parent, rest⟩

/-- The way goes through one namespace of each scope around, in the same order. -/
theorem scopes_path (w : env.WellFormed) (mem : h ∈ env) :
    (env.path h).map env.scope = env.tree.path (env.scope h) := by
  induction h using Nat.strongRecOn with
  | ind h ih =>
    by_cases inner : h = NamespaceId.root
    · rw [inner, w.path_root, List.map_singleton, w.scope_root, ScopeTree.path,
        w.tree.wellFormed.enclosing_root]
    · obtain ⟨p, lt, outward, nested⟩ := w.below h mem inner
      have around := (w.tree.wellFormed.enclosing_of_parent? nested).2.2
      rw [outward, List.map_cons, ih p lt (Nat.lt_trans lt mem), ← around]
      rfl

theorem scope_mem (w : env.WellFormed) (mem : h ∈ env) : env.scope h ∈ env.tree := by
  by_cases inner : h = NamespaceId.root
  · rw [inner, w.scope_root]
    exact w.tree.wellFormed.root_mem
  · obtain ⟨p, -, -, nested⟩ := w.below h mem inner
    exact (w.tree.wellFormed.enclosing_of_parent? nested).1

/-- Two namespaces on one way are of different scopes. -/
theorem eq_of_scope_eq (w : env.WellFormed) (mem : h ∈ env) {a b : NamespaceId} (ha : a ∈ env.path h)
    (hb : b ∈ env.path h) (same : env.scope a = env.scope b) : a = b := by
  have nodup : ((env.path h).map env.scope).Nodup := by
    rw [w.scopes_path mem]
    exact w.tree.wellFormed.nodup_path _
  exact List.inj_on_of_nodup_map nodup ha hb same

/-! ### Homes -/

/-- The search for the home of a name finds it on the way. -/
theorem find?_home (w : env.WellFormed) (mem : h ∈ env) (n : Ident) :
    (env.path h).find? (fun g => env.scope g = env.tree.home (env.scope h) n) = some (env.home h n) := by
  have static := w.tree.targetsSound.home_mem_path w.tree.wellFormed (w.scope_mem mem) n
  rw [← w.scopes_path mem] at static
  obtain ⟨g, around, same⟩ := List.mem_map.mp static
  have found : ((env.path h).find? fun g => env.scope g = env.tree.home (env.scope h) n).isSome :=
    List.find?_isSome.mpr ⟨g, around, decide_eq_true same⟩
  obtain ⟨a, ha⟩ := Option.isSome_iff_exists.mp found
  rw [home, ha]
  rfl

theorem home_mem_path (w : env.WellFormed) (mem : h ∈ env) (n : Ident) : env.home h n ∈ env.path h :=
  List.mem_of_find?_eq_some (w.find?_home mem n)

theorem home_mem (w : env.WellFormed) (mem : h ∈ env) (n : Ident) : env.home h n ∈ env :=
  w.mem_of_mem_path mem (w.home_mem_path mem n)

theorem scope_home (w : env.WellFormed) (mem : h ∈ env) (n : Ident) :
    env.scope (env.home h n) = env.tree.home (env.scope h) n :=
  of_decide_eq_true (List.find?_eq_some_iff_append.mp (w.find?_home mem n)).1

theorem eq_home_iff (w : env.WellFormed) (mem : h ∈ env) (n : Ident) (around : g ∈ env.path h) :
    g = env.home h n ↔ env.scope g = env.tree.home (env.scope h) n := by
  refine ⟨fun here => here ▸ w.scope_home mem n, fun same => ?_⟩
  exact w.eq_of_scope_eq mem around (w.home_mem_path mem n) (same.trans (w.scope_home mem n).symm)

/-! ### Kinds -/

theorem kind?_root (w : env.WellFormed) : env.kind? NamespaceId.root = some .global := by
  rw [kind?_eq w.root_mem, w.scope_root, w.tree.wellFormed.kind_root]

/-- The global namespace is the only one of its kind. -/
theorem eq_root_of_kind (w : env.WellFormed) (global : env.kind? h = some .global) :
    h = NamespaceId.root := by
  by_contra inner
  have mem : h ∈ env := by
    by_contra out
    rw [kind?, namespace?_of_not_mem out] at global
    cases global
  obtain ⟨p, -, -, nested⟩ := w.below h mem inner
  obtain ⟨static, lt, -⟩ := w.tree.wellFormed.enclosing_of_parent? nested
  rw [kind?_eq mem] at global
  exact w.tree.wellFormed.kind_below _ static
    (Nat.ne_of_gt (Nat.lt_of_le_of_lt (Nat.zero_le _) lt)) global

end WellFormed

/-! ### What stays -/

/-- An environment that another came out of: the namespaces that were there keep their places. -/
structure Extends (env after : Environment ν π) : Prop where
  tree : after.tree = env.tree
  mem : ∀ h ∈ env, h ∈ after
  scope : ∀ h ∈ env, after.scope h = env.scope h
  path : ∀ h ∈ env, after.path h = env.path h

namespace Extends

theorem refl (env : Environment ν π) : Extends env env :=
  ⟨rfl, fun _ => id, fun _ _ => rfl, fun _ _ => rfl⟩

theorem trans {last : Environment ν π} (e : Extends env after) (f : Extends after last) :
    Extends env last where
  tree := f.tree.trans e.tree
  mem h old := f.mem h (e.mem h old)
  scope h old := (f.scope h (e.mem h old)).trans (e.scope h old)
  path h old := (f.path h (e.mem h old)).trans (e.path h old)

theorem setCell (env : Environment ν π) (g : NamespaceId) (n : Ident) (c : Cell ν) :
    Extends env (env.setCell g n c) where
  tree := rfl
  mem _ old := by
    change _ < (env.setCell g n c).size
    rwa [size_setCell]
  scope h _ := scope_setCell env g n c h
  path h _ := path_setCell env g n c h

theorem grow (env : Environment ν π) (ns : Namespace ν) : Extends env (env.grow ns) where
  tree := rfl
  mem _ old := (mem_grow env ns).mpr (.inl old)
  scope _ old := scope_grow env ns old
  path _ old := path_grow env ns old

theorem install (env : Environment ν π) (builtins : Builtins ν) :
    Extends env { env with builtins := builtins } :=
  ⟨rfl, fun _ => id, fun _ _ => rfl, fun _ _ => rfl⟩

/-- The home of a name depends on the places of the namespaces around alone. -/
theorem home (e : Extends env after) (w : env.WellFormed) (mem : h ∈ env) (n : Ident) :
    after.home h n = env.home h n := by
  have same : ∀ g ∈ env.path h, decide (after.scope g = after.tree.home (after.scope h) n) =
      decide (env.scope g = env.tree.home (env.scope h) n) := by
    intro g around
    rw [e.scope g (w.mem_of_mem_path mem around), e.scope h mem, e.tree]
  rw [Environment.home, Environment.home, e.path h mem, List.find?_congr same]

theorem kind? (e : Extends env after) (mem : h ∈ env) : after.kind? h = env.kind? h := by
  rw [kind?_eq mem, kind?_eq (e.mem h mem), e.scope h mem, e.tree]

end Extends

end Environment

end Scoping
