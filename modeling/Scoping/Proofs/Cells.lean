import Scoping.Proofs.History

/-! Where cells are. A new namespace has a cell for each name that its scope binds. A value is
    written into the home of its name, and a home other than the global namespace is a namespace of
    a scope that binds the name, so the cell is there already. Only the global namespace gets cells
    later on, one for each name that is written there although the global scope merely takes note of
    it. A deletion empties a cell and leaves it where it is. -/

namespace Scoping

theorem ScopeTree.mem_locals {π : Type} {t : ScopeTree π} {s : ScopeId} {n : Ident} :
    n ∈ t.locals s ↔ t.entryAt? s n = some .bound := by
  rw [locals, entries, entryAt?]
  cases t.scope? s <;> simp

namespace Environment

variable {ν π : Type} {env after : Environment ν π} {g h : NamespaceId} {n : Ident}

/-! ### The names that have a cell -/

theorem mem_localNames : n ∈ env.localNames g ↔ (env.cell? g n).isSome := by
  rw [localNames, cell?]
  cases env.namespace? g with
  | none => simp
  | some ns =>
    rw [Option.elim_some, Option.bind_some, Std.ExtTreeMap.mem_keys,
      Std.ExtTreeMap.mem_iff_isSome_getElem?]

theorem mem_localNames_setCell (mem : g ∈ env) (n : Ident) (c : Cell ν) (h : NamespaceId) (m : Ident) :
    m ∈ (env.setCell g n c).localNames h ↔ m ∈ env.localNames h ∨ g = h ∧ n = m := by
  rw [mem_localNames, mem_localNames, cell?_setCell env mem]
  split_ifs with here
  · simp [here]
  · simp [here]

/-- A cell that is there stays the only one of its name, whatever is put into it. -/
theorem mem_localNames_setCell_of_mem (mem : g ∈ env) (found : n ∈ env.localNames g) (c : Cell ν)
    (h : NamespaceId) (m : Ident) : m ∈ (env.setCell g n c).localNames h ↔ m ∈ env.localNames h := by
  rw [mem_localNames_setCell mem, or_iff_left_of_imp]
  rintro ⟨rfl, rfl⟩
  exact found

theorem mem_localNames_activate (env : Environment ν π) (s : ScopeId) (enclosing : List NamespaceId)
    (g : NamespaceId) (n : Ident) : n ∈ (env.grow (activate env.tree s enclosing)).localNames g ↔
      if g = env.size then n ∈ env.tree.locals s else n ∈ env.localNames g := by
  rw [mem_localNames, cell?, namespace?_grow]
  split_ifs with new
  · rw [Option.bind_some, cells_activate]
    split_ifs with bound <;> simp [bound]
  · exact mem_localNames.symm

/-- A home other than the global namespace is one of a scope that binds the name. -/
theorem WellFormed.home_local (w : env.WellFormed) (mem : h ∈ env)
    (away : env.home h n ≠ NamespaceId.root) : n ∈ env.tree.locals (env.scope (env.home h n)) := by
  have root : NamespaceId.root ∈ env.path h := List.mem_of_getLast? (w.getLast?_path mem)
  have static := w.tree.targetsSound.home_bound w.tree.wellFormed (env.scope h) n
  rw [← w.scope_home mem] at static
  refine ScopeTree.mem_locals.mpr (static.resolve_right fun outermost => away ?_)
  exact w.eq_of_scope_eq mem (w.home_mem_path mem n) root (outermost.trans w.scope_root.symm)

end Environment

namespace Session

variable {ν π : Type} {x y : Session ν π} {first : Environment ν π}

/-- Whether operations have made a session of an environment. -/
def Since (x : Session ν π) (first : Environment ν π) : Prop := ∃ ops, (start first).performAll ops = x

theorem Since.performAll (used : x.Since first) (ops : List (Operation ν)) :
    (x.performAll ops).Since first := by
  obtain ⟨before, rfl⟩ := used
  exact ⟨before ++ ops, performAll_append before ops _⟩

/-! ### What a session keeps -/

/-- A session whose cells are those of the names that the scopes bind, and in the global namespace also
    those of the names that have been written there. -/
structure Placed (x : Session ν π) : Prop where
  inner : ∀ g ∈ x.env, g ≠ NamespaceId.root → ∀ n,
    n ∈ x.env.localNames g ↔ n ∈ x.env.tree.locals (x.env.scope g)
  root : ∀ n, n ∈ x.env.localNames NamespaceId.root ↔
    n ∈ x.env.tree.locals ScopeId.root ∨ ∃ v, ⟨NamespaceId.root, n, some v⟩ ∈ x.writes

theorem placed_start {t : ScopeTree π} {builtins : Builtins ν}
    (started : Environment.start t builtins = .ok first) : (Session.start first).Placed := by
  rw [Environment.start] at started
  split_ifs at started
  cases started
  have cells (n : Ident) := Environment.mem_localNames_activate ⟨t, #[], builtins⟩ ScopeId.root []
    NamespaceId.root n
  refine ⟨fun g mem inner => absurd (Nat.lt_one_iff.mp mem) inner, fun n => ?_⟩
  exact (cells n).trans (or_iff_left (by simp [start])).symm

theorem Placed.step (k : x.Placed) (w : x.env.WellFormed) (step : Step x y) : y.Placed := by
  cases step with
  | @nest h s mem fit =>
    have cells := Environment.mem_localNames_activate x.env s (x.env.path h)
    refine ⟨fun g inside inner n => ?_, fun n => ?_⟩
    · rw [cells]
      rcases (Environment.mem_grow ..).mp inside with old | rfl
      · rw [if_neg (Nat.ne_of_lt old), Environment.scope_grow _ _ old]
        exact k.inner g old inner n
      · rw [if_pos rfl, Environment.scope, Environment.namespace?_grow, if_pos rfl]
        rfl
    · rw [cells, if_neg (Nat.ne_of_lt w.root_mem)]
      exact k.root n
  | @write h m value mem found =>
    have home := w.home_mem mem m
    have cells := Environment.mem_localNames_setCell home m ⟨value⟩
    refine ⟨fun g inside inner n => ?_, fun n => ?_⟩
    · have old : g ∈ x.env := by
        change g < (x.env.setCell _ m ⟨value⟩).size at inside
        rwa [Environment.size_setCell] at inside
      simp only [write, cells, Environment.tree_setCell, Environment.scope_setCell, k.inner g old inner]
      refine or_iff_left_of_imp ?_
      rintro ⟨rfl, rfl⟩
      exact w.home_local mem inner
    · simp only [write, cells, Environment.tree_setCell, k.root, List.mem_cons, Write.mk.injEq]
      -- a cell that is emptied was there before, and one that is filled is on record
      cases value with
      | none =>
        simp only [reduceCtorEq, and_false, false_or]
        refine or_iff_left_of_imp ?_
        rintro ⟨here, rfl⟩
        rw [← k.root, ← here, Environment.mem_localNames]
        exact found rfl
      | some v => grind
  | install builtins => exact ⟨k.inner, k.root⟩

theorem Placed.steps (k : x.Placed) (w : x.env.WellFormed) (steps : Steps x y) : y.Placed := by
  induction steps with
  | refl => exact k
  | tail before last ih => exact ih.step (Steps.wellFormed before w) last

end Session

/-! ### Runners that keep a record -/

/-- Whether a frame has come about by operations whose writes the runner's own state records. -/
def Running.Logged {σ ν π : Type} (first : Environment ν π) (log : σ → List (Write ν))
    (f : Frame σ ν π) : Prop :=
  (⟨f.env, log f.own⟩ : Session ν π).Since first

/-- Creating a namespace is an operation without writes. -/
theorem Running.stable_logged {σ ν π : Type} (first : Environment ν π) (log : σ → List (Write ν)) :
    Stable (Logged first log : Frame σ ν π → Prop) where
  nest := by
    intro f env h s used accepted
    have nested := used.performAll [.nest h s]
    rwa [Session.performAll, Session.performAll, Session.perform, accepted] at nested
  move _ hf := hf

/-! ### Main result -/

namespace Session

variable {ν π : Type} {x : Session ν π} {first : Environment ν π}

/-- Which cells the namespaces of a session on a tree have, and what changes that. -/
structure CellsOf (t : ScopeTree π) (first : Environment ν π) (x : Session ν π) : Prop where
  inner : ∀ g ∈ x.env, g ≠ NamespaceId.root → ∀ n, n ∈ x.env.localNames g ↔ n ∈ t.locals (x.env.scope g)
  root : ∀ n, n ∈ x.env.localNames NamespaceId.root ↔
    n ∈ t.locals ScopeId.root ∨ ∃ v, ⟨NamespaceId.root, n, some v⟩ ∈ x.writes
  delete : ∀ h ∈ x.env, ∀ n after, x.env.delete h n = .ok after →
    ∀ g m, m ∈ after.localNames g ↔ m ∈ x.env.localNames g
  set : ∀ h ∈ x.env, ∀ n v g, g ≠ NamespaceId.root → ∀ m,
    m ∈ (x.env.set h n v).localNames g ↔ m ∈ x.env.localNames g
  assignExpr : ∀ h ∈ x.env, ∀ n v g, g ≠ NamespaceId.root → ∀ m,
    m ∈ (x.env.assignExpr h n v).localNames g ↔ m ∈ x.env.localNames g
  /-- Runners add no writes of their own to those of the operations that they perform. -/
  runners : ∀ {σ : Type} (log : σ → List (Write ν)) (r : Runner σ ν π),
    (∀ h payload, Running.Carries (Running.Logged first log) (r h payload)) → ∀ h s,
      Running.Carries (Running.Logged first log) (r.nestWith h s) ∧
      Running.Carries (Running.Logged first log) (r.nestNext h)
  nestAll : ∀ writes h, Running.Carries (Running.Logged first fun _ => writes) (Runner.nestAll.build h)

/-- After any operations a namespace has cells for exactly the names that its
    scope binds, and the global namespace for those assigned to there as well. -/
theorem cells_exact {t : ScopeTree π} {builtins : Builtins ν} (analysed : t.Reachable)
    (started : Environment.start t builtins = .ok first) (used : x.Since first) : CellsOf t first x := by
  obtain ⟨ops, ran⟩ := used
  have first_wf := Environment.WellFormed.start analysed started
  have steps : Steps (Session.start first) x := ran ▸ performAll_steps ops first_wf
  have w := steps.wellFormed first_wf
  have k := (placed_start started).steps first_wf steps
  have tree : x.env.tree = t := steps.extends.tree.trans (Environment.start_tree started)
  have written {h : NamespaceId} (mem : h ∈ x.env) (n : Ident) (c : Cell ν) {g : NamespaceId}
      (inner : g ≠ NamespaceId.root) (m : Ident) :
      m ∈ (x.env.setCell (x.env.home h n) n c).localNames g ↔ m ∈ x.env.localNames g := by
    have home := w.home_mem mem n
    rw [Environment.mem_localNames_setCell home, or_iff_left_of_imp]
    rintro ⟨rfl, rfl⟩
    exact (k.inner _ home inner n).mpr (w.home_local mem inner)
  refine {
    inner := fun g mem inner n => tree ▸ k.inner g mem inner n
    root := fun n => tree ▸ k.root n
    delete := fun h mem n after deleted g m => ?_
    set := fun h mem n v g inner m => written mem n _ inner m
    assignExpr := fun h mem n v g inner m => written (Environment.expressionTarget_mem w mem) n _ inner m
    runners := fun log r hr h s => ?_
    nestAll := fun writes => Runner.nestAll_carries (Running.stable_logged first _) fun _ hf => hf }
  · obtain ⟨found, rfl⟩ := Environment.delete_eq_ok deleted
    exact Environment.mem_localNames_setCell_of_mem (w.home_mem mem n)
      (Environment.mem_localNames.mpr found) _ g m
  · have stable := Running.stable_logged first log
    exact ⟨Runner.nestWith_carries stable hr h s, Runner.nestNext_carries stable hr h⟩

/-- The lambda in the first activation of the method assigns to a name that the global scope
    merely takes note of. -/
def globalWritten : Session Nat Unit := methodsWritten.performAll [.set 4 ⟨3⟩ 50]

theorem cells_exact_globalWritten :
    ScopeTree.methodInClass.finish.Reachable ∧ globalWritten.Since ⟨ScopeTree.methodInClass.finish,
        #[Environment.activate ScopeTree.methodInClass.finish ScopeId.root []],
        (Builtins.ofList [(⟨3⟩, 30)] 0).1⟩ ∧
      ⟨3⟩ ∈ globalWritten.env.localNames NamespaceId.root ∧
      ⟨3⟩ ∉ ScopeTree.methodInClass.finish.locals ScopeId.root ∧
      3 ∈ globalWritten.env ∧ globalWritten.written? 3 ⟨1⟩ = none ∧
      ∀ n, n ∈ globalWritten.env.localNames 3 ↔ n = ⟨1⟩ := by
  have analysed : ScopeTree.methodInClass.finish.Reachable :=
    (ScopeTree.Reachable.recordAll _ (.new ())).step (.finish _)
  have used : globalWritten.Since _ := ((Since.performAll ⟨[], rfl⟩ _).performAll _).performAll _
  have cells := cells_exact analysed rfl used
  have mem : 3 ∈ globalWritten.env := by decide +kernel
  have scope : globalWritten.env.scope 3 = 2 := by decide +kernel
  have locals : ScopeTree.methodInClass.finish.locals 2 = [⟨1⟩] := by decide +kernel
  have assigned : ⟨NamespaceId.root, ⟨3⟩, some 50⟩ ∈ globalWritten.writes := by
    have lambda : 4 ∈ methodsWritten.env := by decide +kernel
    have home : methodsWritten.env.home 4 ⟨3⟩ = NamespaceId.root := by decide +kernel
    rw [globalWritten, performAll, performAll, perform, if_pos lambda, home]
    exact List.mem_cons_self
  refine ⟨analysed, used, (cells.root ⟨3⟩).mpr (.inr ⟨50, assigned⟩), by decide +kernel, mem,
    by decide +kernel, fun n => ?_⟩
  rw [cells.inner 3 mem (by decide) n, scope, locals, List.mem_singleton]

end Session

end Scoping
