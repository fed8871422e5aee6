import Scoping.Proofs.Session

/-! Reading what was written. What a name's cell in a namespace holds is what the last write on that name
    in that namespace left there, through whatever namespaces the writes were made and whatever happened
    elsewhere in between. A read looks at the cell in the home of the name, and where that cell holds
    nothing, a class or toplevel code turns to the global namespace, and that one to the builtins. -/

namespace Scoping

namespace Environment

variable {ν π : Type} {env after : Environment ν π} {h g : NamespaceId} {n : Ident} {v : ν}

/-! ### Cells -/

/-- A new namespace has an empty cell for each name that its scope binds, and no other cells. -/
theorem cells_activate (t : ScopeTree π) (s : ScopeId) (enclosing : List NamespaceId) (n : Ident) :
    (activate t s enclosing : Namespace ν).cells[n]? =
      if n ∈ t.locals s then some .unbound else none := by
  suffices fold : ∀ (names : List Ident) (cells : IdentMap (Cell ν)),
      (names.foldl (fun m n => m.insert n Cell.unbound) cells)[n]? =
        if n ∈ names then some .unbound else cells[n]? by
    rw [activate, fold, Std.ExtTreeMap.getElem?_empty]
  intro names
  induction names with
  | nil => exact fun cells => rfl
  | cons m names ih =>
    intro cells
    rw [List.foldl_cons, ih, Std.ExtTreeMap.getElem?_insert]
    by_cases hm : m = n
    · simp [hm]
    · simp [hm, Ne.symm hm]

theorem held?_of_not_mem (out : g ∉ env) (n : Ident) : env.held? g n = none := by
  rw [held?, cell?, namespace?_of_not_mem out]
  rfl

theorem held?_setCell (mem : g ∈ env) (n : Ident) (value : Option ν) (h : NamespaceId) (m : Ident) :
    (env.setCell g n ⟨value⟩).held? h m = if g = h ∧ n = m then value else env.held? h m := by
  rw [held?, cell?_setCell env mem, held?]
  split_ifs <;> rfl

/-- A new namespace holds nothing, and the others hold what they held. -/
theorem held?_activate (env : Environment ν π) (s : ScopeId) (enclosing : List NamespaceId)
    (g : NamespaceId) (n : Ident) :
    (env.grow (activate env.tree s enclosing)).held? g n = env.held? g n := by
  rw [held?, cell?, namespace?_grow]
  split_ifs with new
  · rw [held?_of_not_mem (fun mem => Nat.ne_of_lt mem new), Option.bind_some, cells_activate]
    split_ifs <;> rfl
  · rfl

/-! ### Reads -/

theorem get_eq (env : Environment ν π) (h : NamespaceId) (n : Ident) :
    env.get h n = (env.value? (env.home h n) n).elim (.error (env.absence h n)) .ok := by
  rw [get]
  cases env.value? (env.home h n) n <;> rfl

theorem toOption_get (env : Environment ν π) (h : NamespaceId) (n : Ident) :
    (env.get h n).toOption = env.value? (env.home h n) n := by
  rw [get]
  cases env.value? (env.home h n) n <;> rfl

/-- The value of a name depends on two cells and the builtins alone. -/
theorem value?_congr (kind : after.kind? g = env.kind? g) (held : after.held? g n = env.held? g n)
    (global : after.held? NamespaceId.root n = env.held? NamespaceId.root n)
    (builtins : after.builtins.get? n = env.builtins.get? n) : after.value? g n = env.value? g n := by
  rw [value?, value?, globalValue?, globalValue?, kind, held, global, builtins]

/-- A value that is held in the home of a name is the value of the name. -/
theorem WellFormed.value?_of_held (w : env.WellFormed) (held : env.held? g n = some v) :
    env.value? g n = some v := by
  unfold value?
  split
  · rename_i global
    rw [globalValue?, ← w.eq_root_of_kind global, held]
    rfl
  iterate 2
    rw [held]
    rfl
  iterate 4 exact held

theorem WellFormed.value?_root (w : env.WellFormed) (empty : env.held? NamespaceId.root n = none) :
    env.value? NamespaceId.root n = env.builtins.get? n := by
  rw [value?, w.kind?_root]
  dsimp only
  rw [globalValue?, empty, Option.none_or]

theorem value?_of_open (empty : env.held? g n = none)
    (kind : env.kind? g = some .classBody ∨ env.kind? g = some .toplevel) :
    env.value? g n = (env.held? NamespaceId.root n).or (env.builtins.get? n) := by
  rw [value?]
  rcases kind with kind | kind <;> rw [kind] <;> dsimp only <;> rw [empty, Option.none_or, globalValue?]

theorem value?_of_closed (empty : env.held? g n = none)
    (kind : env.kind? g = some .function ∨ env.kind? g = some .lambda ∨
      env.kind? g = some .comprehension) :
    env.value? g n = none := by
  rw [value?]
  rcases kind with kind | kind | kind <;> rw [kind] <;> exact empty

end Environment

namespace Session

variable {ν π : Type} {x y : Session ν π} {first : Environment ν π} {h : NamespaceId}

/-! ### What the cells hold -/

/-- A session in which every cell holds what the last write on it left there. -/
structure Faithful (x : Session ν π) : Prop where
  homes : ∀ w ∈ x.writes, w.home ∈ x.env
  held : ∀ g n, x.env.held? g n = x.written? g n

theorem faithful_start {t : ScopeTree π} {builtins : Builtins ν}
    (started : Environment.start t builtins = .ok first) : (Session.start first).Faithful where
  homes w hw := absurd hw List.not_mem_nil
  held g n := by
    rw [Environment.start] at started
    split_ifs at started
    cases started
    exact Environment.held?_activate ⟨t, #[], builtins⟩ ScopeId.root [] g n

/-- One more write is the last one on its name in its namespace, and leaves the others as they are. -/
theorem written?_write (x : Session ν π) (g : NamespaceId) (n : Ident) (value : Option ν)
    (h : NamespaceId) (m : Ident) :
    (x.write g n value).written? h m = if g = h ∧ n = m then value else x.written? h m := by
  rw [written?, lastWrite?, write, List.find?_cons]
  split_ifs with here
  · simp [here]
  · simp [here, written?, lastWrite?]

theorem Faithful.step (k : x.Faithful) (w : x.env.WellFormed) (step : Step x y) : y.Faithful := by
  cases step with
  | nest mem fit =>
    refine ⟨fun v hv => (Environment.mem_grow ..).mpr (.inl (k.homes v hv)), fun g n => ?_⟩
    rw [Environment.held?_activate]
    exact k.held g n
  | @write h n value mem found =>
    have home := w.home_mem mem n
    refine ⟨fun v hv => (Environment.Extends.setCell ..).mem _ ?_, fun g m => ?_⟩
    · rcases List.mem_cons.mp hv with rfl | old
      · exact home
      · exact k.homes v old
    · rw [written?_write, ← k.held]
      exact Environment.held?_setCell home ..
  | install builtins => exact ⟨k.homes, k.held⟩

theorem Faithful.steps (k : x.Faithful) (w : x.env.WellFormed) (steps : Steps x y) : y.Faithful := by
  induction steps with
  | refl => exact k
  | tail before last ih => exact ih.step (Steps.wellFormed before w) last

/-! ### Main result -/

/-- Writes through the lambdas in the two activations of the method, of which the second is undone
    while a builtin is edited, and a deletion that is refused. -/
def methodsWritten : Session Nat Unit :=
  Environment.methodTwice.performAll
    [.set 4 ⟨1⟩ 10, .withBuiltins (fun b => (b.insert ⟨3⟩ 33 1).2.1) [.set 5 ⟨1⟩ 20, .delete 3 ⟨1⟩],
      .delete 4 ⟨3⟩, .assignExpr 1 ⟨2⟩ 40]

/-- The value of a name, as seen from a namespace, is what the last write on it in its home left there;
    without one, the kind of the home says whether the global namespace and the builtins stand in. -/
theorem get_eq_last_write {t : ScopeTree π} {builtins : Builtins ν} (analysed : t.Reachable)
    (started : Environment.start t builtins = .ok first) (ops : List (Operation ν))
    (ran : (Session.start first).performAll ops = x) (mem : h ∈ x.env) (n : Ident) :
    (∀ v, x.written? (x.env.home h n) n = some v → x.env.get h n = .ok v) ∧
      (x.written? (x.env.home h n) n = none →
        (x.env.home h n = NamespaceId.root →
          x.env.get h n = (x.env.builtins.get? n).elim (.error (x.env.absence h n)) .ok) ∧
        (x.env.kind? (x.env.home h n) = some .classBody ∨ x.env.kind? (x.env.home h n) = some .toplevel →
          x.env.get h n = ((x.env.held? NamespaceId.root n).or (x.env.builtins.get? n)).elim
            (.error (x.env.absence h n)) .ok) ∧
        (x.env.kind? (x.env.home h n) = some .function ∨ x.env.kind? (x.env.home h n) = some .lambda ∨
          x.env.kind? (x.env.home h n) = some .comprehension →
          x.env.get h n = .error (x.env.absence h n))) ∧
      x.env.held? NamespaceId.root n = x.written? NamespaceId.root n ∧
      ∀ more y, x.performAll more = y → y.env.home h n = x.env.home h n ∧
        (y.written? (x.env.home h n) n = x.written? (x.env.home h n) n →
          y.written? NamespaceId.root n = x.written? NamespaceId.root n →
          y.env.builtins.get? n = x.env.builtins.get? n →
          (y.env.get h n).toOption = (x.env.get h n).toOption) := by
  have first_wf := Environment.WellFormed.start analysed started
  have steps : Steps (Session.start first) x := ran ▸ performAll_steps ops first_wf
  have w := steps.wellFormed first_wf
  have k := (faithful_start started).steps first_wf steps
  refine ⟨fun v last => ?_, fun empty => ⟨fun root => ?_, fun kind => ?_, fun kind => ?_⟩, k.held _ n,
    fun more y later => ?_⟩
  · rw [Environment.get_eq, w.value?_of_held ((k.held _ n).trans last)]
    rfl
  · rw [root, ← k.held] at empty
    rw [Environment.get_eq, root, w.value?_root empty]
  · rw [← k.held] at empty
    rw [Environment.get_eq, Environment.value?_of_open empty kind]
  · rw [← k.held] at empty
    rw [Environment.get_eq, Environment.value?_of_closed empty kind]
    rfl
  · have further : Steps x y := later ▸ performAll_steps more w
    have stays := further.extends.home w mem n
    refine ⟨stays, fun home global builtins => ?_⟩
    have held := (k.steps w further).held
    rw [Environment.toOption_get, Environment.toOption_get, stays]
    refine Environment.value?_congr (further.extends.kind? (w.home_mem mem n)) ?_ ?_ builtins
    · rw [held, home, k.held]
    · rw [held, global, k.held]

theorem get_eq_last_write_methodsWritten :
    ScopeTree.methodInClass.finish.Reachable ∧ 4 ∈ methodsWritten.env ∧ 5 ∈ methodsWritten.env ∧
      methodsWritten.env.home 4 ⟨1⟩ = 2 ∧ methodsWritten.env.get 4 ⟨1⟩ = .ok 10 ∧
      methodsWritten.env.home 5 ⟨1⟩ = 3 ∧ methodsWritten.env.get 5 ⟨1⟩ = .error (.undefinedName ⟨1⟩) ∧
      methodsWritten.env.get 5 ⟨3⟩ = .ok 33 := by
  have analysed : ScopeTree.methodInClass.finish.Reachable :=
    (ScopeTree.Reachable.recordAll _ (.new ())).step (.finish _)
  have first : 4 ∈ methodsWritten.env := by decide +kernel
  have second : 5 ∈ methodsWritten.env := by decide +kernel
  have held := get_eq_last_write analysed rfl _ (performAll_append ..) first ⟨1⟩
  have gone := get_eq_last_write analysed rfl _ (performAll_append ..) second ⟨1⟩
  have builtin := get_eq_last_write analysed rfl _ (performAll_append ..) second ⟨3⟩
  refine ⟨analysed, first, second, by decide +kernel, held.1 10 (by decide +kernel), by decide +kernel,
    ?_, ?_⟩
  · exact ((gone.2.1 (by decide +kernel)).2.2 (by decide +kernel)).trans (by decide +kernel)
  · exact ((builtin.2.1 (by decide +kernel)).1 (by decide +kernel)).trans (by decide +kernel)

end Session

end Scoping
