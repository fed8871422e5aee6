import Scoping.Proofs.Cells
import Scoping.Namespace.Access

/-! Names without a value. A read and a deletion decide separately between a value, an empty cell and
    no cell, and only the read falls back on other namespaces. They fail alike nevertheless. A read
    that finds no value on its way ends with what the home itself has, which is what a deletion looks
    at, and a deletion only fails where a read succeeds if the value is one from further on. Which of
    the two failures it is depends on whether there is a cell in the namespace at hand, so the cells
    that can be there say what the failure is in terms of the scopes and of what was written. -/

namespace Scoping

/-! ### Slots -/

namespace Slot

variable {ν : Type} {slot : Slot ν}

theorem value?_ofCell (c : Option (Cell ν)) : (ofCell c).value? = c.bind Cell.value := by
  rcases c with _ | ⟨_ | v⟩ <;> rfl

theorem value?_orElse (slot : Slot ν) (elsewhere : Option ν) :
    (slot.orElse elsewhere).value? = slot.value?.or elsewhere := by
  cases slot <;> cases elsewhere <;> rfl

theorem orElse_none (slot : Slot ν) : slot.orElse none = slot := by
  cases slot <;> rfl

theorem value?_eq_some {v : ν} : slot.value? = some v ↔ slot = bound v := by
  cases slot <;> simp [value?]

end Slot

namespace Environment

variable {ν π : Type} {env : Environment ν π} {g h : NamespaceId} {n : Ident} {e : AccessError}

theorem value?_ownSlot (env : Environment ν π) (h : NamespaceId) (n : Ident) :
    (env.ownSlot h n).value? = env.held? h n := Slot.value?_ofCell _

theorem WellFormed.globalOf_eq (w : env.WellFormed) (mem : h ∈ env) :
    env.globalOf h = NamespaceId.root := by
  rw [globalOf, List.getLastD_eq_getLast?, w.getLast?_path mem, Option.getD_some]

/-- What a namespace has with all that it falls back on: what it has itself, or else a value from one of
    the places that its kind falls back on. -/
theorem WellFormed.slot_eq (w : env.WellFormed) (mem : g ∈ env) (n : Ident) :
    ∃ elsewhere, env.slot g n = (env.ownSlot g n).orElse elsewhere ∧
      env.value? g n = (env.held? g n).or elsewhere := by
  have global : (env.globalSlot NamespaceId.root n).value? = env.globalValue? n := by
    rw [globalSlot, Slot.value?_orElse, value?_ownSlot, globalValue?]
  rw [slot, value?]
  cases kind : env.kind? g with
  | none => exact ⟨none, (Slot.orElse_none _).symm, Option.or_none.symm⟩
  | some k =>
    cases k with
    | global =>
      rw [w.eq_root_of_kind kind]
      exact ⟨env.builtins.get? n, rfl, rfl⟩
    | toplevel | classBody =>
      rw [w.globalOf_eq mem, global]
      exact ⟨env.globalValue? n, rfl, rfl⟩
    | function | lambda | comprehension => exact ⟨none, (Slot.orElse_none _).symm, Option.or_none.symm⟩

/-- A namespace has a value for a name, or else it has what it has itself. -/
theorem WellFormed.slot_cases (w : env.WellFormed) (mem : g ∈ env) (n : Ident) :
    (∃ v, env.value? g n = some v ∧ env.slot g n = .bound v) ∨
      env.value? g n = none ∧ env.held? g n = none ∧ env.slot g n = env.ownSlot g n := by
  obtain ⟨elsewhere, slot, value⟩ := w.slot_eq mem n
  cases found : env.value? g n with
  | some v =>
    refine .inl ⟨v, rfl, Slot.value?_eq_some.mp ?_⟩
    rw [slot, Slot.value?_orElse, value?_ownSlot, ← value, found]
  | none =>
    obtain ⟨empty, rfl⟩ := Option.or_eq_none_iff.mp (value.symm.trans found)
    exact .inr ⟨rfl, empty, slot.trans (Slot.orElse_none _)⟩

/-! ### Failures -/

theorem absence_of_unbound (found : (env.cell? (env.home h n) n).isSome) :
    env.absence h n = if env.home h n = h then .unboundLocal n else .undefinedName n := by
  rw [absence]
  by_cases here : env.home h n = h
  · rw [here] at found ⊢
    simp [found]
  · simp [here]

theorem absence_of_missing (none : env.cell? (env.home h n) n = none) :
    env.absence h n = .undefinedName n := by
  rw [absence, if_neg]
  rintro ⟨here, found⟩
  rw [here] at none
  simp [none] at found

theorem absence_cases (env : Environment ν π) (h : NamespaceId) (n : Ident) :
    env.absence h n = .unboundLocal n ∨ env.absence h n = .undefinedName n := by
  rw [absence]
  split_ifs <;> simp

/-- A read fails for one reason, where the name has no value. -/
theorem get_eq_error :
    env.get h n = .error e ↔ env.value? (env.home h n) n = none ∧ e = env.absence h n := by
  rw [get_eq]
  cases env.value? (env.home h n) n <;> simp [eq_comm]

/-- A deletion succeeds where the home of the name holds a value, and fails for one reason elsewhere. -/
theorem delete_eq (env : Environment ν π) (h : NamespaceId) (n : Ident) : env.delete h n =
    if (env.held? (env.home h n) n).isSome then .ok (env.setCell (env.home h n) n .unbound)
    else .error (env.absence h n) := by
  rw [delete, held?]
  cases env.cell? (env.home h n) n <;> rfl

theorem delete_eq_error :
    env.delete h n = .error e ↔ env.held? (env.home h n) n = none ∧ e = env.absence h n := by
  rw [delete_eq]
  cases env.held? (env.home h n) n <;> simp [eq_comm]

/-- A value that a name has although its home holds none is in the global namespace or a builtin. -/
theorem value?_elsewhere {v : ν} (empty : env.held? g n = none)
    (value : env.value? g n = some v) :
    g ≠ NamespaceId.root ∧ env.held? NamespaceId.root n = some v ∨
      env.held? NamespaceId.root n = none ∧ env.builtins.get? n = some v := by
  have global (found : env.globalValue? n = some v) : env.held? NamespaceId.root n = some v ∨
      env.held? NamespaceId.root n = none ∧ env.builtins.get? n = some v :=
        Option.or_eq_some_iff.mp found
  have away (held : env.held? NamespaceId.root n = some v) : g ≠ NamespaceId.root := by
    rintro rfl
    rw [empty] at held
    cases held
  rw [value?] at value
  split at value
  · exact (global value).imp_left fun held => ⟨away held, held⟩
  iterate 2
    rw [empty, Option.none_or] at value
    exact (global value).imp_left fun held => ⟨away held, held⟩
  iterate 4
    rw [empty] at value
    cases value

/-- A deletion fails where a read fails, and for the same reason. -/
theorem WellFormed.delete_of_get (w : env.WellFormed) (failed : env.get h n = .error e) :
    env.delete h n = .error e := by
  obtain ⟨none, rfl⟩ := get_eq_error.mp failed
  refine delete_eq_error.mpr ⟨?_, rfl⟩
  by_contra held
  obtain ⟨v, held⟩ := Option.ne_none_iff_exists'.mp held
  rw [w.value?_of_held held] at none
  cases none

/-- Where only a deletion fails, a read finds a value outside the home of the name. -/
theorem get_of_delete (failed : env.delete h n = .error e) (differs : env.get h n ≠ .error e) :
    ∃ v, env.get h n = .ok v ∧ env.held? (env.home h n) n = none ∧
      (env.home h n ≠ NamespaceId.root ∧ env.held? NamespaceId.root n = some v ∨
        env.held? NamespaceId.root n = none ∧ env.builtins.get? n = some v) := by
  obtain ⟨empty, rfl⟩ := delete_eq_error.mp failed
  cases value : env.value? (env.home h n) n with
  | none => exact absurd (get_eq_error.mpr ⟨value, rfl⟩) differs
  | some v =>
    refine ⟨v, ?_, empty, value?_elsewhere empty value⟩
    rw [get_eq, value]
    rfl

end Environment

/-! ### Access by slots -/

namespace Running

variable {σ ν π : Type} {h : NamespaceId} {n : Ident} {f : Frame σ ν π}

theorem env_bind {α : Type} (k : Environment ν π → Running σ ν π α) (f : Frame σ ν π) :
    (Running.env >>= k) f = k f.env f := rfl

/-- A read by slots reads. -/
theorem read_eq (w : f.env.WellFormed) (mem : h ∈ f.env) (n : Ident) : read h n f = get h n f := by
  have home := w.home_mem mem n
  rw [read, env_bind, get, Environment.get_eq]
  rcases w.slot_cases home n with ⟨v, value, slot⟩ | ⟨none, empty, slot⟩
  · rw [value, slot]
    rfl
  · rw [none, slot, Environment.ownSlot]
    cases found : f.env.cell? (f.env.home h n) n with
    | none =>
      rw [Environment.absence_of_missing found]
      rfl
    | some c =>
      have unbound : c.value = .none := by rwa [Environment.held?, found] at empty
      rw [Environment.absence_of_unbound (by rw [found]; rfl), Slot.ofCell, unbound]
      split_ifs <;> rfl

/-- A removal by the cell deletes, and leaves everything as it was if it fails. -/
theorem remove_eq (h : NamespaceId) (n : Ident) (f : Frame σ ν π) : remove h n f =
    match f.env.delete h n with
    | .ok after => .ok () { f with env := after }
    | .error e => .error e f := by
  rw [remove, env_bind, Environment.delete]
  cases found : f.env.cell? (f.env.home h n) n with
  | none =>
    rw [Environment.absence_of_missing found]
    rfl
  | some c =>
    rw [Environment.absence_of_unbound (by rw [found]; rfl)]
    dsimp only
    split_ifs <;> rfl

end Running

namespace Session

variable {ν π : Type} {x : Session ν π} {first : Environment ν π} {h : NamespaceId} {n : Ident}

/-- Where a namespace has a cell for a name, its scope binds the name, or the name was written there
    in the global namespace. -/
theorem Placed.cell_iff (k : x.Placed) (w : x.env.WellFormed) (mem : h ∈ x.env) :
    (x.env.cell? h n).isSome ↔ n ∈ x.env.tree.locals (x.env.scope h) ∨
      h = NamespaceId.root ∧ ∃ v, ⟨NamespaceId.root, n, some v⟩ ∈ x.writes := by
  rw [← Environment.mem_localNames]
  by_cases root : h = NamespaceId.root
  · rw [root, k.root, w.scope_root]
    simp
  · rw [k.inner h mem root]
    simp [root]

theorem Placed.absence_iff (k : x.Placed) (w : x.env.WellFormed) (mem : h ∈ x.env) :
    x.env.absence h n = .unboundLocal n ↔ x.env.home h n = h ∧ (n ∈ x.env.tree.locals (x.env.scope h) ∨
      h = NamespaceId.root ∧ ∃ v, ⟨NamespaceId.root, n, some v⟩ ∈ x.writes) := by
  rw [← k.cell_iff w mem, Environment.absence]
  split_ifs with own <;> simp [own]

/-! ### Main result -/

/-- How reads and deletions of a name end in a session on a tree. -/
structure FailAlike (t : ScopeTree π) (x : Session ν π) (h : NamespaceId) (n : Ident) : Prop where
  deletes : (∃ after, x.env.delete h n = .ok after) ↔ (x.env.held? (x.env.home h n) n).isSome
  /-- All that a deletion does is to empty the cell. -/
  deleted : ∀ after, x.env.delete h n = .ok after →
    (∀ g m, after.cell? g m = if x.env.home h n = g ∧ n = m then some .unbound else x.env.cell? g m) ∧
    (∀ g, after.scope g = x.env.scope g ∧ after.path g = x.env.path g) ∧
    after.size = x.env.size ∧ after.tree = x.env.tree ∧ after.builtins = x.env.builtins
  idle : ∀ e, x.env.delete h n = .error e → x.perform (.delete h n) = x
  alike : ∀ e, x.env.get h n = .error e → x.env.delete h n = .error e
  /-- Where only the deletion fails, the value is one of the global namespace or a builtin. -/
  fallback : ∀ e, x.env.delete h n = .error e → x.env.get h n ≠ .error e → ∃ v, x.env.get h n = .ok v ∧
    x.env.held? (x.env.home h n) n = none ∧
    (x.env.home h n ≠ NamespaceId.root ∧ x.env.held? NamespaceId.root n = some v ∨
      x.env.held? NamespaceId.root n = none ∧ x.env.builtins.get? n = some v)
  unboundLocal : ∀ e, x.env.get h n = .error e ∨ x.env.delete h n = .error e →
    (e = .unboundLocal n ↔ x.env.home h n = h ∧ (n ∈ t.locals (x.env.scope h) ∨
      h = NamespaceId.root ∧ ∃ v, ⟨NamespaceId.root, n, some v⟩ ∈ x.writes)) ∧
    (e = .unboundLocal n ∨ e = .undefinedName n)
  builtins : (x.perform (.delete h n)).env.builtins = x.env.builtins
  /-- The two programs that look at slots and cells themselves end in the same way. -/
  read : ∀ {σ : Type} (f : Frame σ ν π), f.env = x.env → Running.read h n f = Running.get h n f
  remove : ∀ {σ : Type} (f : Frame σ ν π), f.env = x.env →
    Running.remove h n f = match x.env.delete h n with
    | .ok after => .ok () { f with env := after }
    | .error e => .error e f

/-- A deletion fails as the read does where the read fails, about an unbound local exactly if the name
    lives in the namespace at hand and is bound by its scope or was written in the global namespace. -/
theorem get_and_delete_fail_alike {t : ScopeTree π} {builtins : Builtins ν} (analysed : t.Reachable)
    (started : Environment.start t builtins = .ok first) (used : x.Since first) (mem : h ∈ x.env)
    (n : Ident) : FailAlike t x h n := by
  obtain ⟨ops, ran⟩ := used
  have first_wf := Environment.WellFormed.start analysed started
  have steps : Steps (Session.start first) x := ran ▸ performAll_steps ops first_wf
  have w := steps.wellFormed first_wf
  have k := (placed_start started).steps first_wf steps
  have tree : x.env.tree = t := steps.extends.tree.trans (Environment.start_tree started)
  have refused {e : AccessError} (failed : x.env.delete h n = .error e) :
      x.perform (.delete h n) = x := by
    rw [perform, if_pos mem, failed]
  refine {
    deletes := ?_
    deleted := fun after deleted => ?_
    idle := fun e => refused
    alike := fun e => w.delete_of_get
    fallback := fun e => Environment.get_of_delete
    unboundLocal := fun e failed => ?_
    builtins := ?_
    read := fun f same => ?_
    remove := fun f same => ?_ }
  · rw [Environment.delete_eq]
    split_ifs with held <;> simp [held]
  · obtain ⟨-, rfl⟩ := Environment.delete_eq_ok deleted
    exact ⟨fun g m => Environment.cell?_setCell _ (w.home_mem mem n) ..,
      fun g => ⟨Environment.scope_setCell .., Environment.path_setCell ..⟩, Environment.size_setCell ..,
      rfl, rfl⟩
  · have failed : x.env.delete h n = .error e := failed.elim w.delete_of_get id
    obtain ⟨-, rfl⟩ := Environment.delete_eq_error.mp failed
    rw [← tree]
    exact ⟨k.absence_iff w mem, Environment.absence_cases ..⟩
  · cases deleted : x.env.delete h n with
    | error e => rw [refused deleted]
    | ok after =>
      obtain ⟨-, rfl⟩ := Environment.delete_eq_ok deleted
      rw [perform, if_pos mem, deleted]
      rfl
  · exact Running.read_eq (same ▸ w) (same ▸ mem) n
  · rw [← same]
    exact Running.remove_eq h n f

theorem get_and_delete_fail_alike_methodsWritten :
    ScopeTree.methodInClass.finish.Reachable ∧ methodsWritten.Since ⟨ScopeTree.methodInClass.finish,
        #[Environment.activate ScopeTree.methodInClass.finish ScopeId.root []],
        (Builtins.ofList [(⟨3⟩, 30)] 0).1⟩ ∧
      3 ∈ methodsWritten.env ∧ 5 ∈ methodsWritten.env ∧
      methodsWritten.env.delete 3 ⟨1⟩ = .error (.unboundLocal ⟨1⟩) ∧
      methodsWritten.env.delete 5 ⟨1⟩ = .error (.undefinedName ⟨1⟩) ∧
      methodsWritten.env.get 5 ⟨3⟩ = .ok 33 ∧ ∀ after, methodsWritten.env.delete 5 ⟨3⟩ ≠ .ok after := by
  have analysed : ScopeTree.methodInClass.finish.Reachable :=
    (ScopeTree.Reachable.recordAll _ (.new ())).step (.finish _)
  have used : methodsWritten.Since _ := (Since.performAll ⟨[], rfl⟩ _).performAll _
  have method : 3 ∈ methodsWritten.env := by decide +kernel
  have lambda : 5 ∈ methodsWritten.env := by decide +kernel
  have own := get_and_delete_fail_alike analysed rfl used method ⟨1⟩
  have around := get_and_delete_fail_alike analysed rfl used lambda ⟨1⟩
  have builtin := get_and_delete_fail_alike analysed rfl used lambda ⟨3⟩
  refine ⟨analysed, used, method, lambda, own.alike _ (by decide +kernel),
    around.alike _ (by decide +kernel), by decide +kernel, fun after deleted => ?_⟩
  have empty : methodsWritten.env.held? (methodsWritten.env.home 5 ⟨3⟩) ⟨3⟩ = none := by decide +kernel
  have held := builtin.deletes.mp ⟨after, deleted⟩
  rw [empty] at held
  cases held

end Session

end Scoping
