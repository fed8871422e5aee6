import Scoping.Proofs.Routine

/-! Cursors in use. The scopes that a cursor gives are those nested in its scope, one after the
    other. The list of them and the parents agree, so the next scope always fits below a
    namespace of the scope that the cursor is over, and the check on the scope of the namespace
    comes before anything is taken. -/

namespace Scoping

/-! ### The next namespace -/

namespace Touring

open Itinerary

variable {σ ν π : Type} {t : ScopeTree π} {x : Itinerary σ ν π} {b : Builder σ ν π} {a : Site}
  {s : ScopeId} {c : CursorId} {k : Tally} {env : Environment ν π} {payload : π}

theorem next_apply (held : x.tallies[c]? = some k) :
    next c x = .ok k.counter.next.1 (x.setTally c k.advance) := by
  rw [next, held]

/-- A cursor that is used up stays as it is. -/
theorem nextScope_apply (held : x.tallies[c]? = some k) : nextScope c x = match k.counter.next.1 with
    | some s => .ok s (x.setTally c k.advance)
    | none => .error (.nestedScopesExhausted k.counter.parent) x := by
  have first := next_apply held
  rw [nextScope, bind_of_ok first]
  cases found : k.counter.next.1 with
  | some s => rfl
  | none =>
    rw [Tally.advance_of_none found, setTally_self held]
    exact congrArg (EStateM.Result.error · x) (congrArg _ (cursorScope_eq held))

/-- The check on the scope of the namespace comes first. -/
theorem nestNext_of_other (b : Builder σ ν π) (other : x.cursorScope c ≠ x.scope a) :
    nestNext b a c x = .error (.scopeMismatch (x.scope a) (x.cursorScope c)) x := by
  have looked : (look : Touring σ ν π (Itinerary σ ν π)) x = .ok x x := rfl
  rw [nestNext, bind_of_ok looked, if_neg other]
  rfl

theorem nestNext_of_same (b : Builder σ ν π) (same : x.cursorScope c = x.scope a) :
    nestNext b a c x = (nextScope c >>= fun s => nestWith b a s) x := by
  have looked : (look : Touring σ ν π (Itinerary σ ν π)) x = .ok x x := rfl
  rw [nestNext, bind_of_ok looked, if_pos same]

/-- Code that is started in a new namespace finds it there, and has a cursor before all that is
    nested in its scope. -/
theorem nestWith_apply (found : x.envs[a.unit]? = some env) (mem : a.id ∈ env)
    (fit : env.tree.parent? s = some (env.scope a.id)) (carried : env.tree.payload? s = some payload) :
    nestWith b a s x =
      match b ⟨a.unit, env.size⟩ payload x.tallies.size
          ((x.setEnv a.unit (env.withChild a.id s)).pushTally ⟨.start env.tree s, []⟩) with
      | .ok _ z => .ok ⟨a.unit, env.size⟩ z
      | .error e z => .error e z := by
  have created : create a s x = .ok ⟨a.unit, env.size⟩ (x.setEnv a.unit (env.withChild a.id s)) := by
    rw [create, found]
    dsimp only
    rw [Environment.nest_eq_ok.mpr ⟨⟨mem, fit⟩, rfl⟩]
  have there := (envs_setEnv x a.unit (env.withChild a.id s) found).trans (if_pos rfl)
  have scope := Environment.scope_withChild env a.id s
  have built : build b ⟨a.unit, env.size⟩ (x.setEnv a.unit (env.withChild a.id s)) =
      b ⟨a.unit, env.size⟩ payload x.tallies.size
        ((x.setEnv a.unit (env.withChild a.id s)).pushTally ⟨.start env.tree s, []⟩) := by
    have tree : (env.withChild a.id s).tree = env.tree := rfl
    rw [build, there]
    dsimp only
    rw [scope, tree, carried]
    rfl
  rw [nestWith, bind_of_ok created]
  generalize b ⟨a.unit, env.size⟩ payload x.tallies.size _ = ended at built ⊢
  cases ended with
  | ok u z => rw [bind_of_ok built]; rfl
  | error e z => rw [bind_of_error built]

end Touring

/-! ### Runners -/

/-- The code of a runner. -/
def Builder.ofRunner {σ ν π : Type} (r : Runner σ ν π) : Builder σ ν π := fun a payload c x =>
  match x.envs[a.unit]?, x.tallies[c]? with
  | some env, some k =>
    match r a.id payload ⟨x.own, env, k.counter.cursor⟩ with
    | .ok _ f => .ok () { x.setEnv a.unit f.env with own := f.own }
    | .error e f => .error e { x.setEnv a.unit f.env with own := f.own }
  | _, _ => .ok () x

namespace Itinerary

variable {σ ν π : Type} {x : Itinerary σ ν π} {f : Frame σ ν π} {unit : Nat} {c : CursorId}

/-- What a runner works on, as a part of an itinerary. -/
structure Shows (x : Itinerary σ ν π) (unit : Nat) (c : CursorId) (f : Frame σ ν π) : Prop where
  own : x.own = f.own
  env : x.envs[unit]? = some f.env
  cursor : ∃ k, x.tallies[c]? = some k ∧ k.counter.cursor = f.cursor

theorem Shows.setEnv (shown : x.Shows unit c f) (env : Environment ν π) (own : σ) :
    Shows { x.setEnv unit env with own := own } unit c ⟨own, env, f.cursor⟩ :=
  ⟨rfl, (envs_setEnv x unit env shown.env).trans (if_pos rfl), shown.cursor⟩

theorem Shows.cursorScope (shown : x.Shows unit c f) : x.cursorScope c = f.cursor.parent := by
  obtain ⟨k, held, same⟩ := shown.cursor
  rw [cursorScope_eq held, ← same]
  rfl

theorem Shows.scope (shown : x.Shows unit c f) (h : NamespaceId) : x.scope ⟨unit, h⟩ = f.env.scope h :=
  scope_eq (a := ⟨unit, h⟩) shown.env

end Itinerary

namespace Touring

open Itinerary

variable {σ ν π α β γ δ : Type} {x : Itinerary σ ν π} {f : Frame σ ν π} {unit : Nat} {c : CursorId}

/-- Two ends that are the same as far as a runner can tell. -/
def Agrees (unit : Nat) (c : CursorId) (same : α → β → Prop) :
    EStateM.Result AccessError (Itinerary σ ν π) α → EStateM.Result AccessError (Frame σ ν π) β → Prop
  | .ok a y, .ok b g => same a b ∧ y.Shows unit c g
  | .error e y, .error e' g => e = e' ∧ y.Shows unit c g
  | _, _ => False

theorem Agrees.bind {same : α → β → Prop} {same' : γ → δ → Prop} {m : Touring σ ν π α}
    {m' : Running σ ν π β}
    {k : α → Touring σ ν π γ} {k' : β → Running σ ν π δ} (first : Agrees unit c same (m x) (m' f))
    (further : ∀ a b y g, same a b → y.Shows unit c g → Agrees unit c same' (k a y) (k' b g)) :
    Agrees unit c same' ((m >>= k) x) ((m' >>= k') f) := by
  cases done : m x with
  | ok a y =>
    cases done' : m' f with
    | ok b g =>
      rw [done, done'] at first
      rw [bind_of_ok done, bind_of_ok done']
      exact further a b y g first.1 first.2
    | error e g =>
      rw [done, done'] at first
      exact first.elim
  | error e y =>
    cases done' : m' f with
    | ok b g =>
      rw [done, done'] at first
      exact first.elim
    | error e' g =>
      rw [done, done'] at first
      rw [bind_of_error done, bind_of_error done']
      exact first

variable (r : Runner σ ν π)

/-- A runner finds its cursor where it left it. -/
theorem build_agrees (shown : x.Shows unit c f) (h : NamespaceId) :
    Agrees unit c (fun _ _ => True) (build (.ofRunner r) ⟨unit, h⟩ x) (r.build h f) := by
  obtain ⟨k, held, cursor⟩ := shown.cursor
  rw [build, Runner.build, shown.env]
  dsimp only
  cases f.env.tree.payload? (f.env.scope h) with
  | none => exact ⟨trivial, shown⟩
  | some payload =>
    have inside := (Array.getElem?_eq_some_iff.mp held).1
    have pushed := tallies_pushTally x ⟨.start f.env.tree (f.env.scope h), []⟩
    have shown' : Shows (x.pushTally ⟨.start f.env.tree (f.env.scope h), []⟩) unit c f :=
      ⟨shown.own, shown.env, k, (pushed c).trans ((if_neg (Nat.ne_of_lt inside)).trans held), cursor⟩
    dsimp only
    rw [Builder.ofRunner, (pushed _).trans (if_pos rfl), shown'.env, shown'.own]
    change Agrees unit c _ (match r h payload { f with cursor := .start f.env.tree (f.env.scope h) } with
      | .ok _ g => _
      | .error e g => _) _
    cases r h payload { f with cursor := .start f.env.tree (f.env.scope h) } with
    | ok u g => exact ⟨trivial, shown'.setEnv g.env g.own⟩
    | error e g => exact ⟨rfl, shown'.setEnv g.env g.own⟩

theorem create_agrees (shown : x.Shows unit c f) (h : NamespaceId) (s : ScopeId) :
    Agrees unit c (fun a g => a = ⟨unit, g⟩) (create ⟨unit, h⟩ s x) (Running.create h s f) := by
  rw [create, Running.create, shown.env]
  dsimp only
  cases f.env.nest h s with
  | ok after => exact ⟨rfl, shown.own ▸ shown.setEnv after x.own⟩
  | error e => exact ⟨rfl, shown⟩

theorem nestWith_agrees (shown : x.Shows unit c f) (h : NamespaceId) (s : ScopeId) :
    Agrees unit c (fun a g => a = ⟨unit, g⟩)
      (nestWith (.ofRunner r) ⟨unit, h⟩ s x) (r.nestWith h s f) := by
  refine (create_agrees shown h s).bind fun a g y f' same shown' => ?_
  subst same
  exact (build_agrees r shown' g).bind fun _ _ y' f'' _ shown'' => ⟨rfl, shown''⟩

/-- A runner creates the next namespace like any other code. -/
theorem nestNext_agrees (shown : x.Shows unit c f) (h : NamespaceId) :
    Agrees unit c (fun a g => a = ⟨unit, g⟩)
      (nestNext (.ofRunner r) ⟨unit, h⟩ c x) (r.nestNext h f) := by
  obtain ⟨k, held, cursor⟩ := shown.cursor
  by_cases same : x.cursorScope c = x.scope ⟨unit, h⟩
  · rw [nestNext_of_same _ same]
    have same' : f.cursor.parent = f.env.scope h :=
      shown.cursorScope.symm.trans (same.trans (shown.scope h))
    have took : Agrees unit c Eq (nextScope c x) (Running.take h f) := by
      rw [nextScope_apply held, Running.take, if_pos same', Cursor.take, ← cursor, Counter.next?_cursor]
      cases k.counter.next.1 with
      | some s =>
        have put := (tallies_setTally x c k.advance held).trans (if_pos rfl)
        exact ⟨rfl, shown.own, shown.env, k.advance, put, k.counter.advance_cursor.symm⟩
      | none => exact ⟨rfl, shown⟩
    exact took.bind fun s s' y g eq shown' => eq ▸ nestWith_agrees r shown' h s
  · have other : f.cursor.parent ≠ f.env.scope h := by
      rwa [← shown.cursorScope, ← shown.scope h]
    have refused : Running.take h f = .error (.scopeMismatch (f.env.scope h) f.cursor.parent) f := by
      rw [Running.take, if_neg other]
    rw [nestNext_of_other _ same, Runner.nestNext, bind_of_error refused]
    exact ⟨by rw [shown.cursorScope, shown.scope h], shown⟩

end Touring

/-! ### Main result -/

namespace Itinerary

open Steps Touring

variable {σ ν π : Type} {t : ScopeTree π} {x : Itinerary σ ν π} {a : Site} {s : ScopeId} {c : CursorId}
  {k : Tally} {env : Environment ν π}

/-- An itinerary that comes about, from the global namespace of an analysed tree alone and by
    whatever code, also in the middle of it. -/
inductive Reached (t : ScopeTree π) : Itinerary σ ν π → Prop
  | start {builtins : Builtins ν} {env : Environment ν π} (own : σ)
      (started : Environment.start t builtins = .ok env) : Reached t ⟨own, #[env], #[]⟩
  | run {x : Itinerary σ ν π} (reached : Reached t x) (r : Routine σ ν π) : Reached t (left (r.run x))

theorem Reached.sound (analysed : t.Reachable) (reached : x.Reached t) : x.Sound t := by
  induction reached with
  | @start builtins env own started =>
    refine ⟨fun u e found => ?_, fun c k held => by simp at held⟩
    have first : u = 0 := by
      have lt := (Array.getElem?_eq_some_iff.mp found).1
      simpa using lt
    subst first
    obtain rfl := Option.some.inj found
    refine ⟨?_, .start analysed started⟩
    rw [Environment.start] at started
    split_ifs at started
    cases started
    rfl
  | run reached r ih => exact (r.run_goes _ ih).1

/-- The itinerary in which code is started in a namespace for the next scope of a cursor. -/
def entered (x : Itinerary σ ν π) (a : Site) (c : CursorId) (k : Tally) (env : Environment ν π)
    (s : ScopeId) : Itinerary σ ν π :=
  ((x.setTally c k.advance).setEnv a.unit (env.withChild a.id s)).pushTally ⟨.start env.tree s, []⟩

/-- A namespace of the scope that a cursor is over can have the next scope of the cursor below it, so
    the code to be run there is called. -/
theorem Sound.nestNext_apply (sound : x.Sound t) (analysed : t.Reachable) (held : x.tallies[c]? = some k)
    (found : x.envs[a.unit]? = some env) (mem : a.id ∈ env) (same : x.scope a = k.counter.parent)
    (next : k.upcoming? t = some s) :
    ∃ payload, t.payload? s = some payload ∧ ∀ b : Builder σ ν π, nestNext b a c x =
      match b ⟨a.unit, env.size⟩ payload x.tallies.size (x.entered a c k env s) with
      | .ok _ z => .ok ⟨a.unit, env.size⟩ z
      | .error e z => .error e z := by
  have good := sound.tallies c k held
  obtain ⟨tree, -⟩ := sound.envs a.unit env found
  have parent := analysed.wellFormed.mem_nested.mp (List.mem_of_getElem? next)
  have inside : s ∈ t := (analysed.wellFormed.enclosing_of_parent? parent).1
  obtain ⟨payload, carried⟩ : ∃ payload, t.payload? s = some payload :=
    ⟨_, congrArg (Option.map Scope.payload) (Array.getElem?_eq_getElem inside)⟩
  have given : k.counter.next.1 = some s := good.next_eq.trans next
  have took : nextScope c x = .ok s (x.setTally c k.advance) := by
    rw [nextScope_apply held, given]
  have size : (x.setTally c k.advance).tallies.size = x.tallies.size := Array.size_setIfInBounds
  refine ⟨payload, carried, fun b => ?_⟩
  have fit : env.tree.parent? s = some (env.scope a.id) := by
    rw [tree, parent, ← same, scope_eq found]
  have below := nestWith_apply (b := b) (x := x.setTally c k.advance) found mem fit (tree.symm ▸ carried)
  rw [size] at below
  rw [nestNext_of_same b ((cursorScope_eq held).trans same.symm), bind_of_ok took, below]
  rfl

/-- The itinerary in which code is started comes about. -/
theorem Reached.entered (reached : x.Reached t) {child : Site} {payload : π}
    (entering : ∀ b : Builder σ ν π, nestNext b a c x =
      match b child payload x.tallies.size (x.entered a c k env s) with
      | .ok _ z => .ok child z
      | .error e z => .error e z) : (x.entered a c k env s).Reached t := by
  have stopped := entering fun _ _ _ => (Routine.done (σ := σ) (ν := ν) (π := π)).run
  have ended : (Routine.nestNext (fun _ _ _ => .done) a c fun _ => .done : Routine σ ν π).run x =
      .ok () (x.entered a c k env s) := by
    have told : outcome (nestNext (fun _ _ _ => (Routine.done (σ := σ) (ν := ν) (π := π)).run) a c) x =
        .ok (.ok child) (x.entered a c k env s) := by
      rw [outcome, stopped]
      rfl
    rw [Routine.run, bind_of_ok told]
    rfl
  have reached' := reached.run (.nestNext (fun _ _ _ => .done) a c fun _ => .done)
  rwa [ended] at reached'

/-- A namespace is created for a scope, below one of the scope that the cursor is over, and code is
    started in it. How the code ends is how this ends. The new namespace is there from the beginning
    of the code on, whatever the code is and also if it fails, and so the scope counts as taken. -/
structure NestsNext (t : ScopeTree π) (x : Itinerary σ ν π) (a : Site) (c : CursorId) (k : Tally)
    (s : ScopeId) (env : Environment ν π) (payload : π) : Prop where
  found : x.envs[a.unit]? = some env
  fresh : (⟨a.unit, env.size⟩ : Site) ∉ x
  carried : t.payload? s = some payload
  reached : (x.entered a c k env s).Reached t
  ends : ∀ b : Builder σ ν π, nestNext b a c x =
    match b ⟨a.unit, env.size⟩ payload x.tallies.size (x.entered a c k env s) with
    | .ok _ z => .ok ⟨a.unit, env.size⟩ z
    | .error e z => .error e z
  created : ∀ r : Routine σ ν π, let z := left (r.run (x.entered a c k env s))
    ⟨a.unit, env.size⟩ ∈ z ∧ z.scope ⟨a.unit, env.size⟩ = s ∧
      ∃ after, z.envs[a.unit]? = some after ∧ after.parent? env.size = some a.id
  counted : ∀ r : Routine σ ν π, ∃ k', (left (r.run (x.entered a c k env s))).tallies[c]? = some k' ∧
    k.taken ++ [s] <+: k'.taken

/-- What a cursor does at a place, and what becomes of it. -/
structure InOrder (t : ScopeTree π) (x : Itinerary σ ν π) (c : CursorId) (k : Tally) : Prop where
  /-- What was taken is the beginning of what is nested in the scope. -/
  begun : k.counter.parent ∈ t ∧ k.taken <+: t.nested k.counter.parent
  remaining : k.counter.left? = some ((t.nested k.counter.parent).length - k.taken.length)
  next : next c x = .ok (k.upcoming? t) (x.setTally c k.advance)
  nextScope : nextScope c x = match k.upcoming? t with
    | some s => .ok s (x.setTally c k.advance)
    | none => .error (.nestedScopesExhausted k.counter.parent) x
  advance : k.advance.counter.parent = k.counter.parent ∧
    k.advance.taken = k.taken ++ (k.upcoming? t).toList
  copy : copy c x = .ok x.tallies.size (x.pushTally k)
  /-- Code that takes nothing from the cursor may do all else, with copies of it too. -/
  spared : ∀ r : Routine σ ν π, r.Avoids c → (left (r.run x)).tallies[c]? = some k
  kept : ∀ r : Routine σ ν π, ∃ k', (left (r.run x)).tallies[c]? = some k' ∧
    k'.counter.parent = k.counter.parent ∧ k.taken <+: k'.taken
  mismatch : ∀ a ∈ x, x.scope a ≠ k.counter.parent → ∀ b,
    nestNext b a c x = .error (.scopeMismatch (x.scope a) k.counter.parent) x
  exhausted : ∀ a ∈ x, x.scope a = k.counter.parent → k.upcoming? t = none → ∀ b,
    nestNext b a c x = .error (.nestedScopesExhausted k.counter.parent) x
  nests : ∀ a ∈ x, x.scope a = k.counter.parent → ∀ s, k.upcoming? t = some s →
    ∃ env payload, NestsNext t x a c k s env payload
  /-- A runner that is given the same cursor does the same. -/
  agrees : ∀ unit f, x.Shows unit c f → ∀ (r : Runner σ ν π) h,
    Agrees unit c (fun a g => a = ⟨unit, g⟩) (nestNext (.ofRunner r) ⟨unit, h⟩ c x) (r.nestNext h f)

theorem Sound.nestsNext (sound : x.Sound t) (analysed : t.Reachable) (reached : x.Reached t)
    (held : x.tallies[c]? = some k) (mem : a ∈ x) (same : x.scope a = k.counter.parent)
    (next : k.upcoming? t = some s) : ∃ env payload, NestsNext t x a c k s env payload := by
  obtain ⟨env, found, old⟩ := mem
  obtain ⟨payload, carried, entering⟩ := sound.nestNext_apply analysed held found old same next
  have reached' := reached.entered entering
  have leads (r : Routine σ ν π) :
      Leads (x.entered a c k env s) (left (r.run (x.entered a c k env s))) :=
    (r.run_goes _ (reached'.sound analysed)).2
  have there : (x.entered a c k env s).envs[a.unit]? = some (env.withChild a.id s) :=
    (envs_setEnv _ a.unit _ found).trans (if_pos rfl)
  refine ⟨env, payload, found, ?_, carried, reached', entering, fun r => ?_, fun r => ?_⟩
  · rintro ⟨env', found', new⟩
    obtain rfl := Option.some.inj (found.symm.trans found')
    exact Nat.lt_irrefl _ new
  · have child : (⟨a.unit, env.size⟩ : Site) ∈ x.entered a c k env s :=
      ⟨_, there, Environment.size_mem_withChild ..⟩
    have scope := (scope_eq (a := ⟨a.unit, env.size⟩) there).trans (Environment.scope_withChild ..)
    obtain ⟨after, found', further⟩ := (leads r).envs _ _ there
    refine ⟨((leads r).mem child).1, ((leads r).mem child).2.trans scope, after, found', ?_⟩
    rw [Environment.parent?, further.path _ (Environment.size_mem_withChild ..)]
    exact Environment.parent?_withChild ..
  · have inside : c < x.tallies.size := (Array.getElem?_eq_some_iff.mp held).1
    have size : (x.setTally c k.advance).tallies.size = x.tallies.size := Array.size_setIfInBounds
    have put : (x.entered a c k env s).tallies[c]? = some k.advance := by
      refine (tallies_pushTally ..).trans
        ((if_neg ?_).trans ((tallies_setTally x c _ held).trans (if_pos rfl)))
      exact Nat.ne_of_lt (size ▸ inside)
    obtain ⟨k', held', -, more⟩ := (leads r).tallies c _ put
    rw [(sound.tallies c k held).taken_advance, next] at more
    exact ⟨k', held', more⟩

/-- A cursor, also a copy of another, gives the scopes nested in its scope one after
    the other, and the next namespace is created for the one that it gives. -/
theorem cursors_in_order (analysed : t.Reachable) (reached : x.Reached t)
    (held : x.tallies[c]? = some k) : InOrder t x c k := by
  have sound := reached.sound analysed
  have good := sound.tallies c k held
  have own : x.cursorScope c = k.counter.parent := cursorScope_eq held
  have took := nextScope_apply held
  rw [good.next_eq] at took
  exact {
    begun := ⟨good.parent, good.taken_prefix⟩
    remaining := good.left?_eq
    next := good.next_eq ▸ next_apply held
    nextScope := took
    advance := ⟨k.parent_advance, good.taken_advance⟩
    copy := by rw [Touring.copy, held]
    spared := fun r avoids => (r.run_spares avoids x (Array.getElem?_eq_some_iff.mp held).1).trans held
    kept := fun r => (r.run_goes x sound).2.tallies c k held
    mismatch := fun a _ other b => by rw [nestNext_of_other b (own ▸ other.symm), own]
    exhausted := fun a _ same out b => by
      rw [out] at took
      rw [nestNext_of_same b (own.trans same.symm), bind_of_error took]
    nests := fun a mem same s => sound.nestsNext analysed reached held mem same
    agrees := fun unit f shown r h => nestNext_agrees r shown h }

/-- Takes a copy of the cursor over the global scope, and creates the next namespace there with
    code that breaks off. -/
def copiesAndFails : Routine Unit Nat Unit :=
  .build (fun a _ c => .copy c fun _ => .nestNext (fun _ _ _ => .fail (.undefinedName ⟨9⟩)) a c fun _ =>
    .done) ⟨0, NamespaceId.root⟩ fun _ => .done

theorem cursors_in_order_copiesAndFails :
    let t := ScopeTree.madeInTurn.finish
    let x :=
      left (copiesAndFails.run ⟨(), #[⟨t, #[Environment.activate t ScopeId.root []], ⟨∅, 0⟩⟩], #[]⟩)
    t.Reachable ∧ x.Reached t ∧ t.nested ScopeId.root = [1, 2] ∧
      x.tallies[0]? = some ⟨⟨0, [1, 2], 1⟩, [1]⟩ ∧ x.tallies[1]? = some ⟨⟨0, [1, 2], 0⟩, []⟩ ∧
      nextScope 0 x = .ok 2 (x.setTally 0 ⟨⟨0, [1, 2], 2⟩, [1, 2]⟩) ∧
      nextScope 1 x = .ok 1 (x.setTally 1 ⟨⟨0, [1, 2], 1⟩, [1]⟩) ∧
      (∀ b, nestNext b ⟨0, 1⟩ 0 x = .error (.scopeMismatch 1 0) x) ∧
      ∃ y, nestNext (fun _ _ _ => pure ()) ⟨0, 0⟩ 0 x = .ok ⟨0, 2⟩ y := by
  intro t x
  have analysed : t.Reachable := (ScopeTree.Reachable.recordAll _ (.new ())).step (.finish _)
  have reached : x.Reached t := .run (.start () rfl) _
  have nested : t.nested ScopeId.root = [1, 2] := by decide +kernel
  have original : x.tallies[0]? = some ⟨⟨0, [1, 2], 1⟩, [1]⟩ := by decide +kernel
  have duplicate : x.tallies[1]? = some ⟨⟨0, [1, 2], 0⟩, []⟩ := by decide +kernel
  have size : (x.envs[0]?).map Environment.size = some 2 := by decide +kernel
  have scopes : x.scope ⟨0, 0⟩ = 0 ∧ x.scope ⟨0, 1⟩ = 1 := by decide +kernel
  have first : (t.nested 0)[0]? = some 1 := congrArg (·[0]?) nested
  have second : (t.nested 0)[1]? = some 2 := congrArg (·[1]?) nested
  obtain ⟨env, found, size⟩ := Option.map_eq_some_iff.mp size
  have both (h : NamespaceId) (lt : h < 2) : (⟨0, h⟩ : Site) ∈ x :=
    ⟨env, found, Nat.lt_of_lt_of_eq lt size.symm⟩
  have order := cursors_in_order analysed reached original
  have order' := cursors_in_order analysed reached duplicate
  obtain ⟨env', payload, nests⟩ := order.nests ⟨0, 0⟩ (both 0 (by decide)) scopes.1 2 second
  obtain rfl := Option.some.inj (found.symm.trans nests.found)
  refine ⟨analysed, reached, nested, original, duplicate, order.nextScope.trans ?_,
    order'.nextScope.trans ?_, fun b => ?_, x.entered ⟨0, 0⟩ 0 ⟨⟨0, [1, 2], 1⟩, [1]⟩ env 2,
    (nests.ends _).trans ?_⟩
  · rw [Tally.upcoming?, List.length_singleton, second]
    rfl
  · rw [Tally.upcoming?, List.length_nil, first]
    rfl
  · rw [order.mismatch ⟨0, 1⟩ (both 1 (by decide)) (by rw [scopes.2]; decide) b, scopes.2]
  · rw [size]
    rfl

end Itinerary

end Scoping
