import Scoping.Proofs.Descent
import Scoping.Proofs.Replacement
import Scoping.Namespace.Itinerary

/-! What routines keep. Whatever code does with cursors and namespaces, what has been taken from a cursor
    is the beginning of the list of the scopes nested in its scope, and code that takes nothing from a
    cursor leaves it as it is. Namespaces stay where they are, and their scopes stay what they are. -/

namespace Scoping

/-! ### One cursor -/

namespace Counter

variable (k : Counter)

/-- What a counter gives is what the cursor that it comes to gives. -/
theorem next?_cursor : k.cursor.next? = k.next.1 := by
  rw [cursor, Cursor.next?, List.head?_drop, next]
  cases k.scopes[k.place]? <;> rfl

theorem advance_cursor : k.cursor.advance = k.next.2.cursor := by
  rw [cursor, Cursor.advance, List.tail_drop, next]
  cases found : k.scopes[k.place]? with
  | some s => rfl
  | none =>
    have passed := List.getElem?_eq_none_iff.mp found
    rw [List.drop_eq_nil_of_le (Nat.le_succ_of_le passed), cursor, List.drop_eq_nil_of_le passed]

theorem parent_next : k.next.2.parent = k.parent := by
  rw [next]
  cases k.scopes[k.place]? <;> rfl

end Counter

namespace Tally

variable {π : Type} {t : ScopeTree π} {k : Tally} {s : ScopeId}

/-- The next of the scopes nested in the scope of a tally, after those that were taken. -/
def upcoming? (t : ScopeTree π) (k : Tally) : Option ScopeId :=
  (t.nested k.counter.parent)[k.taken.length]?

/-- A tally whose scopes are those nested in a scope of a tree, with the first of them taken. -/
structure Sound (t : ScopeTree π) (k : Tally) : Prop where
  parent : k.counter.parent ∈ t
  scopes : k.counter.scopes = t.nested k.counter.parent
  place : k.counter.place ≤ k.counter.scopes.length
  taken : k.taken = k.counter.scopes.take k.counter.place

namespace Sound

theorem start (mem : s ∈ t) : Sound t ⟨.start t s, []⟩ := ⟨mem, rfl, Nat.zero_le _, rfl⟩

variable (sound : k.Sound t)

include sound

theorem length_taken : k.taken.length = k.counter.place := by
  rw [sound.taken, List.length_take, Nat.min_eq_left sound.place]

theorem taken_prefix : k.taken <+: t.nested k.counter.parent := by
  rw [sound.taken, sound.scopes]
  exact List.take_prefix ..

theorem left?_eq : k.counter.left? = some ((t.nested k.counter.parent).length - k.taken.length) := by
  rw [Counter.left?, if_pos sound.place, sound.length_taken, sound.scopes]

theorem next_eq : k.counter.next.1 = k.upcoming? t := by
  rw [Counter.next, upcoming?, sound.length_taken, ← sound.scopes]
  cases k.counter.scopes[k.counter.place]? <;> rfl

theorem advance : k.advance.Sound t := by
  rw [Tally.advance, Counter.next]
  cases found : k.counter.scopes[k.counter.place]? with
  | none =>
    refine ⟨sound.parent, sound.scopes, sound.place, ?_⟩
    exact (List.append_nil _).trans sound.taken
  | some s =>
    obtain ⟨lt, -⟩ := List.getElem?_eq_some_iff.mp found
    refine ⟨sound.parent, sound.scopes, lt, ?_⟩
    change k.taken ++ [s] = k.counter.scopes.take (k.counter.place + 1)
    rw [List.take_add_one, found, sound.taken]
    rfl

theorem taken_advance : k.advance.taken = k.taken ++ (k.upcoming? t).toList := by
  rw [Tally.advance, sound.next_eq]

end Sound

theorem parent_advance (k : Tally) : k.advance.counter.parent = k.counter.parent := k.counter.parent_next

theorem advance_of_none (out : k.counter.next.1 = none) : k.advance = k := by
  rw [advance, out]
  rw [Counter.next] at out ⊢
  cases found : k.counter.scopes[k.counter.place]? with
  | none => simp
  | some s =>
    rw [found] at out
    cases out

end Tally

/-! ### Environments and cursors -/

namespace Itinerary

variable {σ ν π : Type} {t : ScopeTree π} {x y z : Itinerary σ ν π} {a : Site} {c d : CursorId}
  {k : Tally} {env after : Environment ν π} {unit : Nat}

section lookups

variable (x)

theorem envs_setEnv (u : Nat) (env : Environment ν π) (found : x.envs[unit]? = some after) :
    (x.setEnv unit env).envs[u]? = if unit = u then some env else x.envs[u]? := by
  have inside : unit < x.envs.size := (Array.getElem?_eq_some_iff.mp found).1
  rw [setEnv, Array.getElem?_setIfInBounds, if_pos inside]

theorem tallies_setTally (d : CursorId) (k' : Tally) (held : x.tallies[c]? = some k) :
    (x.setTally c k').tallies[d]? = if c = d then some k' else x.tallies[d]? := by
  have inside : c < x.tallies.size := (Array.getElem?_eq_some_iff.mp held).1
  rw [setTally, Array.getElem?_setIfInBounds, if_pos inside]

theorem tallies_pushTally (k : Tally) (d : CursorId) :
    (x.pushTally k).tallies[d]? = if d =
      x.tallies.size then some k else x.tallies[d]? := Array.getElem?_push

end lookups

theorem setTally_self (held : x.tallies[c]? = some k) : x.setTally c k = x := by
  obtain ⟨inside, rfl⟩ := Array.getElem?_eq_some_iff.mp held
  rw [setTally, Array.setIfInBounds, dif_pos inside, Array.set_getElem_self]

theorem cursorScope_eq (held : x.tallies[c]? = some k) : x.cursorScope c = k.counter.parent := by
  rw [cursorScope, held]
  rfl

theorem scope_eq (found : x.envs[a.unit]? = some env) : x.scope a = env.scope a.id := by
  rw [scope, found]
  rfl

/-- An itinerary of a tree: its environments are environments of the tree, and its cursors
    are over scopes of it. -/
structure Sound (t : ScopeTree π) (x : Itinerary σ ν π) : Prop where
  envs : ∀ (u : Nat) (env : Environment ν π), x.envs[u]? = some env → env.tree = t ∧ env.WellFormed
  tallies : ∀ (c : CursorId) (k : Tally), x.tallies[c]? = some k → k.Sound t

/-- What is still there after some steps: environments and the namespaces in them, and cursors, from
    which more may have been taken. -/
structure Leads (x y : Itinerary σ ν π) : Prop where
  envs : ∀ (u : Nat) (env : Environment ν π), x.envs[u]? = some env →
    ∃ after, y.envs[u]? = some after ∧ env.Extends after
  tallies : ∀ (c : CursorId) (k : Tally), x.tallies[c]? = some k →
    ∃ k', y.tallies[c]? = some k' ∧ k'.counter.parent = k.counter.parent ∧ k.taken <+: k'.taken

namespace Leads

theorem refl (x : Itinerary σ ν π) : Leads x x :=
  ⟨fun _ env found => ⟨env, found, .refl env⟩, fun _ k held => ⟨k, held, rfl, List.prefix_refl _⟩⟩

theorem trans (first : Leads x y) (second : Leads y z) : Leads x z where
  envs u env found := by
    obtain ⟨after, found', further⟩ := first.envs u env found
    obtain ⟨last, found'', end'⟩ := second.envs u after found'
    exact ⟨last, found'', further.trans end'⟩
  tallies c k held := by
    obtain ⟨k', held', same, more⟩ := first.tallies c k held
    obtain ⟨k'', held'', same', more'⟩ := second.tallies c k' held'
    exact ⟨k'', held'', same'.trans same, more.trans more'⟩

theorem mem (leads : Leads x y) (mem : a ∈ x) : a ∈ y ∧ y.scope a = x.scope a := by
  obtain ⟨env, found, inside⟩ := mem
  obtain ⟨after, found', further⟩ := leads.envs a.unit env found
  exact ⟨⟨after, found', further.mem _ inside⟩,
    by rw [scope_eq found, scope_eq found', further.scope _ inside]⟩

end Leads

/-- Steps on an itinerary of a tree end with one, in which all is still there. -/
def Goes (t : ScopeTree π) (x y : Itinerary σ ν π) : Prop := x.Sound t → y.Sound t ∧ Leads x y

/-- A cursor is as it was. -/
def Spares (c : CursorId) (x y : Itinerary σ ν π) : Prop :=
  c < x.tallies.size → y.tallies[c]? = x.tallies[c]?

instance (t : ScopeTree π) : IsPreorder (Itinerary σ ν π) (Goes t) where
  refl x sound := ⟨sound, .refl x⟩
  trans x y z first second sound := by
    obtain ⟨between, leads⟩ := first sound
    obtain ⟨last, further⟩ := second between
    exact ⟨last, leads.trans further⟩

instance (c : CursorId) : IsPreorder (Itinerary σ ν π) (Spares c) where
  refl _ _ := rfl
  trans x y z first second inside := by
    have kept := first inside
    have inside' : c < y.tallies.size := by
      rw [Array.getElem?_eq_getElem inside] at kept
      exact (Array.getElem?_eq_some_iff.mp kept).1
    exact (second inside').trans kept

/-! ### Elementary changes -/

theorem Goes.setEnv (found : x.envs[unit]? = some env) (kept : env.WellFormed → after.WellFormed)
    (further : env.WellFormed → env.Extends after) : Goes t x (x.setEnv unit after) := fun sound => by
  obtain ⟨tree, wf⟩ := sound.envs unit env found
  refine ⟨⟨fun u e there => ?_, sound.tallies⟩, fun u e there => ?_, (Leads.refl x).tallies⟩
  · rw [envs_setEnv x u after found] at there
    split_ifs at there
    · cases there
      exact ⟨(further wf).tree.trans tree, kept wf⟩
    · exact sound.envs u e there
  · rw [envs_setEnv x u after found]
    split_ifs with here
    · subst here
      obtain rfl := Option.some.inj (found.symm.trans there)
      exact ⟨after, rfl, further wf⟩
    · exact ⟨e, there, .refl e⟩

theorem Goes.pushEnv (fresh : x.Sound t → env.tree = t ∧ env.WellFormed) :
    Goes t x { x with envs := x.envs.push env } := fun sound => by
  refine ⟨⟨fun u e there => ?_, sound.tallies⟩, fun u e there => ⟨e, ?_, .refl e⟩,
    (Leads.refl x).tallies⟩
  · rw [Array.getElem?_push] at there
    split_ifs at there
    · cases there
      exact fresh sound
    · exact sound.envs u e there
  · have inside := (Array.getElem?_eq_some_iff.mp there).1
    rw [Array.getElem?_push, if_neg (Nat.ne_of_lt inside), there]

theorem Goes.advance (held : x.tallies[c]? = some k) : Goes t x (x.setTally c k.advance) :=
  fun sound => by
  refine ⟨⟨sound.envs, fun d l there => ?_⟩, (Leads.refl x).envs, fun d l there => ?_⟩
  · rw [tallies_setTally x d _ held] at there
    split_ifs at there
    · cases there
      exact (sound.tallies c k held).advance
    · exact sound.tallies d l there
  · rw [tallies_setTally x d _ held]
    split_ifs with here
    · subst here
      obtain rfl := Option.some.inj (held.symm.trans there)
      exact ⟨_, rfl, k.parent_advance, List.prefix_append ..⟩
    · exact ⟨l, there, rfl, List.prefix_refl _⟩

theorem Goes.pushTally (fresh : x.Sound t → k.Sound t) : Goes t x (x.pushTally k) := fun sound => by
  refine ⟨⟨sound.envs, fun d l there => ?_⟩, (Leads.refl x).envs,
    fun d l there => ⟨l, ?_, rfl, List.prefix_refl _⟩⟩
  · rw [tallies_pushTally] at there
    split_ifs at there
    · cases there
      exact fresh sound
    · exact sound.tallies d l there
  · have inside := (Array.getElem?_eq_some_iff.mp there).1
    rw [tallies_pushTally, if_neg (Nat.ne_of_lt inside), there]

theorem Spares.pushTally (k : Tally) : Spares c x (x.pushTally k) := fun inside => by
  rw [tallies_pushTally, if_neg (Nat.ne_of_lt inside)]

theorem Spares.setTally (other : d ≠ c) (held : x.tallies[d]? = some k) (k' : Tally) :
    Spares c x (x.setTally d k') := fun _ => by
  rw [tallies_setTally x c k' held, if_neg other]

end Itinerary

/-! ### Steps -/

theorem Environment.call_keeps {ν π : Type} {env : Environment ν π} (wf : env.WellFormed)
    (k : NamespaceCall ν) : (env.call k).WellFormed ∧ env.Extends (env.call k) := by
  have steps := Session.perform_steps (x := .start env) k.operation wf
  have done : ((Session.start env).perform k.operation).env = env.call k := Session.env_perform _ k
  exact done ▸ ⟨steps.wellFormed wf, steps.extends⟩

namespace Touring

open Steps Itinerary

variable {σ ν π α : Type} {t : ScopeTree π} {x : Itinerary σ ν π}
  {R : Itinerary σ ν π → Itinerary σ ν π → Prop} {b : Builder σ ν π} {a : Site} {s : ScopeId}
    {c d : CursorId} {k : Tally}

theorem within_outcome {m : Touring σ ν π α} (hm : Within R m) : Within R (Touring.outcome m) := by
  intro x
  have within := hm x
  rw [Touring.outcome]
  cases done : m x <;> rwa [done] at within

section preorder

variable [IsPreorder _ R]

theorem within_look : Within R (Touring.look : Touring σ ν π (Itinerary σ ν π)) := refl

theorem within_nextScope (hnext : Within R (Touring.next c)) : Within R (Touring.nextScope c) := by
  refine .bind hnext fun found => ?_
  cases found with
  | some s => exact .pure s
  | none => exact .bind within_look fun x => .throw _

theorem within_nestWith (hcreate : Within R (Touring.create a s))
    (hb : ∀ a, Within R (Touring.build b a)) : Within R (Touring.nestWith b a s) :=
  .bind hcreate fun child => .bind (hb child) fun _ => .pure child

theorem within_nestNext (hnext : Within R (Touring.next c))
    (hcreate : ∀ s, Within R (Touring.create a s))
    (hb : ∀ a, Within R (Touring.build b a)) : Within R (Touring.nestNext b a c) := by
  refine .bind within_look fun x => ?_
  split_ifs
  · exact .bind (within_nextScope hnext) fun s => within_nestWith (hcreate s) hb
  · exact .throw _

end preorder

/-! ### What is still there -/

theorem goes_note (g : σ → σ) : Within (Goes t) (Touring.note g : Touring σ ν π Unit) := fun x sound =>
  ⟨⟨sound.envs, sound.tallies⟩, (Leads.refl x).envs, (Leads.refl x).tallies⟩

theorem goes_update (unit : Nat) {g : Environment ν π → Environment ν π}
    (kept : ∀ env, env.WellFormed → (g env).WellFormed ∧ env.Extends (g env)) :
    Within (Goes t) (Touring.update unit g : Touring σ ν π Unit) := by
  intro x
  rw [Touring.update]
  cases found : x.envs[unit]? with
  | none => exact refl x
  | some env => exact .setEnv found (fun wf => (kept env wf).1) fun wf => (kept env wf).2

theorem goes_openUnit (unit : Nat) (builtins : Builtins ν) :
    Within (Goes t) (Touring.openUnit unit builtins : Touring σ ν π Site) := by
  intro x
  rw [Touring.openUnit]
  cases found : x.envs[unit]? with
  | none => exact refl x
  | some env =>
    dsimp only
    cases started : Environment.start env.tree builtins with
    | error e => exact refl x
    | ok fresh =>
      refine .pushEnv fun sound => ?_
      obtain ⟨tree, wf⟩ := sound.envs unit env found
      refine ⟨?_, .start wf.tree started⟩
      rw [Environment.start] at started
      split_ifs at started
      cases started
      exact tree

theorem goes_create (a : Site) (s : ScopeId) :
    Within (Goes t) (Touring.create a s : Touring σ ν π Site) := by
  intro x
  rw [Touring.create]
  cases found : x.envs[a.unit]? with
  | none => exact refl x
  | some env =>
    dsimp only
    cases made : env.nest a.id s with
    | error e => exact refl x
    | ok after =>
      obtain ⟨⟨mem, fit⟩, rfl⟩ := Environment.nest_eq_ok.mp made
      exact .setEnv found (fun wf => wf.nest mem fit) fun _ => .grow ..

theorem goes_next (c : CursorId) :
    Within (Goes t) (Touring.next c : Touring σ ν π (Option ScopeId)) := by
  intro x
  rw [Touring.next]
  cases held : x.tallies[c]? with
  | none => exact refl x
  | some k => exact .advance held

theorem goes_copy (c : CursorId) : Within (Goes t) (Touring.copy c : Touring σ ν π CursorId) := by
  intro x
  rw [Touring.copy]
  cases held : x.tallies[c]? with
  | none => exact refl x
  | some k => exact .pushTally fun sound => sound.tallies c k held

/-- Code that is started gets a cursor over the scope of its namespace. -/
theorem goes_build (hb : ∀ a payload c, Within (Goes t) (b a payload c)) (a : Site) :
    Within (Goes t) (Touring.build b a) := by
  intro x
  rw [Touring.build]
  cases found : x.envs[a.unit]? with
  | none => exact refl x
  | some env =>
    dsimp only
    cases payload : env.tree.payload? (env.scope a.id) with
    | none => exact refl x
    | some p =>
      have mem : env.scope a.id ∈ env.tree := by
        by_contra out
        rw [ScopeTree.payload?, ScopeTree.scope?_of_not_mem out] at payload
        cases payload
      have begun : Goes t x (x.pushTally ⟨.start env.tree (env.scope a.id), []⟩) :=
        .pushTally fun sound => (sound.envs a.unit env found).1 ▸ .start mem
      exact IsTrans.trans _ _ _ begun (hb a p _ _)

/-! ### What is as it was -/

theorem spares_create (a : Site) (s : ScopeId) :
    Within (Spares c) (Touring.create a s : Touring σ ν π Site) := by
  intro x
  rw [Touring.create]
  cases x.envs[a.unit]? with
  | none => exact refl x
  | some env =>
    dsimp only
    cases env.nest a.id s <;> exact fun _ => rfl

theorem spares_update (unit : Nat) (g : Environment ν π → Environment ν π) :
    Within (Spares c) (Touring.update unit g : Touring σ ν π Unit) := by
  intro x
  rw [Touring.update]
  cases x.envs[unit]? <;> exact fun _ => rfl

theorem spares_openUnit (unit : Nat) (builtins : Builtins ν) :
    Within (Spares c) (Touring.openUnit unit builtins : Touring σ ν π Site) := by
  intro x
  rw [Touring.openUnit]
  cases x.envs[unit]? with
  | none => exact refl x
  | some env =>
    dsimp only
    cases Environment.start env.tree builtins <;> exact fun _ => rfl

theorem spares_next (other : d ≠ c) :
    Within (Spares c) (Touring.next d : Touring σ ν π (Option ScopeId)) := by
  intro x
  rw [Touring.next]
  cases held : x.tallies[d]? with
  | none => exact refl x
  | some k => exact .setTally other held _

/-- A copy of a cursor is another cursor. -/
theorem spares_copy (d : CursorId) (inside : c < x.tallies.size) :
    ∃ e y, Touring.copy d x = .ok e y ∧ e ≠ c ∧ Spares c x y := by
  rw [Touring.copy]
  cases held : x.tallies[d]? with
  | none =>
    have out : x.tallies.size ≤ d := Array.getElem?_eq_none_iff.mp held
    exact ⟨d, x, rfl, Nat.ne_of_gt (Nat.lt_of_lt_of_le inside out), fun _ => rfl⟩
  | some k => exact ⟨x.tallies.size, x.pushTally k, rfl, Nat.ne_of_gt inside, .pushTally k⟩

/-- Code that is started has a cursor of its own. -/
theorem spares_build (hb : ∀ a payload d, d ≠ c → Within (Spares c) (b a payload d)) (a : Site) :
    Within (Spares c) (Touring.build b a) := by
  intro x
  rw [Touring.build]
  cases x.envs[a.unit]? with
  | none => exact refl x
  | some env =>
    dsimp only
    cases env.tree.payload? (env.scope a.id) with
    | none => exact refl x
    | some p =>
      intro inside
      have begun : Spares c x (x.pushTally ⟨.start env.tree (env.scope a.id), []⟩) := .pushTally _
      exact IsTrans.trans _ _ _ begun (hb a p _ (Nat.ne_of_gt inside) _) inside

end Touring

/-! ### Routines -/

namespace Routine

open Steps Itinerary Touring

variable {σ ν π : Type} {t : ScopeTree π} {c : CursorId}

/-- Whatever a routine does, all is still there afterwards. -/
theorem run_goes (r : Routine σ ν π) : Within (Goes t) r.run := by
  induction r with
  | done => exact .pure ()
  | fail e => exact .throw e
  | look further ih => exact .bind within_look ih
  | note g further ih => exact .bind (goes_note g) fun _ => ih
  | call unit k further ih =>
    exact .bind (goes_update unit fun env wf => env.call_keeps wf k) fun _ => ih
  | install unit builtins further ih =>
    exact .bind (goes_update unit fun env wf => ⟨wf.install builtins, .install env builtins⟩) fun _ => ih
  | openUnit unit builtins further ih => exact .bind (within_outcome (goes_openUnit unit builtins)) ih
  | next c further ih => exact .bind (goes_next c) ih
  | nextScope c further ih => exact .bind (within_outcome (within_nextScope (goes_next c))) ih
  | copy c further ih => exact .bind (goes_copy c) ih
  | build builder a further inner ih => exact .bind (within_outcome (goes_build inner a)) ih
  | nestWith builder a s further inner ih =>
    exact .bind (within_outcome (within_nestWith (goes_create a s) (goes_build inner))) ih
  | nestNext builder a c further inner ih =>
    exact .bind (within_outcome (within_nestNext (goes_next c) (goes_create a) (goes_build inner))) ih

/-- Whether a routine takes nothing from a cursor, though it may copy it and take from the copies. -/
def Avoids (c : CursorId) : Routine σ ν π → Prop
  | done | fail _ => True
  | look further => ∀ x, Avoids c (further x)
  | note _ further | call _ _ further | install _ _ further => Avoids c further
  | openUnit _ _ further => ∀ o, Avoids c (further o)
  | next d further => d ≠ c ∧ ∀ o, Avoids c (further o)
  | nextScope d further => d ≠ c ∧ ∀ o, Avoids c (further o)
  | copy _ further => ∀ d, d ≠ c → Avoids c (further d)
  | build builder _ further =>
    (∀ a payload d, d ≠ c → Avoids c (builder a payload d)) ∧ ∀ o, Avoids c (further o)
  | nestWith builder _ _ further =>
    (∀ a payload d, d ≠ c → Avoids c (builder a payload d)) ∧ ∀ o, Avoids c (further o)
  | nestNext builder _ d further =>
    d ≠ c ∧ (∀ a payload d, d ≠ c → Avoids c (builder a payload d)) ∧ ∀ o, Avoids c (further o)

/-- A cursor from which a routine takes nothing is as it was. -/
theorem run_spares {r : Routine σ ν π} (avoids : r.Avoids c) : Within (Spares c) r.run := by
  induction r with
  | done => exact .pure ()
  | fail e => exact .throw e
  | look further ih => exact .bind within_look fun x => ih x (avoids x)
  | note g further ih => exact .bind (fun _ _ => rfl) fun _ => ih avoids
  | call unit k further ih => exact .bind (spares_update unit _) fun _ => ih avoids
  | install unit builtins further ih => exact .bind (spares_update unit _) fun _ => ih avoids
  | openUnit unit builtins further ih =>
    exact .bind (within_outcome (spares_openUnit unit builtins)) fun o => ih o (avoids o)
  | next d further ih => exact .bind (spares_next avoids.1) fun o => ih o (avoids.2 o)
  | nextScope d further ih =>
    exact .bind (within_outcome (within_nextScope (spares_next avoids.1))) fun o => ih o (avoids.2 o)
  | copy d further ih =>
    intro x inside
    obtain ⟨e, y, copied, other, kept⟩ := spares_copy d inside
    rw [run, bind_of_ok copied]
    exact IsTrans.trans _ _ _ kept (ih e (avoids e other) y) inside
  | build builder a further inner ih =>
    exact .bind (within_outcome (spares_build (fun a p d other => inner a p d (avoids.1 a p d other)) a))
      fun o => ih o (avoids.2 o)
  | nestWith builder a s further inner ih =>
    have built := spares_build fun a p d other => inner a p d (avoids.1 a p d other)
    exact .bind (within_outcome (within_nestWith (spares_create a s) built)) fun o => ih o (avoids.2 o)
  | nestNext builder a d further inner ih =>
    have built := spares_build fun a p d other => inner a p d (avoids.2.1 a p d other)
    exact .bind (within_outcome (within_nestNext (spares_next avoids.1) (spares_create a) built))
      fun o => ih o (avoids.2.2 o)

end Routine

end Scoping
