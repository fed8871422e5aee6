import Scoping.Namespace.Descent
import Scoping.Proofs.Arena
import Scoping.Proofs.History

/-! Descents. A descent creates a namespace for each scope in the list of its scope and descends
    from it before it goes on, so what it creates stands in the order of a walk over the nested
    lists, and each namespace has the one below which it was created for its parent. No creation is
    refused, since the lists of nested scopes and the parents agree, and a depth and a number of
    rounds beyond the size of the tree make no difference. Runners differ in how they loop and in
    what they take note of, and not in what they create. -/

namespace Scoping

namespace Environment

variable {ν π : Type} {env after last : Environment ν π} {g h : NamespaceId} {s : ScopeId}
  {created more : List NamespaceId} {scopes rest : List ScopeId}

/-! ### One namespace -/

/-- The environment with one more namespace, for a scope below a namespace. -/
abbrev withChild (env : Environment ν π) (h : NamespaceId) (s : ScopeId) : Environment ν π :=
  env.grow (activate env.tree s (env.path h))

theorem mem_withChild (mem : g ∈ env) : g ∈ env.withChild h s := (mem_grow ..).mpr (.inl mem)

theorem size_mem_withChild (env : Environment ν π) (h : NamespaceId) (s : ScopeId) :
    env.size ∈ env.withChild h s :=
  (mem_grow ..).mpr (.inr rfl)

theorem namespace?_withChild (env : Environment ν π) (h : NamespaceId) (s : ScopeId) :
    (env.withChild h s).namespace? env.size = some (activate env.tree s (env.path h)) := by
  rw [namespace?_grow, if_pos rfl]

theorem scope_withChild (env : Environment ν π) (h : NamespaceId) (s : ScopeId) :
    (env.withChild h s).scope env.size = s := by
  rw [scope, namespace?_withChild]
  rfl

theorem parent?_withChild (env : Environment ν π) (h : NamespaceId) (s : ScopeId) :
    (env.withChild h s).parent? env.size = some h := by
  rw [parent?, path, namespace?_withChild]
  rfl

/-! ### What a descent creates -/

/-- What is done below a namespace: the environment afterwards, and the namespaces that were created. -/
abbrev Below (ν π : Type) := NamespaceId → Environment ν π → Environment ν π × List NamespaceId

/-- Creates the namespaces of some scopes below a namespace, and descends from each in turn. -/
def descendThrough (below : Below ν π) (h : NamespaceId) :
    List ScopeId → Environment ν π → Environment ν π × List NamespaceId
  | [], env => (env, [])
  | s :: rest, env =>
    let inner := below env.size (env.withChild h s)
    let later := descendThrough below h rest inner.1
    (later.1, env.size :: inner.2 ++ later.2)

/-- Creates the namespaces of all scopes below that of a namespace, to a given depth. -/
def descend : Nat → Below ν π
  | 0, _, env => (env, [])
  | depth + 1, h, env => descendThrough (descend depth) h (env.tree.nested (env.scope h)) env

/-- What it means that namespaces were created below one: they come after those that were there,
    which are as they were, and each was created below that namespace or below one of them. -/
structure Descends (env after : Environment ν π) (h : NamespaceId)
    (created : List NamespaceId) : Prop where
  wellFormed : after.WellFormed
  tree : after.tree = env.tree
  builtins : after.builtins = env.builtins
  leads : ∀ first : Environment ν π, first.LeadsTo env → first.LeadsTo after
  size : after.size = env.size + created.length
  ids : created = List.range' env.size created.length
  kept : ∀ g ∈ env, after.namespace? g = env.namespace? g
  parents : ∀ c ∈ created, ∃ p, after.parent? c = some p ∧ (p = h ∨ p ∈ created)

namespace Descends

theorem refl (w : env.WellFormed) (h : NamespaceId) : Descends env env h [] :=
  ⟨w, rfl, rfl, fun _ used => used, rfl, rfl, fun _ _ => rfl, nofun⟩

theorem mem (d : Descends env after h created) (mem : g ∈ env) : g ∈ after :=
  Nat.lt_of_lt_of_le mem (d.size ▸ Nat.le_add_right ..)

theorem mem_created (d : Descends env after h created) : g ∈ created ↔ g ∈ after ∧ g ∉ env := by
  change g ∈ created ↔ g < after.size ∧ ¬ g < env.size
  rw [d.ids, List.mem_range'_1, d.size, Nat.not_lt]
  exact and_comm

theorem scope (d : Descends env after h created) (mem : g ∈ env) : after.scope g = env.scope g := by
  rw [Environment.scope, Environment.scope, d.kept g mem]

theorem parent? (d : Descends env after h created) (mem : g ∈ env) :
    after.parent? g = env.parent? g := by
  rw [Environment.parent?, Environment.parent?, path, path, d.kept g mem]

/-- One more namespace, what was created below it, and what was created after that. -/
theorem step (mem : h ∈ env) (fit : env.tree.parent? s = some (env.scope h))
    (inner : Descends (env.withChild h s) after env.size created) (later : Descends after last h more) :
    Descends env last h (env.size :: created ++ more) := by
  have grown : (env.withChild h s).size = env.size + 1 := size_grow ..
  have child := size_mem_withChild env h s
  refine ⟨later.wellFormed, later.tree.trans inner.tree, later.builtins.trans inner.builtins,
    fun first used => ?_, ?_, ?_, fun g old => ?_, fun c new => ?_⟩
  · exact later.leads first (inner.leads first (used.nest (nest_eq_ok.mpr ⟨⟨mem, fit⟩, rfl⟩)))
  · rw [later.size, inner.size, grown]
    simp
    omega
  · have first := inner.ids
    have second := later.ids
    rw [grown] at first
    rw [inner.size, grown] at second
    rw [List.cons_append, List.length_cons, List.range'_succ, List.length_append, ← List.range'_append_1,
      ← first, ← second]
  · have kept : g ∈ env.withChild h s := mem_withChild old
    rw [later.kept g (inner.mem kept), inner.kept g kept, namespace?_grow, if_neg (Nat.ne_of_lt old)]
  · rw [List.cons_append, List.mem_cons, List.mem_append] at new
    rcases new with rfl | new | new
    · refine ⟨h, ?_, .inl rfl⟩
      rw [later.parent? (inner.mem child), inner.parent? child, parent?_withChild]
    · obtain ⟨p, parent, outer⟩ := inner.parents c new
      refine ⟨p, ?_, .inr ?_⟩
      · rw [later.parent? (inner.mem_created.mp new).1, parent]
      · rcases outer with rfl | outer
        · simp
        · simp [outer]
    · obtain ⟨p, parent, outer⟩ := later.parents c new
      exact ⟨p, parent, outer.imp_right fun outer => by simp [outer]⟩

end Descends

/-! ### Through a list of scopes -/

/-- Scopes whose namespaces can be created below a namespace. -/
structure Fits (env : Environment ν π) (h : NamespaceId) (scopes : List ScopeId) : Prop where
  wellFormed : env.WellFormed
  mem : h ∈ env
  parent : ∀ s ∈ scopes, env.tree.parent? s = some (env.scope h)

namespace Fits

/-- The nested scopes of a namespace's scope fit below it. -/
theorem nested (w : env.WellFormed) (mem : h ∈ env) : Fits env h (env.tree.nested (env.scope h)) :=
  ⟨w, mem, fun _ listed => w.tree.wellFormed.mem_nested.mp listed⟩

theorem head (fits : Fits env h (s :: rest)) : env.tree.parent? s = some (env.scope h) :=
  fits.parent s (List.mem_cons_self ..)

theorem withChild (fits : Fits env h (s :: rest)) : (env.withChild h s).WellFormed :=
  fits.wellFormed.nest fits.mem fits.head

theorem scope (fits : Fits env h (s :: rest))
    (inner : Descends (env.withChild h s) after env.size created) : after.scope h = env.scope h :=
  (inner.scope (mem_withChild fits.mem)).trans (scope_grow _ _ fits.mem)

/-- The rest of the scopes fit when the descent from the first is done. -/
theorem tail (fits : Fits env h (s :: rest))
    (inner : Descends (env.withChild h s) after env.size created) : Fits after h rest := by
  refine ⟨inner.wellFormed, inner.mem (mem_withChild fits.mem), fun s' later => ?_⟩
  rw [inner.tree, fits.scope inner]
  exact fits.parent s' (List.mem_cons_of_mem _ later)

end Fits

section through

variable {below : Below ν π}
  (down : ∀ {env : Environment ν π} {g : NamespaceId}, env.WellFormed → g ∈ env →
    Descends env (below g env).1 g (below g env).2)

include down

theorem descendThrough_descends (fits : Fits env h scopes) :
    Descends env (descendThrough below h scopes env).1 h (descendThrough below h scopes env).2 := by
  induction scopes generalizing env with
  | nil => exact .refl fits.wellFormed h
  | cons s rest ih =>
    have inner := down fits.withChild (size_mem_withChild ..)
    exact .step fits.mem fits.head inner (ih (fits.tail inner))

/-- What is created for a list of scopes are the walks from these scopes, one after the other. -/
theorem scopes_descendThrough {depth : Nat}
    (walks : ∀ {env : Environment ν π} {g : NamespaceId}, env.WellFormed → g ∈ env →
      env.scope g :: (below g env).2.map (below g env).1.scope =
      env.tree.preOrderWithin (depth + 1) (env.scope g))
    (fits : Fits env h scopes) :
    (descendThrough below h scopes env).2.map (descendThrough below h scopes env).1.scope
      = scopes.flatMap (env.tree.preOrderWithin (depth + 1)) := by
  induction scopes generalizing env with
  | nil => rfl
  | cons s rest ih =>
    have child := size_mem_withChild env h s
    have inner := down fits.withChild child
    have walk := walks fits.withChild child
    rw [scope_withChild] at walk
    rw [descendThrough]
    generalize below env.size (env.withChild h s) = made at inner walk ⊢
    have later := descendThrough_descends down (fits.tail inner)
    have own : (descendThrough below h rest made.1).1.scope env.size = s := by
      rw [later.scope (inner.mem child), inner.scope child, scope_withChild]
    have old : made.2.map (descendThrough below h rest made.1).1.scope = made.2.map made.1.scope :=
      List.map_congr_left fun c new => later.scope (inner.mem_created.mp new).1
    have walks_rest := ih (fits.tail inner)
    rw [inner.tree] at walks_rest
    dsimp only
    rw [List.map_append, List.map_cons, own, old, walk, walks_rest]
    rfl

/-- Descents that agree below the scopes of a list agree on the list. -/
theorem descendThrough_congr {below' : Below ν π} (fits : Fits env h scopes)
    (same : ∀ {after : Environment ν π} {g : NamespaceId}, after.WellFormed → g ∈ after →
      after.tree = env.tree → after.scope g ∈ scopes → below g after = below' g after) :
    descendThrough below h scopes env = descendThrough below' h scopes env := by
  induction scopes generalizing env with
  | nil => rfl
  | cons s rest ih =>
    have child := size_mem_withChild env h s
    have inner := down fits.withChild child
    have agreed := same fits.withChild child rfl (by rw [scope_withChild]; exact List.mem_cons_self ..)
    rw [descendThrough, descendThrough, ← agreed, ih (fits.tail inner) fun w mem tree listed => ?_]
    exact same w mem (tree.trans inner.tree) (List.mem_cons_of_mem _ listed)

end through

theorem descend_descends :
    ∀ (depth : Nat) {env : Environment ν π} {h : NamespaceId}, env.WellFormed → h ∈ env →
    Descends env (descend depth h env).1 h (descend depth h env).2
  | 0, _, h, w, _ => .refl w h
  | depth + 1, _, _, w, mem => descendThrough_descends (descend_descends depth) (.nested w mem)

/-- What is created to a depth is what a walk over the nested lists comes to. -/
theorem scopes_descend :
    ∀ (depth : Nat) {env : Environment ν π} {h : NamespaceId}, env.WellFormed → h ∈ env →
    env.scope h :: (descend depth h env).2.map (descend depth h env).1.scope
      = env.tree.preOrderWithin (depth + 1) (env.scope h)
  | 0, env, h, _, _ => by simp [descend, ScopeTree.preOrderWithin]
  | depth + 1, env, h, w, mem => by
    rw [descend, scopes_descendThrough (descend_descends depth) (scopes_descend depth) (.nested w mem)]
    rfl

/-- One depth less is enough for what is nested in a scope. -/
theorem WellFormed.deep_nested (w : env.WellFormed) {depth : Nat}
    (deep : env.tree.size ≤ env.scope h + (depth + 1))
    (listed : s ∈ env.tree.nested (env.scope h)) : env.tree.size ≤ s + depth := by
  have wf := w.tree.wellFormed
  obtain ⟨-, lt, -⟩ := wf.enclosing_of_parent? (wf.mem_nested.mp listed)
  rw [← Nat.succ_add_eq_add_succ] at deep
  exact Nat.le_trans deep (Nat.add_le_add_right lt depth)

/-- A depth beyond the scopes that come after a scope makes no difference. -/
theorem descend_eq :
    ∀ {depth depth' : Nat} {env : Environment ν π} {h : NamespaceId}, env.WellFormed → h ∈ env →
    env.tree.size ≤ env.scope h + depth → env.tree.size ≤ env.scope h + depth' →
    descend depth h env = descend depth' h env
  | 0, _, _, _, w, mem, le, _ => absurd (w.scope_mem mem) (Nat.not_lt.mpr le)
  | _ + 1, 0, _, _, w, mem, _, le => absurd (w.scope_mem mem) (Nat.not_lt.mpr le)
  | depth + 1, depth' + 1, env, h, w, mem, le, le' => by
    refine descendThrough_congr (descend_descends depth) (.nested w mem) fun
      {after g} w' mem' tree listed => ?_
    exact descend_eq w' mem' (tree ▸ w.deep_nested le listed) (tree ▸ w.deep_nested le' listed)

end Environment

/-! ### Runners that descend -/

namespace Runner

open Running Environment

variable {σ ν π : Type} {made entering : NamespaceId → σ → σ} {t : ScopeTree π} {depth rounds : Nat}
  {r : Runner σ ν π} {f : Frame σ ν π} {h : NamespaceId} {s : ScopeId} {rest : List ScopeId}

/-- The frame after a descent that takes note of each namespace when it is made and when it
    is entered. -/
def swept (made entering : NamespaceId → σ → σ) (own : σ) (r : Environment ν π × List NamespaceId)
    (c : Cursor) : Frame σ ν π :=
  ⟨r.2.foldl (fun o child => entering child (made child o)) own, r.1, c⟩

/-- A runner that, called on a namespace, descends from it and uses the cursor up. -/
def Sweeps (made entering : NamespaceId → σ → σ) (t : ScopeTree π) (depth : Nat)
    (r : Runner σ ν π) : Prop :=
  ∀ (f : Frame σ ν π) (h : NamespaceId) (payload : π), f.env.WellFormed → f.env.tree = t → h ∈ f.env →
    t.size ≤ f.env.scope h + depth → f.cursor = .start t (f.env.scope h) →
    r h payload f = .ok () (swept made entering (entering h f.own) (descend depth h f.env)
      ⟨f.env.scope h, []⟩)

theorem Sweeps.build (hr : Sweeps made entering t depth r) (w : f.env.WellFormed) (tree : f.env.tree = t)
    (mem : h ∈ f.env) (deep : t.size ≤ f.env.scope h + depth) :
    r.build h f = .ok () (swept made entering (entering h f.own) (descend depth h f.env) f.cursor) := by
  obtain ⟨payload, found⟩ : ∃ payload, f.env.tree.payload? (f.env.scope h) = some payload := by
    have inside := w.scope_mem mem
    rw [ScopeTree.payload?, ScopeTree.scope?, Array.getElem?_eq_getElem inside]
    exact ⟨_, rfl⟩
  have run :=
    hr { f with cursor := .start f.env.tree (f.env.scope h) } h payload w tree mem deep (by rw [tree])
  rw [Runner.build, found]
  dsimp only
  rw [run]
  rfl

/-! ### Rounds -/

/-- A frame with a cursor over scopes that fit below a namespace. -/
structure Poised (t : ScopeTree π) (h : NamespaceId) (scopes : List ScopeId)
    (f : Frame σ ν π) : Prop where
  fits : f.env.Fits h scopes
  tree : f.env.tree = t
  cursor : f.cursor = ⟨f.env.scope h, scopes⟩

/-- A frame of this kind, and a depth that is enough for the scopes. -/
structure Ready (t : ScopeTree π) (depth : Nat) (h : NamespaceId) (scopes : List ScopeId)
    (f : Frame σ ν π) : Prop extends Poised t h scopes f where
  deep : ∀ s ∈ scopes, t.size ≤ s + depth

/-- Steps that take the next scope, create its namespace below one, and descend from it. -/
def Rounds (made entering : NamespaceId → σ → σ) (t : ScopeTree π) (depth : Nat) (h : NamespaceId)
    (body : Running σ ν π Unit) : Prop :=
  ∀ (f : Frame σ ν π) (s : ScopeId) (rest : List ScopeId), Ready t depth h (s :: rest) f →
    body f = .ok () (swept made entering (entering f.env.size (made f.env.size f.own))
      (descend depth f.env.size (f.env.withChild h s)) ⟨f.env.scope h, rest⟩)

namespace Poised

theorem create (poised : Poised t h (s :: rest) f) (own : σ) (c : Cursor) :
    Running.create h s ⟨own, f.env, c⟩ = .ok f.env.size ⟨own, f.env.withChild h s, c⟩ := by
  rw [Running.create, nest_eq_ok.mpr ⟨⟨poised.fits.mem, poised.fits.head⟩, rfl⟩]

theorem take (poised : Poised t h (s :: rest) f) :
    Running.take h f = .ok s { f with cursor := ⟨f.env.scope h, rest⟩ } := by
  rw [Running.take, poised.cursor]
  exact if_pos rfl

theorem next (poised : Poised t h (s :: rest) f) :
    Running.next f = .ok (some s) { f with cursor := ⟨f.env.scope h, rest⟩ } := by
  rw [Running.next, poised.cursor]
  rfl

end Poised

/-- A runner that is called on the next namespace descends from it. -/
theorem Ready.build (ready : Ready t depth h (s :: rest) f) (hr : Sweeps made entering t depth r)
    (own : σ) (c : Cursor) :
    r.build f.env.size ⟨own, f.env.withChild h s, c⟩ =
      .ok () (swept made entering (entering f.env.size own)
      (descend depth f.env.size (f.env.withChild h s)) c) := by
  refine hr.build ready.fits.withChild ready.tree (size_mem_withChild ..) ?_
  rw [scope_withChild]
  exact ready.deep s (List.mem_cons_self ..)

theorem discard_of_ok {α : Type} {m : Running σ ν π α} {a : α} {g : Frame σ ν π} (done : m f = .ok a g) :
    discard m f = .ok () g := by
  change EStateM.map (fun _ => ()) m f = _
  rw [EStateM.map, done]

/-- A round that takes the next namespace as a caller would. -/
theorem Sweeps.rounds_nestNext (hr : Sweeps (fun _ o => o) entering t depth r) (h : NamespaceId) :
    Rounds (fun _ o => o) entering t depth h (discard (r.nestNext h)) := by
  intro f s rest ready
  have created := ready.create f.own ⟨f.env.scope h, rest⟩
  refine discard_of_ok (a := f.env.size) ?_
  rw [nestNext, bind_of_ok ready.take, nestWith, bind_of_ok created, bind_of_ok (ready.build hr ..)]
  rfl

section listing

variable {r : Runner (List NamespaceId) ν π} (hr : Sweeps (fun c o => o ++ [c]) (fun _ o => o) t depth r)

include hr

/-- A round that takes the next scope by a checked call, and lists the namespace. -/
theorem rounds_nestEach (h : NamespaceId) : Rounds (fun c o => o ++ [c]) (fun _ o => o) t depth h (do
    let s ← Running.take h
    let child ← Running.create h s
    Running.note (· ++ [child])
    r.build child) := by
  intro f s rest ready
  have created := ready.create f.own ⟨f.env.scope h, rest⟩
  rw [bind_of_ok ready.take, bind_of_ok created]
  exact ready.build hr ..

/-- A round that takes what the cursor gives, and lists the namespace. -/
theorem rounds_nestGiven (h : NamespaceId) :
    Rounds (fun c o => o ++ [c]) (fun _ o => o) t depth h (r.nestGiven h) := by
  intro f s rest ready
  have created := ready.create f.own ⟨f.env.scope h, rest⟩
  rw [nestGiven, bind_of_ok ready.next]
  dsimp only
  rw [bind_of_ok created]
  exact ready.build hr ..

end listing

/-! ### Loops -/

/-- The frame when the cursor is used up. -/
def usedUp (made entering : NamespaceId → σ → σ) (depth : Nat) (h : NamespaceId) (scopes : List ScopeId)
    (f : Frame σ ν π) : Frame σ ν π :=
  swept made entering f.own (descendThrough (descend depth) h scopes f.env) ⟨f.env.scope h, []⟩

namespace Ready

theorem usedUp_nil (ready : Ready t depth h [] f) : usedUp made entering depth h [] f = f := by
  rw [usedUp, swept, ← ready.cursor]
  rfl

theorem remaining {scopes : List ScopeId} (ready : Ready t depth h scopes f) :
    Running.remaining f = .ok scopes f := by
  rw [Running.remaining, ready.cursor]

variable {body : Running σ ν π Unit} (hb : Rounds made entering t depth h body)

include hb

/-- One round leaves a frame that is ready for the rest, and the end is the same from there. -/
theorem round (ready : Ready t depth h (s :: rest) f) :
    ∃ g, body f = .ok () g ∧ Ready t depth h rest g ∧
      usedUp made entering depth h rest g = usedUp made entering depth h (s :: rest) f := by
  have ran := hb f s rest ready
  have inner := descend_descends depth ready.fits.withChild (size_mem_withChild ..)
  have scope := ready.fits.scope inner
  refine ⟨_, ran, ⟨⟨ready.fits.tail inner, inner.tree.trans ready.tree, ?_⟩, fun s' later => ?_⟩, ?_⟩
  · rw [swept, scope]
  · exact ready.deep s' (List.mem_cons_of_mem _ later)
  · simp only [usedUp, swept, descendThrough, scope, List.foldl_append, List.foldl_cons]

theorem forM {scopes : List ScopeId} (ready : Ready t depth h scopes f) :
    (scopes.forM fun _ => body) f = .ok () (usedUp made entering depth h scopes f) := by
  induction scopes generalizing f with
  | nil =>
    rw [ready.usedUp_nil]
    rfl
  | cons s rest ih =>
    obtain ⟨g, ran, next, same⟩ := ready.round hb
    rw [List.forM, bind_of_ok ran, ih next, same]

/-- A loop with enough rounds ends because nothing is left. -/
theorem whileLeft {scopes : List ScopeId} (ready : Ready t depth h scopes f)
    (enough : scopes.length ≤ rounds) :
    Running.whileLeft body rounds f = .ok () (usedUp made entering depth h scopes f) := by
  induction scopes generalizing f rounds with
  | nil =>
    rw [ready.usedUp_nil]
    cases rounds with
    | zero => rfl
    | succ rounds =>
      rw [Running.whileLeft, bind_of_ok ready.remaining]
      rfl
  | cons s rest ih =>
    obtain ⟨g, ran, next, same⟩ := ready.round hb
    cases rounds with
    | zero => cases enough
    | succ rounds =>
      rw [Running.whileLeft, bind_of_ok ready.remaining, ← same,
        ← ih next (Nat.le_of_succ_le_succ enough)]
      exact bind_of_ok ran _

end Ready

/-! ### The runners -/

/-- The walk over the nested lists ends before a depth of zero. -/
theorem Sweeps.zero (r : Runner σ ν π) : Sweeps made entering t 0 r := by
  rintro f h payload w rfl mem deep -
  exact absurd (w.scope_mem mem) (Nat.not_lt.mpr deep)

/-- A runner that is called on a namespace is ready for all that is nested in its scope,
    one depth further down. -/
theorem ready_start (w : f.env.WellFormed) (tree : f.env.tree = t) (mem : h ∈ f.env)
    (deep : t.size ≤ f.env.scope h + (depth + 1)) (cursor : f.cursor = .start t (f.env.scope h)) :
    Ready t depth h (t.nested (f.env.scope h)) f := by
  subst tree
  exact ⟨⟨.nested w mem, rfl, cursor⟩, fun s listed => w.deep_nested deep listed⟩

theorem usedUp_start (tree : f.env.tree = t) : usedUp made entering depth h (t.nested (f.env.scope h)) f
    = swept made entering f.own (descend (depth + 1) h f.env) ⟨f.env.scope h, []⟩ := by
  rw [← tree]
  rfl

/-- What is nested in a scope are at most all scopes. -/
theorem length_nested_le (wf : t.WellFormed) (s : ScopeId) : (t.nested s).length ≤ t.size := by
  rw [wf.nested]
  exact Nat.le_trans (List.length_filter_le ..) (by simp [ScopeTree.ids])

theorem sweeps_nestEach (t : ScopeTree π) : ∀ depth,
    Sweeps (fun c o => o ++ [c]) (fun _ o => o) t depth (within nestEach depth : Runner _ ν π)
  | 0 => .zero _
  | depth + 1 => by
    intro f h payload w tree mem deep cursor
    have ready := ready_start w tree mem deep cursor
    rw [within, nestEach, bind_of_ok ready.remaining]
    have ran := ready.forM (rounds_nestEach (sweeps_nestEach _ depth) h)
    rw [usedUp_start tree] at ran
    exact ran

theorem sweeps_nestWhile (enough : t.size ≤ rounds) : ∀ depth,
    Sweeps (fun c o => o ++ [c]) (fun _ o => o) t depth (within (nestWhile rounds) depth : Runner _ ν π)
  | 0 => .zero _
  | depth + 1 => by
    intro f h payload w tree mem deep cursor
    have ready := ready_start w tree mem deep cursor
    have short := Nat.le_trans (length_nested_le (tree ▸ w.tree.wellFormed) (f.env.scope h)) enough
    have ran := ready.whileLeft (rounds_nestGiven (sweeps_nestWhile enough depth) h) short
    rw [usedUp_start tree] at ran
    exact ran

theorem sweeps_exhaust (t : ScopeTree π) : ∀ depth,
    Sweeps (fun _ o => o) (fun _ o => o) t depth (within exhaust depth : Runner σ ν π)
  | 0 => .zero _
  | depth + 1 => by
    intro f h payload w tree mem deep cursor
    have ready := ready_start w tree mem deep cursor
    rw [within, exhaust, bind_of_ok ready.remaining]
    have ran := ready.forM ((sweeps_exhaust _ depth).rounds_nestNext h)
    rw [usedUp_start tree] at ran
    exact ran

theorem sweeps_visitWhile (visit : NamespaceId → σ → σ) (enough : t.size ≤ rounds) : ∀ depth,
    Sweeps (fun _ o => o) visit t depth (within (visitWhile visit rounds) depth : Runner σ ν π)
  | 0 => .zero _
  | depth + 1 => by
    intro f h payload w tree mem deep cursor
    have ready := ready_start (f := { f with own := visit h f.own }) w tree mem deep cursor
    have short := Nat.le_trans (length_nested_le (tree ▸ w.tree.wellFormed) (f.env.scope h)) enough
    have ran := ready.whileLeft ((sweeps_visitWhile visit enough depth).rounds_nestNext h) short
    rw [usedUp_start (f := { f with own := visit h f.own }) tree] at ran
    exact ran

theorem swept_listing (own : List NamespaceId) (r : Environment ν π × List NamespaceId) (c : Cursor) :
    swept (fun c o => o ++ [c]) (fun _ o => o) own r c = ⟨own ++ r.2, r.1, c⟩ := by
  have listed (created own : List NamespaceId) :
      created.foldl (fun o c => o ++ [c]) own = own ++ created := by
    induction created generalizing own with
    | nil => simp
    | cons c created ih => simp [ih]
  rw [swept, listed]

/-- A depth beyond the size of the tree makes no difference to a call from outside. -/
theorem Sweeps.build_within {step : Runner σ ν π → Runner σ ν π}
    (hs : ∀ depth, Sweeps made entering t depth (within step depth)) (w : f.env.WellFormed)
    (tree : f.env.tree = t) (mem : h ∈ f.env) (deep : t.size ≤ depth) :
    (within step depth).build h f
      = .ok () (swept made entering (entering h f.own) (descend t.size h f.env) f.cursor) := by
  have enough : t.size ≤ f.env.scope h + depth := Nat.le_trans deep (Nat.le_add_left ..)
  subst tree
  rw [(hs depth).build w rfl mem enough, descend_eq w mem enough (Nat.le_add_left ..)]

theorem Sweeps.build_recursive {step : Runner σ ν π → Runner σ ν π}
    (hs : ∀ depth, Sweeps made entering t depth (within step depth)) (w : f.env.WellFormed)
    (tree : f.env.tree = t) (mem : h ∈ f.env) :
    (recursive step).build h f
      = .ok () (swept made entering (entering h f.own) (descend t.size h f.env) f.cursor) := by
  rw [← Sweeps.build_within hs w tree mem (Nat.le_refl _), ← tree]
  rfl

end Runner

/-! ### Main result -/

namespace ScopeTree.WellFormed

variable {π : Type} {t : ScopeTree π} {a s : ScopeId}

/-- The walks from what is nested in a scope come to the scopes that have it around them. -/
theorem mem_walks_below (wf : t.WellFormed) :
    s ∈ (t.nested a).flatMap t.preOrder ↔ a ∈ t.enclosing s := by
  constructor
  · intro found
    obtain ⟨c, listed, found⟩ := List.mem_flatMap.mp found
    have outer := (wf.enclosing_of_parent? (wf.mem_nested.mp listed)).2.2
    have around : a ∈ t.enclosing c := by
      rw [outer]
      exact List.mem_cons_self ..
    rcases List.mem_cons.mp (wf.path_of_mem_preOrderWithin found) with rfl | inner
    · exact around
    · exact wf.enclosing_subset inner around
  · intro around
    obtain ⟨c, below, parent⟩ := wf.exists_child around
    have inside := (wf.enclosing_eq (List.ne_nil_of_mem around)).1
    have shallow : (t.enclosing s).length < (t.enclosing c).length + t.size :=
      Nat.lt_of_le_of_lt (wf.length_enclosing_le s) (Nat.lt_of_lt_of_le inside (Nat.le_add_left ..))
    have found := (preOrderWithin_perm ..).mem_iff.mpr (mem_postOrderWithin wf below shallow)
    exact List.mem_flatMap.mpr ⟨c, wf.mem_nested.mpr parent, found⟩

theorem nodup_walks_below (wf : t.WellFormed) (mem : a ∈ t) :
    ((t.nested a).flatMap t.preOrder).Nodup := by
  have walk := wf.nodup_preOrderWithin t.size a
  rw [← preOrder, wf.preOrder_eq mem] at walk
  exact (List.nodup_cons.mp walk).2

end ScopeTree.WellFormed

namespace Environment

variable {ν π : Type} {first env : Environment ν π} {t : ScopeTree π} {builtins : Builtins ν}
  {h : NamespaceId}

/-- What is created below a namespace has the scopes below its scope, in the order of a walk. -/
theorem scopes_descend_size (w : env.WellFormed) (mem : h ∈ env) :
    (descend env.tree.size h env).2.map (descend env.tree.size h env).1.scope
      = (env.tree.nested (env.scope h)).flatMap env.tree.preOrder := by
  have walk := scopes_descend env.tree.size w mem
  rw [ScopeTree.preOrderWithin] at walk
  exact (List.cons.inj walk).2

/-- Where no two namespaces have one scope, the namespace of a scope is the one that is found. -/
theorem among?_eq_some {created : List NamespaceId} (apart : (created.map env.scope).Nodup) {s : ScopeId}
    {c : NamespaceId} : env.among? created s = some c ↔ c ∈ created ∧ env.scope c = s := by
  constructor
  · intro found
    exact ⟨List.mem_of_find?_eq_some found, by simpa using List.find?_some found⟩
  · rintro ⟨listed, rfl⟩
    cases found : env.among? created (env.scope c) with
    | none =>
      have missing := List.find?_eq_none.mp found c listed
      simp at missing
    | some c' =>
      have same : env.scope c' = env.scope c := by simpa using List.find?_some found
      rw [List.inj_on_of_nodup_map apart (List.mem_of_find?_eq_some found) listed same]

theorem isSome_among? {created : List NamespaceId} {s : ScopeId} :
    (env.among? created s).isSome ↔ s ∈ created.map env.scope := by
  rw [among?, List.find?_isSome, List.mem_map]
  simp only [decide_eq_true_iff]

/-- A namespace around another has the scope around that of the other. -/
theorem WellFormed.parent?_scope (w : env.WellFormed) {c p : NamespaceId} (mem : c ∈ env)
    (parent : env.parent? c = some p) : env.tree.parent? (env.scope c) = some (env.scope p) := by
  have inner : c ≠ NamespaceId.root := by
    rintro rfl
    rw [parent?, w.path_root] at parent
    cases parent
  obtain ⟨p', -, way, outer⟩ := w.below c mem inner
  rw [parent?, way] at parent
  obtain rfl : p' = p := Option.some.inj parent
  exact outer

/-- The environment of a function and toplevel code with a scope in each, with a namespace
    for the function. -/
def madeInTurn : Session Nat Unit :=
  (Session.start ⟨ScopeTree.madeInTurn.finish, #[activate ScopeTree.madeInTurn.finish ScopeId.root []],
      (Builtins.ofList [] 0).1⟩).performAll [.nest 0 1]

/-- What a descent from a namespace creates, and what is left alone. -/
structure MirrorsBelow (t : ScopeTree π) (first env : Environment ν π) (h : NamespaceId)
    (after : Environment ν π) (created : List NamespaceId) : Prop where
  nestAll : ∀ own cursor, Runner.nestAll.build h ⟨own, env, cursor⟩ =
    .ok () ⟨own ++ created, after, cursor⟩
  /-- It ends because nothing is left, not because a depth or a number of rounds is used up. -/
  bounds : ∀ depth rounds, t.size ≤ depth → t.size ≤ rounds → ∀ own cursor,
    (Runner.within (Runner.nestWhile rounds) depth).build h ⟨own, env, cursor⟩
      = .ok () ⟨own ++ created, after, cursor⟩
  order : created.map after.scope = (t.nested (env.scope h)).flatMap t.preOrder
  once : ∀ s, (created.map after.scope).count s = if env.scope h ∈ t.enclosing s then 1 else 0
  new : ∀ c, c ∈ created ↔ c ∈ after ∧ c ∉ env
  parents : ∀ c ∈ created, ∃ s, t.parent? (after.scope c) = some s ∧
    after.parent? c = if s = env.scope h then some h else after.among? created s
  among? : ∀ s c, after.among? created s = some c ↔ c ∈ created ∧ after.scope c = s
  isSome : ∀ s, (after.among? created s).isSome ↔ env.scope h ∈ t.enclosing s
  leads : first.LeadsTo after
  kept : ∀ g ∈ env, after.namespace? g = env.namespace? g
  builtins : after.builtins = env.builtins
  exhaust : ∀ {σ : Type} (own : σ) cursor,
    (Runner.recursive Runner.exhaust).build h ⟨own, env, cursor⟩ = .ok () ⟨own, after, cursor⟩
  /-- A runner that creates the next namespace over and over is called on the same
      namespaces in the same order. -/
  visits : ∀ {σ : Type} (visit : NamespaceId → σ → σ) depth rounds, t.size ≤ depth → t.size ≤ rounds →
    ∀ own cursor, (Runner.within (Runner.visitWhile visit rounds) depth).build h ⟨own, env, cursor⟩
      = .ok () ⟨(h :: created).foldl (fun o g => visit g o) own, after, cursor⟩

/-- A descent from a namespace never fails, and creates one namespace for every scope that is nested in
    its scope at any depth, the outer before the inner, each below the namespace of the scope around. -/
theorem descents_mirror_scopes (analysed : t.Reachable)
    (started : Environment.start t builtins = .ok first)
    (used : first.LeadsTo env) (mem : h ∈ env) :
    ∃ after created, MirrorsBelow t first env h after created := by
  have w := used.wellFormed (.start analysed started)
  have tree : env.tree = t := by
    rw [used.tree (.start analysed started), start_tree started]
  have made := descend_descends t.size w mem
  have scopes := scopes_descend_size w mem
  rw [tree] at scopes
  have wf := analysed.wellFormed
  have apart : ((descend t.size h env).2.map (descend t.size h env).1.scope).Nodup := by
    rw [scopes]
    exact wf.nodup_walks_below (tree ▸ w.scope_mem mem)
  refine ⟨(descend t.size h env).1, (descend t.size h env).2, {
    nestAll := fun own cursor => ?_
    bounds := fun depth rounds deep enough own cursor => ?_
    order := scopes
    once := fun s => ?_
    new := fun c => made.mem_created
    parents := fun c new => ?_
    among? := fun s c => among?_eq_some apart
    isSome := fun s => ?_
    leads := made.leads first used
    kept := made.kept
    builtins := made.builtins
    exhaust := fun {σ} own cursor => ?_
    visits := fun {σ} visit depth rounds deep enough own cursor => ?_ }⟩
  · rw [Runner.nestAll, Runner.Sweeps.build_recursive (Runner.sweeps_nestEach t) w tree mem,
      Runner.swept_listing]
  · rw [Runner.Sweeps.build_within (Runner.sweeps_nestWhile enough) w tree mem deep,
      Runner.swept_listing]
  · rw [apart.count, scopes]
    simp only [wf.mem_walks_below]
  · obtain ⟨p, parent, outer⟩ := made.parents c new
    have around := made.wellFormed.parent?_scope (made.mem_created.mp new).1 parent
    rw [made.tree, tree] at around
    refine ⟨_, around, ?_⟩
    rw [parent]
    rcases outer with rfl | outer
    · rw [if_pos (made.scope mem)]
    · have below : env.scope h ∈ t.enclosing ((descend t.size h env).1.scope p) := by
        rw [← wf.mem_walks_below, ← scopes]
        exact List.mem_map_of_mem outer
      rw [if_neg (Nat.ne_of_gt (wf.lt_of_mem_enclosing below)), (among?_eq_some apart).mpr ⟨outer, rfl⟩]
  · rw [isSome_among?, scopes, wf.mem_walks_below]
  · rw [Runner.Sweeps.build_recursive (Runner.sweeps_exhaust t) w tree mem, Runner.swept,
      List.foldl_fixed]
  · rw [Runner.Sweeps.build_within (Runner.sweeps_visitWhile visit enough) w tree mem deep]
    rfl

theorem descents_mirror_scopes_madeInTurn :
    ScopeTree.madeInTurn.finish.Reachable ∧ 1 ∈ madeInTurn.env ∧ ∃ after created,
      Runner.nestAll.build 1 ⟨[], madeInTurn.env, ⟨7, []⟩⟩ = .ok () ⟨created, after, ⟨7, []⟩⟩ ∧
      created.map after.scope = [3, 5] ∧ (after.among? created 5).isSome ∧
      ¬(after.among? created 4).isSome ∧
      (Runner.within (Runner.visitWhile (fun g seen => seen ++ [g]) 6) 8).build 1
        ⟨[], madeInTurn.env, ⟨7, []⟩⟩ =
          .ok () ⟨(1 :: created).foldl (fun o g => o ++ [g]) [], after, ⟨7, []⟩⟩ := by
  have analysed : ScopeTree.madeInTurn.finish.Reachable :=
    (ScopeTree.Reachable.recordAll _ (.new ())).step (.finish _)
  have mem : 1 ∈ madeInTurn.env := by decide
  obtain ⟨after, created, below⟩ := descents_mirror_scopes analysed rfl ⟨_, rfl⟩ mem
  refine ⟨analysed, mem, after, created, below.nestAll [] _, below.order.trans (by decide), ?_, ?_,
    below.visits _ 8 6 ?_ ?_ [] _⟩
  · exact (below.isSome 5).mpr (by decide)
  · exact mt (below.isSome 4).mp (by decide)
  · decide
  · decide

end Environment

end Scoping
