import Scoping.Proofs.Activation
import Scoping.Namespace.Runner

/-! Environments in use. An operation is one use of an environment through one of its namespaces,
    and a session is an environment together with what the operations have written in it. All that
    an operation does comes down to a few elementary steps: a new namespace, a write in the home of
    a name, new builtins. So what these keep is true of every environment that ever comes about,
    also while runners create namespaces, since they go through the same operations. -/

namespace Scoping

open Relation

/-- One use of an environment. -/
inductive Operation (ν : Type)
  | nest (h : NamespaceId) (s : ScopeId)
  | set (h : NamespaceId) (n : Ident) (v : ν)
  | assignExpr (h : NamespaceId) (n : Ident) (v : ν)
  | delete (h : NamespaceId) (n : Ident)
  /-- Edits a copy of the builtins, and uses the environment before the copy replaces them. -/
  | withBuiltins (edit : Builtins ν → Builtins ν) (meanwhile : List (Operation ν))

/-- What is put into the cell of a name: a value, or nothing when the value is taken away. -/
structure Write (ν : Type) where
  home : NamespaceId
  name : Ident
  value : Option ν

/-- An environment in use, with the writes carried out in it, the latest first. -/
structure Session (ν π : Type) where
  env : Environment ν π
  writes : List (Write ν)

namespace Session

variable {ν π : Type} {x y : Session ν π}

/-- The session before the first operation. -/
def start (env : Environment ν π) : Session ν π := ⟨env, []⟩

mutual

/-- The session after an operation. One that fails changes nothing, and neither does one through a
    namespace that is not there. -/
def perform (x : Session ν π) : Operation ν → Session ν π
  | .nest h s =>
    match x.env.nest h s with
    | .ok env => { x with env := env }
    | .error _ => x
  | .set h n v =>
    if h ∈ x.env then ⟨x.env.set h n v, ⟨x.env.home h n, n, some v⟩ :: x.writes⟩ else x
  | .assignExpr h n v =>
    if h ∈ x.env then
      ⟨x.env.assignExpr h n v, ⟨x.env.home (x.env.expressionTarget h) n, n, some v⟩ :: x.writes⟩
    else x
  | .delete h n =>
    if h ∈ x.env then
      match x.env.delete h n with
      | .ok env => ⟨env, ⟨x.env.home h n, n, none⟩ :: x.writes⟩
      | .error _ => x
    else x
  | .withBuiltins edit meanwhile =>
    let r := x.env.withBuiltins fun builtins env =>
      let y := performAll ⟨env, x.writes⟩ meanwhile
      (y.writes, edit builtins, y.env)
    ⟨r.2, r.1⟩
termination_by structural op => op

/-- The session after a list of operations. -/
def performAll (x : Session ν π) : List (Operation ν) → Session ν π
  | [] => x
  | op :: ops => performAll (perform x op) ops
termination_by structural ops => ops

end

/-- The last write on a name in a namespace. -/
def lastWrite? (x : Session ν π) (g : NamespaceId) (n : Ident) : Option (Write ν) :=
  x.writes.find? fun w => w.home = g ∧ w.name = n

/-- The value that the last write on a name in a namespace left there. -/
def written? (x : Session ν π) (g : NamespaceId) (n : Ident) : Option ν :=
  (x.lastWrite? g n).bind Write.value

theorem performAll_append (ops more : List (Operation ν)) (x : Session ν π) :
    x.performAll (ops ++ more) = (x.performAll ops).performAll more := by
  induction ops generalizing x with
  | nil => rfl
  | cons op ops ih => exact ih (x.perform op)

/-! ### Elementary steps -/

/-- Puts a value or nothing into the cell of a name. -/
def write (x : Session ν π) (g : NamespaceId) (n : Ident) (value : Option ν) : Session ν π :=
  ⟨x.env.setCell g n ⟨value⟩, ⟨g, n, value⟩ :: x.writes⟩

/-- One elementary step of a session. A value is only taken out of a cell that is there. -/
inductive Step (x : Session ν π) : Session ν π → Prop
  | nest {h : NamespaceId} {s : ScopeId} (mem : h ∈ x.env)
      (fit : x.env.tree.parent? s = some (x.env.scope h)) :
      Step x { x with env := x.env.grow (Environment.activate x.env.tree s (x.env.path h)) }
  | write {h : NamespaceId} (n : Ident) (value : Option ν) (mem : h ∈ x.env)
      (found : value = none → (x.env.cell? (x.env.home h n) n).isSome) :
      Step x (x.write (x.env.home h n) n value)
  | install (builtins : Builtins ν) : Step x { x with env := { x.env with builtins := builtins } }

/-- A chain of elementary steps. -/
abbrev Steps : Session ν π → Session ν π → Prop := ReflTransGen Step

theorem Step.wellFormed (w : x.env.WellFormed) : Step x y → y.env.WellFormed
  | .nest mem fit => w.nest mem fit
  | .write .. => w.setCell ..
  | .install builtins => w.install builtins

theorem Step.extends : Step x y → x.env.Extends y.env
  | .nest .. => .grow ..
  | .write .. => .setCell ..
  | .install builtins => .install _ builtins

theorem Steps.wellFormed (steps : Steps x y) (w : x.env.WellFormed) : y.env.WellFormed := by
  induction steps with
  | refl => exact w
  | tail _ last ih => exact last.wellFormed ih

theorem Steps.extends (steps : Steps x y) : x.env.Extends y.env := by
  induction steps with
  | refl => exact .refl _
  | tail _ last ih => exact ih.trans last.extends

end Session

namespace Environment

variable {ν π : Type} {env after : Environment ν π} {h : NamespaceId} {n : Ident}

theorem expressionTarget_mem (w : env.WellFormed) (mem : h ∈ env) : env.expressionTarget h ∈ env := by
  rw [expressionTarget]
  cases found : (env.path h).find? fun g => env.kind? g ≠ some .comprehension with
  | none => exact w.root_mem
  | some g => exact w.mem_of_mem_path mem (List.mem_of_find?_eq_some found)

/-- A value is deleted in the home of its name, where there is a cell that holds it. -/
theorem delete_eq_ok (deleted : env.delete h n = .ok after) :
    (env.cell? (env.home h n) n).isSome ∧ after = env.setCell (env.home h n) n .unbound := by
  rw [delete] at deleted
  split at deleted
  · rename_i c found
    split_ifs at deleted
    rw [found]
    exact ⟨rfl, (Except.ok.inj deleted).symm⟩
  · cases deleted

end Environment

namespace Session

variable {ν π : Type}

mutual

/-- An operation is a chain of elementary steps. -/
theorem perform_steps : ∀ (op : Operation ν) {x : Session ν π}, x.env.WellFormed → Steps x (x.perform op)
  | .nest h s, x, _ => by
    rw [perform]
    split
    · rename_i env accepted
      obtain ⟨⟨mem, fit⟩, rfl⟩ := Environment.nest_eq_ok.mp accepted
      exact .single (.nest mem fit)
    · exact .refl
  | .set h n v, x, _ => by
    rw [perform]
    split_ifs with mem
    · exact .single (.write n (some v) mem nofun)
    · exact .refl
  | .assignExpr h n v, x, w => by
    rw [perform]
    split_ifs with mem
    · exact .single (.write n (some v) (Environment.expressionTarget_mem w mem) nofun)
    · exact .refl
  | .delete h n, x, _ => by
    rw [perform]
    split_ifs with mem
    · split
      · rename_i env deleted
        obtain ⟨found, rfl⟩ := Environment.delete_eq_ok deleted
        exact .single (.write n none mem fun _ => found)
      · exact .refl
    · exact .refl
  | .withBuiltins edit meanwhile, x, w =>
    (performAll_steps meanwhile w).tail (.install (edit x.env.builtins))

/-- A list of operations is a chain of elementary steps. -/
theorem performAll_steps : ∀ (ops : List (Operation ν)) {x : Session ν π}, x.env.WellFormed →
    Steps x (x.performAll ops)
  | [], _, _ => .refl
  | op :: ops, _, w =>
    (perform_steps op w).trans (performAll_steps ops ((perform_steps op w).wellFormed w))

end

end Session

namespace Environment

variable {ν π : Type} {first env after : Environment ν π} {h : NamespaceId} {s : ScopeId}

/-- Whether operations make one environment of another. -/
def LeadsTo (first env : Environment ν π) : Prop :=
  ∃ ops, ((Session.start first).performAll ops).env = env

theorem LeadsTo.wellFormed (used : first.LeadsTo env) (w : first.WellFormed) : env.WellFormed := by
  obtain ⟨ops, rfl⟩ := used
  exact (Session.performAll_steps ops w).wellFormed w

theorem LeadsTo.tree (used : first.LeadsTo env) (w : first.WellFormed) : env.tree = first.tree := by
  obtain ⟨ops, rfl⟩ := used
  exact (Session.performAll_steps ops w).extends.tree

theorem LeadsTo.nest (used : first.LeadsTo env) (accepted : env.nest h s = .ok after) :
    first.LeadsTo after := by
  obtain ⟨ops, rfl⟩ := used
  refine ⟨ops ++ [.nest h s], ?_⟩
  rw [Session.performAll_append, Session.performAll, Session.performAll, Session.perform, accepted]

end Environment

/-! ### Runners -/

namespace Running

open Steps

variable {σ ν π α : Type} {P : Frame σ ν π → Prop}

theorem within_env {R : Frame σ ν π → Frame σ ν π → Prop} [IsPreorder _ R] :
    Within R (Running.env : Running σ ν π (Environment ν π)) := refl

theorem within_remaining {R : Frame σ ν π → Frame σ ν π → Prop} [IsPreorder _ R] :
    Within R (Running.remaining : Running σ ν π (List ScopeId)) := refl

/-- Steps that keep a property of the frame, whether they fail or not. -/
def Carries (P : Frame σ ν π → Prop) (m : Running σ ν π α) : Prop := Within (fun f g => P f → P g) m

/-- Steps that keep a property of the environment, whether they fail or not. -/
def Keeps (P : Environment ν π → Prop) (m : Running σ ν π α) : Prop := Carries (fun f => P f.env) m

/-- A property that neither a new namespace nor a move of the cursor breaks. -/
structure Stable (P : Frame σ ν π → Prop) : Prop where
  nest : ∀ {f env h s}, P f → f.env.nest h s = .ok env → P { f with env := env }
  move : ∀ {f} c, P f → P { f with cursor := c }

theorem Carries.note {g : σ → σ} (h : ∀ f, P f → P { f with own := g f.own }) :
    Carries P (Running.note g : Running σ ν π Unit) := h

theorem Carries.take (stable : Stable P) (h : NamespaceId) :
    Carries P (Running.take h : Running σ ν π ScopeId) := by
  intro f hf
  rw [Running.take]
  split_ifs
  · cases f.cursor.take with
    | error e => exact hf
    | ok r => exact stable.move r.2 hf
  · exact hf

theorem Carries.create (stable : Stable P) (h : NamespaceId) (s : ScopeId) :
    Carries P (Running.create h s : Running σ ν π NamespaceId) := by
  intro f hf
  rw [Running.create]
  cases accepted : f.env.nest h s with
  | error e => exact hf
  | ok after => exact stable.nest hf accepted

/-- What is said of the environment alone is stable if it outlasts new namespaces. -/
theorem Stable.of_env {P : Environment ν π → Prop}
    (nest : ∀ {env after : Environment ν π} {h s}, P env → env.nest h s = .ok after → P after) :
    Stable fun f : Frame σ ν π => P f.env :=
  ⟨fun hf accepted => nest hf accepted, fun _ hf => hf⟩

end Running

namespace Runner

open Running

variable {σ ν π : Type}

section carries

variable {P : Frame σ ν π → Prop} {r : Runner σ ν π} (stable : Stable P)

include stable

/-- Calling a runner leaves what the runner leaves. -/
theorem build_carries (hr : ∀ h payload, Carries P (r h payload)) (h : NamespaceId) :
    Carries P (r.build h) := by
  intro f hf
  rw [build]
  cases f.env.tree.payload? (f.env.scope h) with
  | none => exact hf
  | some payload =>
    have called := hr h payload _ (stable.move (.start f.env.tree (f.env.scope h)) hf)
    dsimp only
    cases run : r h payload { f with cursor := .start f.env.tree (f.env.scope h) } <;>
      rw [run] at called <;> exact stable.move f.cursor called

theorem nestWith_carries (hr : ∀ h payload, Carries P (r h payload)) (h : NamespaceId) (s : ScopeId) :
    Carries P (r.nestWith h s) :=
  .bind (Carries.create stable h s) fun child => .bind (build_carries stable hr child) fun _ =>
    .pure child

theorem nestNext_carries (hr : ∀ h payload, Carries P (r h payload)) (h : NamespaceId) :
    Carries P (r.nestNext h) :=
  .bind (Carries.take stable h) fun s => nestWith_carries stable hr h s

end carries

section recursive

variable {P : Frame σ ν π → Prop} {step : Runner σ ν π → Runner σ ν π}
  (hstep : ∀ {r : Runner σ ν π}, (∀ h payload, Carries P (r h payload)) → ∀ h payload,
    Carries P (step r h payload))

include hstep

theorem within_carries :
    ∀ (depth : Nat) (h : NamespaceId) (payload : π), Carries P (within step depth h payload)
  | 0, _, _ => .pure ()
  | depth + 1, h, payload => hstep (within_carries depth) h payload

/-- A runner that calls itself carries what its step carries from the calls. -/
theorem recursive_carries (h : NamespaceId) (payload : π) : Carries P (recursive step h payload) :=
  .bind within_env fun (env : Environment ν π) => within_carries hstep env.tree.size h payload

end recursive

section nestAll

variable {P : Frame (List NamespaceId) ν π → Prop} (stable : Stable P)
  (note : ∀ {f} created, P f → P { f with own := created })

include stable note

theorem nestEach_carries {r : Runner (List NamespaceId) ν π} (hr : ∀ h payload, Carries P (r h payload))
    (h : NamespaceId) (payload : π) : Carries P (nestEach r h payload) :=
  .bind within_remaining fun _ => .forM (fun _ =>
    .bind (Carries.take stable h) fun s => .bind (Carries.create stable h s) fun child =>
      .bind (Carries.note fun f hf => note (f.own ++ [child]) hf) fun _ =>
        build_carries stable hr child) _

/-- Creating every namespace carries what creating one carries. -/
theorem nestAll_carries (h : NamespaceId) : Carries P (nestAll.build h) :=
  build_carries stable (recursive_carries (nestEach_carries stable note)) h

end nestAll

section keeps

variable {P : Environment ν π → Prop} {r : Runner σ ν π}
  (nest : ∀ {env after : Environment ν π} {h s}, P env → env.nest h s = .ok after → P after)

include nest

theorem nestWith_keeps (hr : ∀ h payload, Keeps P (r h payload)) (h : NamespaceId) (s : ScopeId) :
    Keeps P (r.nestWith h s) :=
  nestWith_carries (.of_env nest) hr h s

theorem nestNext_keeps (hr : ∀ h payload, Keeps P (r h payload)) (h : NamespaceId) :
    Keeps P (r.nestNext h) :=
  nestNext_carries (.of_env nest) hr h

theorem nestAll_keeps (h : NamespaceId) : Keeps P (nestAll.build h) :=
  nestAll_carries (P := fun f => P f.env) (.of_env nest) (fun _ hf => hf) h

end keeps

end Runner

/-! ### Main result -/

namespace Environment

variable {ν π : Type} {first env after : Environment ν π} {h : NamespaceId} {s : ScopeId}

/-- A namespace can be created for exactly the scopes that are nested in that of the
    namespace at hand. -/
theorem WellFormed.nest_of_nested (w : env.WellFormed) (mem : h ∈ env)
    (nested : s ∈ env.tree.nested (env.scope h)) :
    ∃ after, env.nest h s = .ok after ∧ after.scope env.size = s ∧ after.parent? env.size = some h := by
  refine ⟨_, nest_eq_ok.mpr ⟨⟨mem, w.tree.wellFormed.mem_nested.mp nested⟩, rfl⟩, ?_, ?_⟩
  · rw [scope, namespace?_grow, if_pos rfl]
    rfl
  · rw [parent?, path, namespace?_grow, if_pos rfl]
    rfl

theorem WellFormed.nest_of_not_nested (w : env.WellFormed) (other : s ∉ env.tree.nested (env.scope h)) :
    env.nest h s = .error (.scopeMismatch (env.scope h) s) := by
  rw [Environment.nest, if_neg]
  exact fun fit => other (w.tree.wellFormed.mem_nested.mpr fit.2)

/-- The environment of a lambda in a method in a class, with two activations of the method. -/
def methodTwice : Session Nat Unit :=
  (Session.start ⟨ScopeTree.methodInClass.finish,
      #[activate ScopeTree.methodInClass.finish ScopeId.root []],
      (Builtins.ofList [(⟨3⟩, 30)] 0).1⟩).performAll
    [.nest 0 1, .nest 1 2, .nest 1 2, .nest 2 3, .nest 3 3, .nest 2 9]

/-- What the namespaces of an environment have to do with the scopes of a tree, as seen
    from one of them. -/
structure Mirrors (t : ScopeTree π) (first env : Environment ν π) (h : NamespaceId) : Prop where
  scopes : (env.path h).map env.scope = t.path (env.scope h)
  parents : (env.path h).IsChain fun a b => env.parent? a = some b
  scopeParents : (t.path (env.scope h)).IsChain fun a b => t.parent? a = some b
  /-- No scope comes twice on the way, so each has one namespace there. -/
  distinct : (t.path (env.scope h)).Nodup
  last : (env.path h).getLast? = some NamespaceId.root
  outermost : env.parent? NamespaceId.root = none
  rootScope : env.scope NamespaceId.root = ScopeId.root
  rootParent : t.parent? ScopeId.root = none
  nested : ∀ s ∈ t.nested (env.scope h), ∃ after, env.nest h s = .ok after ∧
    after.scope env.size = s ∧ after.parent? env.size = some h
  mismatch : ∀ s, s ∉ t.nested (env.scope h) → env.nest h s = .error (.scopeMismatch (env.scope h) s)
  found : ∀ n, (env.path h).find? (fun g => env.scope g = t.home (env.scope h) n) = some (env.home h n)
  home : ∀ n, ∀ g ∈ env.path h, g = env.home h n ↔ env.scope g = t.home (env.scope h) n
  /-- Runners do nothing but operations if what they call does. -/
  runners : ∀ {σ : Type} (r : Runner σ ν π), (∀ g payload, Running.Keeps first.LeadsTo (r g payload)) →
    ∀ g s, Running.Keeps first.LeadsTo (r.nestWith g s) ∧ Running.Keeps first.LeadsTo (r.nestNext g)
  nestAll : ∀ g, Running.Keeps first.LeadsTo (Runner.nestAll.build g)

/-- After any operations, the way from a namespace to the global one is the way from its
    scope to the root. -/
theorem namespaces_mirror_scopes {t : ScopeTree π} {builtins : Builtins ν} (analysed : t.Reachable)
    (started : Environment.start t builtins = .ok first) (used : first.LeadsTo env) (mem : h ∈ env) :
    Mirrors t first env h := by
  have w := used.wellFormed (.start analysed started)
  have same : env.tree = t := by
    rw [used.tree (.start analysed started), start_tree started]
  subst same
  have wf := w.tree.wellFormed
  have nest {env after : Environment ν π} {g s} (reached : first.LeadsTo env)
      (accepted : env.nest g s = .ok after) : first.LeadsTo after := reached.nest accepted
  exact {
    scopes := w.scopes_path mem
    parents := w.isChain_path mem
    scopeParents := wf.isChain_path _
    distinct := wf.nodup_path _
    last := w.getLast?_path mem
    outermost := by
      rw [parent?, w.path_root]
      rfl
    rootScope := w.scope_root
    rootParent := by
      rw [ScopeTree.parent?, wf.enclosing_root]
      rfl
    nested := fun s nested => w.nest_of_nested mem nested
    mismatch := fun s other => w.nest_of_not_nested other
    found := fun n => w.find?_home mem n
    home := fun n g around => w.eq_home_iff mem n around
    runners := fun r hr g s => ⟨Runner.nestWith_keeps nest hr g s, Runner.nestNext_keeps nest hr g⟩
    nestAll := Runner.nestAll_keeps nest }

theorem namespaces_mirror_scopes_methodTwice :
    ScopeTree.methodInClass.finish.Reachable ∧ 5 ∈ methodTwice.env ∧
      methodTwice.env.path 5 = [5, 3, 1, 0] ∧
      methodTwice.env.home 5 ⟨1⟩ = 3 ∧ methodTwice.env.scope 3 = 2 ∧
      methodTwice.env.nest 3 2 = .error (.scopeMismatch 2 2) := by
  have analysed : ScopeTree.methodInClass.finish.Reachable :=
    (ScopeTree.Reachable.recordAll _ (.new ())).step (.finish _)
  have inner : 5 ∈ methodTwice.env := by decide
  have method : 3 ∈ methodTwice.env := by decide
  have scope : methodTwice.env.scope 3 = 2 := by decide
  have way : methodTwice.env.path 5 = [5, 3, 1, 0] := by decide
  have home : 3 = methodTwice.env.home 5 ⟨1⟩ :=
    ((namespaces_mirror_scopes analysed rfl ⟨_, rfl⟩ inner).home ⟨1⟩ 3 (by decide)).mpr (by decide)
  have refused : methodTwice.env.nest 3 2 = .error (.scopeMismatch (methodTwice.env.scope 3) 2) :=
    (namespaces_mirror_scopes analysed rfl ⟨_, rfl⟩ method).mismatch 2 (by decide)
  rw [scope] at refused
  exact ⟨analysed, inner, way, home.symm, scope, refused⟩

end Environment

end Scoping
