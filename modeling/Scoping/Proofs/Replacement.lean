import Scoping.Namespace.Workspace
import Scoping.Proofs.Absence
import Scoping.Proofs.Sharing

/-! Replacing builtins. While a copy of the builtins is edited, what is done to handles and what is
    done to namespaces are two lists of steps that do not meet: the namespaces become what they become
    in any session, and every handle has the changes made through it. The copy is a handle like any
    other until it is installed, and the installed handle is changed by nothing. So what a read finds
    while a copy is edited is what was installed last, and what is found at the end is the copy. -/

namespace Scoping

/-! ### The two lists of steps -/

/-- A use of the namespaces as one of a session. -/
def NamespaceCall.operation {ν : Type} : NamespaceCall ν → Operation ν
  | nest h s => .nest h s
  | set h n v => .set h n v
  | assignExpr h n v => .assignExpr h n v
  | delete h n => .delete h n

namespace Use

variable {ν : Type}

mutual

/-- What a use does to handles. -/
def calls : Use ν → List (StorageCall ν)
  | .handle c => [c]
  | .edit body => callsAll body
  | .call _ | .builtins => []
termination_by structural u => u

/-- What some uses do to handles. -/
def callsAll : List (Use ν) → List (StorageCall ν)
  | [] => []
  | u :: uses => calls u ++ callsAll uses
termination_by structural uses => uses

end

mutual

/-- What a use does to namespaces. -/
def operations : Use ν → List (Operation ν)
  | .call c => [c.operation]
  | .edit body => operationsAll body
  | .builtins | .handle _ => []
termination_by structural u => u

/-- What some uses do to namespaces. -/
def operationsAll : List (Use ν) → List (Operation ν)
  | [] => []
  | u :: uses => operations u ++ operationsAll uses
termination_by structural uses => uses

end

end Use

/-! ### Namespaces and builtins -/

namespace Environment

variable {ν π : Type}

/-- What a new namespace is does not depend on the builtins. -/
theorem nest_install (env : Environment ν π) (builtins : Builtins ν) (h : NamespaceId) (s : ScopeId) :
    { env with builtins := builtins }.nest h s
      = (env.nest h s).map fun after => { after with builtins := builtins } := by
  rw [nest, nest]
  by_cases fit : h ∈ env ∧ env.tree.parent? s = some (env.scope h)
  · rw [if_pos fit]
    exact if_pos fit
  · rw [if_neg fit]
    exact if_neg fit

/-- What a deletion does to a cell does not depend on the builtins. -/
theorem delete_install (env : Environment ν π) (builtins : Builtins ν) (h : NamespaceId) (n : Ident) :
    { env with builtins := builtins }.delete h n
      = (env.delete h n).map fun after => { after with builtins := builtins } := by
  have home : { env with builtins := builtins }.home h n = env.home h n := rfl
  have cell : { env with builtins := builtins }.cell? (env.home h n) n = env.cell? (env.home h n) n :=
    rfl
  rw [delete, delete, home, cell]
  cases found : env.cell? (env.home h n) n with
  | none => rfl
  | some c => cases bound : c.isBound <;> simp only [bound] <;> rfl

/-- What becomes of the namespaces does not depend on the builtins. -/
theorem call_install (env : Environment ν π) (builtins : Builtins ν) (c : NamespaceCall ν) :
    { env with builtins := builtins }.call c = { env.call c with builtins := builtins } := by
  have mem (h : NamespaceId) : h ∈ ({ env with builtins := builtins } : Environment ν π) ↔ h ∈ env :=
    Iff.rfl
  cases c with
  | nest h s =>
    rw [call, call, nest_install]
    cases env.nest h s <;> rfl
  | set h n v | assignExpr h n v =>
    by_cases there : h ∈ env
    · rw [call, call, if_pos there, if_pos ((mem h).mpr there)]
      rfl
    · rw [call, call, if_neg there, if_neg (mt (mem h).mp there)]
  | delete h n =>
    by_cases there : h ∈ env
    · rw [call, call, if_pos there, if_pos ((mem h).mpr there), delete_install]
      cases env.delete h n <;> rfl
    · rw [call, call, if_neg there, if_neg (mt (mem h).mp there)]

end Environment

/-- A session does to its namespaces what the use does to them. -/
theorem Session.env_perform {ν π : Type} (s : Session ν π) (c : NamespaceCall ν) :
    (s.perform c.operation).env = s.env.call c := by
  cases c with
  | nest h n =>
    rw [NamespaceCall.operation, perform, Environment.call]
    cases s.env.nest h n <;> rfl
  | set h n v | assignExpr h n v =>
    rw [NamespaceCall.operation, perform, Environment.call]
    split_ifs <;> rfl
  | delete h n =>
    rw [NamespaceCall.operation, perform, Environment.call]
    split_ifs
    · cases s.env.delete h n <;> rfl
    · rfl

open Storage (editsOn)

namespace Workspace

variable {ν π : Type} {x y z : Workspace ν π} {j k : Handle} {m : IdentMap ν}

/-- A workspace that can come about, also while a copy of the builtins is edited. -/
inductive Reached : Workspace ν π → Prop
  | start {t : ScopeTree π} {before : List (StorageCall ν)} {k : Handle} {x : Workspace ν π}
      (analysed : t.Reachable) (live : ((Storage.empty.performAll before).values? k).isSome)
      (started : start t (Storage.empty.performAll before) k = .ok x) : Reached x
  | use {x : Workspace ν π} (u : Use ν) (reached : Reached x) : Reached (x.use u)
  | enter {x : Workspace ν π} (reached : Reached x) : Reached x.enter

theorem Reached.useAll (reached : x.Reached) (uses : List (Use ν)) : (x.useAll uses).Reached := by
  induction uses generalizing x with
  | nil => exact reached
  | cons u uses ih => exact ih (reached.use u)

theorem useAll_append (uses more : List (Use ν)) (x : Workspace ν π) :
    x.useAll (uses ++ more) = (x.useAll uses).useAll more := by
  induction uses generalizing x with
  | nil => rfl
  | cons u uses ih => exact ih (x.use u)

/-! ### Handles -/

/-- A workspace whose storage counts right, in which the installed handle and the copies that are
    edited stand for mappings, and the installed handle is none of the copies. -/
structure Sound (x : Workspace ν π) : Prop where
  counted : x.storage.Counted
  installed : x.builtins?.isSome
  edited : ∀ j ∈ x.edited, j ≠ x.installed ∧ (x.storage.values? j).isSome

/-- What uses with some calls come to: a handle has the changes made through it, unless it is given
    up, and if another handle is installed, then one that has come up meanwhile. -/
structure Leads (x y : Workspace ν π) (calls : List (StorageCall ν)) : Prop where
  counted : y.storage.Counted
  live : y.builtins?.isSome
  edited : y.edited = x.edited
  grown : x.storage.size ≤ y.storage.size
  installed : y.installed = x.installed ∨ x.storage.size ≤ y.installed
  values : ∀ {j : Handle} {m : IdentMap ν}, j ≠ x.installed → x.storage.values? j = some m →
    (j ∈ x.edited ∨ .release j ∉ calls) →
    y.storage.values? j = some ((editsOn j calls).foldl Edit.apply m)

theorem lt_size (live : x.storage.values? j = some m) : j < x.storage.size := by
  obtain ⟨p, placed⟩ := Storage.exists_place live
  exact Storage.lt_size_of_place? placed

namespace Leads

variable {calls more : List (StorageCall ν)}

theorem refl (s : x.Sound) : Leads x x [] :=
  ⟨s.counted, s.installed, rfl, Nat.le_refl _, .inl rfl, fun _ live _ => live⟩

/-- A handle that is not installed is not installed later either. -/
theorem ne_installed (l : Leads x y calls) (other : j ≠ x.installed)
    (live : x.storage.values? j = some m) : j ≠ y.installed := by
  rcases l.installed with same | new
  · rwa [same]
  · exact Nat.ne_of_lt (Nat.lt_of_lt_of_le (lt_size live) new)

theorem sound (l : Leads x y calls) (s : x.Sound) : y.Sound := by
  refine ⟨l.counted, l.live, fun j mem => ?_⟩
  rw [l.edited] at mem
  obtain ⟨other, live⟩ := s.edited j mem
  obtain ⟨m, live⟩ := Option.isSome_iff_exists.mp live
  exact ⟨l.ne_installed other live, by rw [l.values other live (.inl mem)]; rfl⟩

theorem trans (l : Leads x y calls) (k : Leads y z more) : Leads x z (calls ++ more) := by
  refine ⟨k.counted, k.live, k.edited.trans l.edited, Nat.le_trans l.grown k.grown, ?_, ?_⟩
  · rcases k.installed with same | new
    · rw [same]
      exact l.installed
    · exact .inr (Nat.le_trans l.grown new)
  · intro j m other live kept
    rw [List.mem_append, not_or] at kept
    have first := l.values other live (kept.imp_right And.left)
    rw [k.values (l.ne_installed other live) first (l.edited ▸ kept.imp_right And.right), editsOn,
      editsOn, editsOn, List.filterMap_append, List.foldl_append]

end Leads

/-! ### What one use does to handles -/

theorem Sound.leads_call (s : x.Sound) (c : NamespaceCall ν) : Leads x (x.use (.call c)) [] :=
  ⟨s.counted, s.installed, rfl, Nat.le_refl _, .inl rfl, fun _ live _ => live⟩

/-- A call that is permitted leaves the installed handle alone. -/
theorem Sound.values?_installed (s : x.Sound) {c : StorageCall ν} (permitted : x.permits c = true) :
    (x.storage.perform c).2.values? x.installed = x.storage.values? x.installed := by
  obtain ⟨m, live⟩ := Option.isSome_iff_exists.mp s.installed
  have kept : c ≠ .release x.installed := by
    rintro rfl
    simp [permits] at permitted
  have other : c.editOn? x.installed = none := by
    cases c with
    | edit k e =>
      have apart : k ≠ x.installed := by simpa [permits] using permitted
      exact if_neg apart
    | create | clone | release => rfl
  rw [s.counted.values?_perform live kept, other, ← builtins?, live]
  rfl

theorem Sound.leads_handle (s : x.Sound) (c : StorageCall ν) : Leads x (x.use (.handle c)) [c] := by
  rw [use]
  split_ifs with permitted
  · refine ⟨s.counted.perform c, ?_, rfl, Storage.size_le_size_perform .., .inl rfl,
      fun {j m} _ live kept => ?_⟩
    · show ((x.storage.perform c).2.values? x.installed).isSome
      rw [s.values?_installed permitted]
      exact s.installed
    · have stays : c ≠ .release j := by
        rintro rfl
        rcases kept with mem | out
        · simp [permits, mem] at permitted
        · simp at out
      rw [s.counted.values?_perform live stays, editsOn, List.filterMap_cons]
      cases c.editOn? j <;> rfl
  · -- What is not permitted concerns no handle but the installed one, or gives a copy up.
    refine ⟨s.counted, s.installed, rfl, Nat.le_refl _, .inl rfl, fun {j m} other live _ => ?_⟩
    have idle : c.editOn? j = none := by
      cases c with
      | edit k e =>
        have same : k = x.installed := by simpa [permits] using permitted
        have apart : k ≠ j := fun eq => other (eq ▸ same)
        exact if_neg apart
      | create | clone | release => rfl
    rw [editsOn, List.filterMap_cons, idle, live]
    rfl

theorem Sound.leads_builtins (s : x.Sound) : Leads x (x.use .builtins) [] := by
  have copied :
      ∀ {j m}, x.storage.values? j = some m → (x.use .builtins).storage.values? j = some m := by
    intro j m live
    rw [← live]
    exact (Storage.values?_clone ..).trans (if_neg (Nat.ne_of_lt (lt_size live)))
  obtain ⟨m, live⟩ := Option.isSome_iff_exists.mp s.installed
  have here : (x.use .builtins).builtins? = some m := copied live
  refine ⟨s.counted.clone _, ?_, rfl, Storage.size_le_size_perform _ (.clone _), .inl rfl,
    fun _ live _ => copied live⟩
  rw [here]
  rfl

/-! ### Editing a copy -/

/-- The copy that is edited is the last handle so far, and stands for what is installed. -/
theorem values?_enter (x : Workspace ν π) (j : Handle) :
    x.enter.storage.values? j
      = if j = x.storage.size then x.storage.values? x.installed else x.storage.values? j :=
  Storage.values?_clone ..

theorem Sound.enter (s : x.Sound) : x.enter.Sound := by
  obtain ⟨m, live⟩ := Option.isSome_iff_exists.mp s.installed
  have older := Nat.ne_of_lt (lt_size live)
  refine ⟨s.counted.clone _, ?_, fun j mem => ?_⟩
  · show (x.enter.storage.values? x.installed).isSome
    rw [values?_enter, if_neg older]
    exact s.installed
  · rw [values?_enter]
    rcases List.mem_cons.mp mem with rfl | outer
    · rw [if_pos rfl]
      exact ⟨Ne.symm older, s.installed⟩
    · obtain ⟨other, live⟩ := s.edited j outer
      split_ifs
      · exact ⟨other, s.installed⟩
      · exact ⟨other, live⟩

/-- The copy has the changes made through it when it is installed, and so has every other handle. -/
theorem Sound.leads_edit (s : x.Sound) {calls : List (StorageCall ν)} (l : Leads x.enter z calls) :
    Leads x (z.leave x.storage.size) calls := by
  obtain ⟨m, live⟩ := Option.isSome_iff_exists.mp s.installed
  have sound := l.sound s.enter
  have edited : z.edited = x.storage.size :: x.edited := l.edited
  obtain ⟨other, copy⟩ := sound.edited x.storage.size (by simp [edited])
  have released : ∀ j, j ≠ z.installed →
      (z.leave x.storage.size).storage.values? j = z.storage.values? j := fun j apart => by
    rw [leave, Storage.values?_release, if_neg apart]
  refine ⟨sound.counted.release _, ?_, ?_, ?_, .inr (Nat.le_refl _), fun {j m'} apart live kept => ?_⟩
  · show ((z.leave x.storage.size).storage.values? x.storage.size).isSome
    rwa [released _ other]
  · rw [leave, edited, List.tail_cons]
  · calc x.storage.size
      _ ≤ x.enter.storage.size := Storage.size_le_size_perform _ (.clone _)
      _ ≤ z.storage.size := l.grown
      _ ≤ (z.leave x.storage.size).storage.size := Storage.size_le_size_perform _ (.release _)
  · have entered : x.enter.storage.values? j = some m' := by
      rw [values?_enter, if_neg (Nat.ne_of_lt (lt_size live)), live]
    rw [released j (l.ne_installed apart entered)]
    exact l.values apart entered (kept.imp_left (List.mem_cons_of_mem _))

mutual

/-- A use does to handles what its calls do. -/
theorem Sound.leads_use : ∀ (u : Use ν) {x : Workspace ν π}, x.Sound → Leads x (x.use u) u.calls
  | .call c, _, s => s.leads_call c
  | .builtins, _, s => s.leads_builtins
  | .handle c, _, s => s.leads_handle c
  | .edit body, _, s => s.leads_edit (leads_useAll body s.enter)

/-- Some uses do to handles what their calls do. -/
theorem Sound.leads_useAll : ∀ (uses : List (Use ν)) {x : Workspace ν π}, x.Sound →
    Leads x (x.useAll uses) (Use.callsAll uses)
  | [], _, s => .refl s
  | u :: uses, _, s => (s.leads_use u).trans (leads_useAll uses ((s.leads_use u).sound s))

end

/-! ### Namespaces -/

/-- A session with the namespaces of a workspace, whatever its builtins are. -/
structure Follows (s : Session ν π) (x : Workspace ν π) : Prop where
  tree : s.env.tree = x.tree
  namespaces : s.env.namespaces = x.namespaces

theorem Follows.env {s : Session ν π} (f : Follows s x) : ∃ b, x.env = { s.env with builtins := b } := by
  refine ⟨x.env.builtins, ?_⟩
  rw [Environment.mk.injEq]
  exact ⟨f.tree.symm, f.namespaces.symm, rfl⟩

mutual

/-- A use does to namespaces what its operations do. -/
theorem Follows.use : ∀ (u : Use ν) {s : Session ν π} {x : Workspace ν π}, Follows s x →
    Follows (s.performAll u.operations) (x.use u)
  | .call c, s, x, f => by
    obtain ⟨b, eq⟩ := f.env
    have left : (s.performAll [c.operation]).env = s.env.call c := s.env_perform c
    have right :
        x.env.call c = { s.env.call c with builtins := b } := by rw [eq, Environment.call_install]
    refine ⟨?_, ?_⟩
    · rw [Use.operations, left, Workspace.use, right]
    · rw [Use.operations, left, Workspace.use, right]
  | .builtins, _, _, f => ⟨f.tree, f.namespaces⟩
  | .handle c, _, _, f => by
    rw [Workspace.use]
    split_ifs
    · exact ⟨f.tree, f.namespaces⟩
    · exact f
  | .edit body, s, x, f => by
    have entered : Follows s x.enter := ⟨f.tree, f.namespaces⟩
    have left := entered.useAll body
    exact ⟨left.tree, left.namespaces⟩

/-- Some uses do to namespaces what their operations do. -/
theorem Follows.useAll : ∀ (uses : List (Use ν)) {s : Session ν π} {x : Workspace ν π}, Follows s x →
    Follows (s.performAll (Use.operationsAll uses)) (x.useAll uses)
  | [], _, _, f => f
  | u :: uses, s, _, f => by
    rw [Use.operationsAll, Session.performAll_append]
    exact (f.use u).useAll uses

end

theorem follows_start (x : Workspace ν π) : Follows (Session.start x.env) x := ⟨rfl, rfl⟩

/-- What uses make of the namespaces, operations can make of them, and they can install any builtins. -/
theorem leadsTo_useAll (x : Workspace ν π) (uses : List (Use ν)) :
    x.env.LeadsTo (x.useAll uses).env := by
  obtain ⟨b, eq⟩ := (x.follows_start.useAll uses).env
  refine ⟨Use.operationsAll uses ++ [.withBuiltins (fun _ => b) []], ?_⟩
  rw [Session.performAll_append, eq]
  rfl

/-! ### What is installed -/

theorem builtins?_eq (s : x.Sound) : x.builtins? = some x.env.builtins.values := by
  obtain ⟨m, live⟩ := Option.isSome_iff_exists.mp s.installed
  rw [env, live, Option.getD_some]

theorem values_env (live : x.builtins? = some m) : x.env.builtins.values = m := by
  rw [env, live, Option.getD_some]

/-- Nothing but an edit changes what is installed. -/
theorem Sound.builtins?_use (s : x.Sound) {u : Use ν} (plain : ∀ body, u ≠ .edit body) :
    (x.use u).builtins? = x.builtins? := by
  cases u with
  | call c => rfl
  | builtins =>
    obtain ⟨m, live⟩ := Option.isSome_iff_exists.mp s.installed
    exact (Storage.values?_clone ..).trans (if_neg (Nat.ne_of_lt (lt_size live)))
  | handle c =>
    rw [use]
    split_ifs with permitted
    · exact s.values?_installed permitted
    · rfl
  | edit body => exact absurd rfl (plain body)

theorem Sound.builtins?_useAll (s : x.Sound) {uses : List (Use ν)} (plain : ∀ body, .edit body ∉ uses) :
    (x.useAll uses).builtins? = x.builtins? := by
  induction uses generalizing x with
  | nil => rfl
  | cons u uses ih =>
    simp only [List.mem_cons, not_or] at plain
    rw [useAll, ih ((s.leads_use u).sound s) fun body => (plain body).2]
    exact s.builtins?_use fun body => Ne.symm (plain body).1

/-- The builtins with the changes made through the copy that an edit takes. -/
def patched (x : Workspace ν π) (body : List (Use ν)) : IdentMap ν :=
  (editsOn x.storage.size (Use.callsAll body)).foldl Edit.apply x.env.builtins.values

/-- The copy has the changes made through it at all times. -/
theorem Sound.values?_copy (s : x.Sound) (body : List (Use ν)) :
    (x.enter.useAll body).storage.values? x.storage.size = some (x.patched body) := by
  have entered : x.enter.storage.values? x.storage.size = some x.env.builtins.values := by
    rw [values?_enter, if_pos rfl, ← builtins?_eq s, builtins?]
  have other := (s.enter.edited x.storage.size (List.mem_cons_self ..)).1
  exact (s.enter.leads_useAll body).values other entered (.inl (List.mem_cons_self ..))

/-- The copy is what is installed in the end. -/
theorem Sound.builtins?_edit (s : x.Sound) (body : List (Use ν)) :
    (x.use (.edit body)).builtins? = some (x.patched body) := by
  have inner := s.enter.leads_useAll body
  have other : x.storage.size ≠ (x.enter.useAll body).installed :=
    ((inner.sound s.enter).edited _ (inner.edited ▸ List.mem_cons_self ..)).1
  rw [← s.values?_copy body, use, leave, builtins?, Storage.values?_release, if_neg other]

/-! ### Main result -/

/-- What has come about is sound, with well-formed namespaces. -/
theorem Reached.sound (reached : x.Reached) : x.Sound ∧ x.env.WellFormed := by
  induction reached with
  | @start t before k x analysed live started =>
    have counted := Storage.counted_empty.performAll before
    rw [Workspace.start] at started
    split_ifs at started with built
    cases started
    have first (b : Builtins ν) :
        Environment.start t b = .ok ⟨t, #[Environment.activate t ScopeId.root []], b⟩ := if_pos built
    exact ⟨⟨counted, live, nofun⟩, .start analysed (first _)⟩
  | use u reached ih =>
    exact ⟨(ih.1.leads_use u).sound ih.1, (leadsTo_useAll _ [u]).wellFormed ih.2⟩
  | enter reached ih => exact ⟨ih.1.enter, ih.2.install _⟩

/-- A global namespace whose builtins were made from those that handle 0 stands for. -/
def patchedUnit : Workspace Nat Unit where
  tree := ScopeTree.methodInClass.finish
  namespaces := #[Environment.activate ScopeTree.methodInClass.finish ScopeId.root []]
  storage := Storage.empty.performAll [.create [(⟨3⟩, 30)], .clone 0]
  installed := 1
  edited := []

/-- Changes to handle 2, the copy that is edited, with another edit of a copy, handle 4, on the way. -/
def patches : List (Use Nat) :=
  [.call (.set 0 ⟨0⟩ 5), .handle (.edit 2 (.insert ⟨4⟩ 40)), .builtins,
    .edit [.handle (.edit 4 (.insert ⟨3⟩ 99)), .call (.nest 0 1)], .handle (.edit 2 (.remove ⟨3⟩))]

/-- How things stand when an edit of the builtins has come to a point of its body, with the
    rest still to come. -/
structure Meanwhile (x : Workspace ν π) (pre post : List (Use ν)) : Prop where
  reached : (x.enter.useAll pre).Reached
  copy : (x.enter.useAll pre).storage.values? x.storage.size = some (x.patched pre)
  /-- No change made through the copy is seen, but what an edit inside has installed is. -/
  builtins : (∀ inner, .edit inner ∉ pre) →
    (x.enter.useAll pre).env.builtins.values = x.env.builtins.values
  nested : ∀ earlier inner rest, pre = earlier ++ .edit inner :: rest → (∀ body, .edit body ∉ rest) →
    (x.enter.useAll pre).env.builtins.values = (x.enter.useAll earlier).patched inner
  others : ∀ j m, j ≠ (x.enter.useAll pre).installed → (x.enter.useAll pre).storage.values? j = some m →
    j ∈ (x.enter.useAll pre).edited ∨ .release j ∉ Use.callsAll post →
    (x.use (.edit (pre ++ post))).storage.values? j =
      some ((editsOn j (Use.callsAll post)).foldl Edit.apply m)

/-- What an edit of the builtins comes to. -/
structure ReplacesBuiltins (x : Workspace ν π) (body : List (Use ν)) : Prop where
  before : x.builtins? = some x.env.builtins.values
  installed : (x.use (.edit body)).builtins? = some (x.patched body)
  builtins : (x.use (.edit body)).env.builtins.values = x.patched body
  /-- It does not matter through which namespace the builtins are edited. -/
  globalOf : ∀ h ∈ (x.use (.edit body)).env, (x.use (.edit body)).env.globalOf h = NamespaceId.root
  namespaces : (x.use (.edit body)).namespaces
    = ((Session.start x.env).performAll (Use.operationsAll body)).env.namespaces
  leads : x.env.LeadsTo (x.use (.edit body)).env
  /-- All of it is one replacement of builtins as environments have it. -/
  withBuiltins : ∃ revision, (x.use (.edit body)).env
    = (x.env.withBuiltins fun _ _ => ((), ⟨x.patched body, revision⟩, (x.enter.useAll body).env)).2
  others : ∀ j m, j ≠ x.installed → x.storage.values? j = some m → j ∈ x.edited ∨
    .release j ∉ Use.callsAll body →
      (x.use (.edit body)).storage.values? j = some ((editsOn j (Use.callsAll body)).foldl Edit.apply m)
  meanwhile : ∀ pre post, body = pre ++ post → Meanwhile x pre post

/-- Editing a copy installs the builtins from before with the changes made through the copy,
    whatever is done meanwhile, and other handles have the changes made through them. -/
theorem edit_replaces_builtins (reached : x.Reached) (body : List (Use ν)) :
    ReplacesBuiltins x body := by
  obtain ⟨s, w⟩ := reached.sound
  have led := x.leadsTo_useAll [.edit body]
  have after := s.builtins?_edit body
  refine {
    before := builtins?_eq s
    installed := after
    builtins := values_env after
    globalOf := fun h mem => (led.wellFormed w).globalOf_eq mem
    namespaces := ((x.follows_start.use (.edit body)).namespaces).symm
    leads := led
    withBuiltins := ⟨(x.use (.edit body)).env.builtins.revision, ?_⟩
    others := fun j m => (s.leads_use (.edit body)).values
    meanwhile := ?_ }
  · rw [← values_env after]
    rfl
  rintro pre post rfl
  have inside := reached.enter.useAll pre
  have entered : x.enter.builtins? = x.builtins? :=
    s.builtins?_use (u := .builtins) fun _ eq => by cases eq
  have sound := inside.sound.1
  refine ⟨inside, s.values?_copy pre, fun plain => ?_, ?_, fun j m other live kept => ?_⟩
  · exact values_env ((s.enter.builtins?_useAll plain).trans (entered.trans (builtins?_eq s)))
  · rintro earlier inner rest rfl plain
    have before := (reached.enter.useAll earlier).sound.1
    have installed := (before.leads_use (.edit inner)).sound before
    rw [useAll_append, useAll]
    exact values_env ((installed.builtins?_useAll plain).trans (before.builtins?_edit inner))
  · have later := sound.leads_useAll post
    rw [use, useAll_append, leave, Storage.values?_release, if_neg (later.ne_installed other live)]
    exact later.values other live kept

theorem edit_replaces_builtins_patchedUnit :
    patchedUnit.Reached ∧
      (patchedUnit.use (.edit patches)).env.builtins.get? ⟨3⟩ = none ∧
      (patchedUnit.use (.edit patches)).env.builtins.get? ⟨4⟩ = some 40 ∧
      (patchedUnit.enter.useAll (patches.take 4)).env.builtins.get? ⟨3⟩ = some 99 ∧
      (patchedUnit.enter.useAll (patches.take 3)).env.builtins.get? ⟨4⟩ = none ∧
      (patchedUnit.use (.edit patches)).storage.values? 0 = patchedUnit.storage.values? 0 ∧
      (patchedUnit.use (.edit patches)).namespaces.size = 2 := by
  have analysed : ScopeTree.methodInClass.finish.Reachable :=
    (ScopeTree.Reachable.recordAll _ (.new ())).step (.finish _)
  have reached : patchedUnit.Reached := .start analysed (by decide) rfl
  have edit := edit_replaces_builtins reached patches
  have nested := (edit.meanwhile (patches.take 4) (patches.drop 4) rfl).nested (patches.take 3)
    [.handle (.edit 4 (.insert ⟨3⟩ 99)), .call (.nest 0 1)] [] rfl fun _ => List.not_mem_nil
  have before := (edit.meanwhile (patches.take 3) (patches.drop 3) rfl).builtins (by simp [patches])
  refine ⟨reached, ?_, ?_, ?_, ?_, ?_, ?_⟩
  · rw [Builtins.get?, edit.builtins]
    decide
  · rw [Builtins.get?, edit.builtins]
    decide
  · rw [Builtins.get?, nested]
    decide
  · rw [Builtins.get?, before]
    decide
  · exact edit.others 0 _ (by decide) rfl (.inr (by simp [patches, Use.callsAll, Use.calls]))
  · rw [edit.namespaces]
    decide

end Workspace

end Scoping
