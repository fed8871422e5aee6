import Scoping.Namespace.Environment
import Scoping.Namespace.Storage

/-! Namespaces with their builtins in storage. The global namespace has a handle of its own, which no
    other code gets hold of. Code takes copies of it, and to replace the builtins it edits a copy, which
    becomes the handle of the global namespace when the editing ends. Until then the code may do whatever
    else it can do: use namespaces, use other handles, and replace the builtins in the middle of it. -/

namespace Scoping

/-- The namespaces of a unit of code, with storage for builtins. -/
structure Workspace (ν π : Type) where
  tree : ScopeTree π
  namespaces : Array (Namespace ν)
  storage : Storage ν
  /-- The handle of the global namespace. -/
  installed : Handle
  /-- The copies that are being edited, the last first. -/
  edited : List Handle

/-- One use of the namespaces. -/
inductive NamespaceCall (ν : Type)
  | nest (h : NamespaceId) (s : ScopeId)
  | set (h : NamespaceId) (n : Ident) (v : ν)
  | assignExpr (h : NamespaceId) (n : Ident) (v : ν)
  | delete (h : NamespaceId) (n : Ident)

/-- The environment after a use of the namespaces. One that fails changes nothing, and neither does
    one through a namespace that is not there. -/
def Environment.call {ν π : Type} (env : Environment ν π) : NamespaceCall ν → Environment ν π
  | .nest h s =>
    match env.nest h s with
    | .ok after => after
    | .error _ => env
  | .set h n v => if h ∈ env then env.set h n v else env
  | .assignExpr h n v => if h ∈ env then env.assignExpr h n v else env
  | .delete h n =>
    if h ∈ env then
      match env.delete h n with
      | .ok after => after
      | .error _ => env
    else env

/-- One use of a workspace. -/
inductive Use (ν : Type)
  | call (c : NamespaceCall ν)
  /-- Takes a copy of the builtins. -/
  | builtins
  /-- Uses a handle other than that of the global namespace. -/
  | handle (c : StorageCall ν)
  /-- Edits a copy of the builtins, which replaces them at the end. -/
  | edit (body : List (Use ν))

namespace Workspace

variable {ν π : Type}

/-- The mapping of the installed handle. -/
def builtins? (x : Workspace ν π) : Option (IdentMap ν) := x.storage.values? x.installed

/-- The namespaces as they are found, with the builtins that are installed. -/
def env (x : Workspace ν π) : Environment ν π where
  tree := x.tree
  namespaces := x.namespaces
  builtins := ⟨x.builtins?.getD ∅, (x.storage.place? x.installed).getD 0⟩

/-- The workspace with the global namespace alone, which gets a handle for good. The scopes
    must be analysed. -/
def start (t : ScopeTree π) (storage : Storage ν) (k : Handle) : Except AccessError (Workspace ν π) :=
  if t.built then .ok ⟨t, #[Environment.activate t ScopeId.root []], storage, k, []⟩
  else .error .unbuiltTree

/-- Whether a handle may be used so. The installed handle is neither changed nor given up but by
    replacing the builtins, and a copy is not given up while it is edited. -/
def permits (x : Workspace ν π) : StorageCall ν → Bool
  | .create _ | .clone _ => true
  | .edit k _ => k ≠ x.installed
  | .release k => k ≠ x.installed ∧ k ∉ x.edited

/-- Takes a copy of the builtins to edit. -/
def enter (x : Workspace ν π) : Workspace ν π :=
  { x with storage := x.storage.clone x.installed, edited := x.storage.size :: x.edited }

/-- Installs a copy that was edited, and gives up what was installed before. -/
def leave (x : Workspace ν π) (k : Handle) : Workspace ν π :=
  { x with storage := x.storage.release x.installed, installed := k, edited := x.edited.tail }

mutual

/-- The workspace after a use. One that is not permitted changes nothing. -/
def use (x : Workspace ν π) : Use ν → Workspace ν π
  | .call c => { x with tree := (x.env.call c).tree, namespaces := (x.env.call c).namespaces }
  | .builtins => { x with storage := x.storage.clone x.installed }
  | .handle c => if x.permits c then { x with storage := (x.storage.perform c).2 } else x
  | .edit body => (useAll x.enter body).leave x.storage.size
termination_by structural u => u

/-- The workspace after some uses. -/
def useAll (x : Workspace ν π) : List (Use ν) → Workspace ν π
  | [] => x
  | u :: uses => useAll (use x u) uses
termination_by structural uses => uses

end

end Workspace

end Scoping
