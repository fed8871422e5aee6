import Scoping.Scope.Event
import Scoping.Scope.Walk

/-! Reports in place. A report as a function leads from a tree to a tree or to a reason, and a tree that
    it has begun to change when it finds a reason is out of sight. Here the same reports are programs
    that read and change one tree as they go, an entry or a scope at a time, so that what is left of a
    report that stops is what it has written until then. The same is done for events and for traces. -/

namespace Scoping

namespace InPlace

open Walking

variable {σ π α : Type}

/-- Stops for a reason. -/
def refuse (fault : BindingFault) (n : Ident) (s : ScopeId) : Walking σ π α := throw ⟨fault, n, s⟩

/-- Gives a name an entry. -/
def write (s : ScopeId) (n : Ident) (e : Entry) : Walking σ π Unit := update (·.setEntry s n e)

/-! ### Occurrences -/

/-- Reads a name. -/
def load (s : ScopeId) (n : Ident) : Walking σ π Unit := do
  match (← tree).entryAt? s n with
  | none => write s n .used
  | some _ => pure ()

/-- Binds a name in the global scope, which is also the one that it takes its global names from. -/
def storeRoot (n : Ident) : Walking σ π Unit := do
  match (← tree).entryAt? ScopeId.root n with
  | none | some .used | some (.global _) => write ScopeId.root n .bound
  | some .bound | some (.captured _) => pure ()

/-- Binds a name. -/
def store (s : ScopeId) (n : Ident) : Walking σ π Unit := do
  match (← tree).entryAt? s n with
  | none | some .used => write s n .bound
  | some (.global _) => storeRoot n
  | some .bound | some (.captured _) => pure ()

/-- Goes outward to the first scope that is no comprehension, for an assignment expression in a scope. -/
def seekTarget (s : ScopeId) (n : Ident) (a : ScopeId) (around : List ScopeId) :
    Walking σ π ScopeId := do
  let t ← tree
  if t.inIterable a then refuse .assignmentInIterable n s
  else if t.kind? a = some .comprehension then
    if t.entryAt? a n = some .bound then refuse .assignmentToIterationVariable n s
    else
      match around with
      | [] => pure a
      | outer :: rest => seekTarget s n outer rest
  else pure a

/-- Notes in a comprehension that a name is bound in toplevel code. -/
def noteToplevel (s target : ScopeId) (n : Ident) : Walking σ π Unit := do
  match (← tree).entryAt? s n with
  | none | some .used => write s n (.captured target)
  | some _ => pure ()

/-- Binds a name by an assignment expression. -/
def assignExpr (s : ScopeId) (n : Ident) : Walking σ π Unit := do
  let target ← seekTarget s n s ((← tree).enclosing s)
  let kind := (← tree).kind? target
  if kind = some .classBody then refuse .assignmentInClassBody n s
  else if target = s then store s n
  else
    store target n
    if kind = some .toplevel ∧ (← tree).home target n = target then noteToplevel s target n
    else load s n

/-! ### Declarations -/

/-- Declares a name nonlocal. -/
def declareNonlocal (s : ScopeId) (n : Ident) : Walking σ π Unit := do
  let t ← tree
  if ¬(t.kind? s).any ScopeKind.captures then refuse .nonlocalAtModuleLevel n s
  else
    match t.entryAt? s n with
    | some .used => refuse .usedBeforeNonlocal n s
    | some .bound => refuse .assignedBeforeNonlocal n s
    | some (.global _) => refuse .nonlocalAndGlobal n s
    | some (.captured _) => pure ()
    | none =>
      match t.capture? s n with
      | none => refuse .nonlocalNotFound n s
      | some target => write s n (.captured target)

/-- Declares a name global. The scope has its entry before the global scope binds the name. -/
def declareGlobal (s : ScopeId) (n : Ident) : Walking σ π Unit := do
  if s = ScopeId.root then store s n
  else
    match (← tree).entryAt? s n with
    | some .used => refuse .usedBeforeGlobal n s
    | some .bound => refuse .assignedBeforeGlobal n s
    | some (.captured _) => refuse .nonlocalAndGlobal n s
    | some (.global _) | none =>
      write s n (.global true)
      storeRoot n

/-! ### Nested scopes -/

/-- Binds the name of a function or class in the scope it stands in. -/
def bindOwnName (parent : ScopeId) (kind : ScopeKind) : Option Ident → Walking σ π Unit
  | some n => if kind.bindsName then store parent n else pure ()
  | none => pure ()

/-- Appends a scope, which its parent does not list yet. -/
def append (parent : ScopeId) (kind : ScopeKind) (name : Option Ident) (payload : π) :
    Walking σ π Unit :=
  update fun t =>
    let child : Scope π :=
      { kind := kind, name := name, enclosing := t.path parent, entries := ∅,
        inIterable := t.inIterable parent, nested := [], payload := payload }
    { t with scopes := t.scopes.push child }

/-- Opens a scope below a scope, and tells its id. -/
def nest (parent : ScopeId) (kind : ScopeKind) (name : Option Ident) (payload : π) :
    Walking σ π ScopeId := do
  let t ← tree
  if ¬(ScopeTree.fits kind parent ∧ parent ∈ t) then
    refuse (.misplacedScope kind) (name.getD Ident.empty) parent
  else if ScopeTree.capacity ≤ t.size then refuse .noIdsLeft (name.getD Ident.empty) parent
  else
    let id := t.size
    bindOwnName parent kind name
    append parent kind name payload
    update (·.modifyScope parent fun sc => { sc with nested := sc.nested ++ [id] })
    return id

/-- Makes a report on a scope. -/
def report (s : ScopeId) : Action π → Walking σ π Unit
  | .load n => load s n
  | .store n => store s n
  | .assignExpr n => assignExpr s n
  | .declareNonlocal n => declareNonlocal s n
  | .declareGlobal n => declareGlobal s n
  | .nest kind name payload => do
    let _ ← nest s kind name payload
    pure ()
  | .setInIterable on => update (·.setInIterable s on)

/-! ### Traces -/

variable [Inhabited π]

/-- Replays one event. -/
def replayOne (p : Position) : Event → Walking σ π Position
  | .load n => do load p.current n; return p
  | .store n => do store p.current n; return p
  | .assignExpr n => do assignExpr p.current n; return p
  | .declareNonlocal n => do declareNonlocal p.current n; return p
  | .declareGlobal n => do declareGlobal p.current n; return p
  | .enter kind name => do return p.enter (← nest p.current kind name default)
  | .leave => return p.leave
  | .inIterable on => do update (·.setInIterable p.current on); return p

/-- Replays events up to the first that is refused. -/
def replay (p : Position) : List Event → Walking σ π Position
  | [] => return p
  | e :: rest => do replay (← replayOne p e) rest

/-- Replays a trace from the global scope and completes the analysis. -/
def ofEvents (events : List Event) : Walking σ π Unit := do
  let _ ← replay (.start ScopeId.root) events
  Walker.idle.build

end InPlace

end Scoping
