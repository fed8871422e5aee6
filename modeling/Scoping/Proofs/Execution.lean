import Scoping.Proofs.Absence
import Scoping.Proofs.Descent
import Scoping.Proofs.Program

/-! Running what has been analysed. Below every scope the analysis lists the scopes that the code
    of the scope opens, in their order, and a run opens them in the same order. So it never asks for
    a scope out of turn, nor for one more than there are, and only a name without a value can end it
    early. -/

namespace Scoping

open Relation Steps ScopeTree

/-! ### What code opens -/

/-- The payload of the scope that a report opens. -/
def Action.opens {π : Type} : Action π → List π
  | .nest _ _ payload => [payload]
  | .load _ | .store _ | .assignExpr _ | .declareNonlocal _ | .declareGlobal _ | .setInIterable _ => []

namespace Body

mutual

/-- The code of the scopes that a statement opens. -/
def opensOne : Stmt → List Body
  | .function _ body | .classBody _ body | .lambda body | .toplevel body => [body]
  | .comprehension targets body => [Stmt.loop targets body]
  | .iterable body => opens body
  | .assign _ _ | .copy _ _ | .read _ | .has _ | .delete _ => []
  | .assignExpr _ _ | .declareNonlocal _ | .declareGlobal _ => []
termination_by structural stmt => stmt

/-- The code of the scopes that statements open, in their order. -/
def opens : List Stmt → List Body
  | [] => []
  | stmt :: rest => opensOne stmt ++ opens rest
termination_by structural body => body

end

end Body

namespace ScopeTree

variable {π : Type} {t u v : ScopeTree π} {s a : ScopeId} {payloads more : List π}

/-- Scopes with certain payloads. -/
def Carries (t : ScopeTree π) : List ScopeId → List π → Prop :=
  List.Forall₂ fun c payload => t.payload? c = some payload

/-- What becomes of a tree when scopes with certain payloads are opened below a scope. -/
structure Opened (s : ScopeId) (payloads : List π) (t u : ScopeTree π) : Prop where
  size : t.size ≤ u.size
  kept : ∀ a payload, t.payload? a = some payload → u.payload? a = some payload
  nested : ∃ new, u.nested s = t.nested s ++ new ∧ u.Carries new payloads

namespace Opened

theorem refl (s : ScopeId) (t : ScopeTree π) : Opened s [] t t :=
  ⟨Nat.le_refl _, fun _ _ => id, [], (List.append_nil _).symm, .nil⟩

theorem trans (first : Opened s payloads t u) (second : Opened s more u v) :
    Opened s (payloads ++ more) t v := by
  obtain ⟨new, listed, carried⟩ := first.nested
  obtain ⟨new', listed', carried'⟩ := second.nested
  refine ⟨Nat.le_trans first.size second.size, fun a payload had => ?_, new ++ new', ?_, ?_⟩
  · exact second.kept a payload (first.kept a payload had)
  · rw [listed', listed, List.append_assoc]
  · exact List.rel_append (carried.imp second.kept) carried'

end Opened

theorem opened_of_act (hs : s ∈ t) {r : Action π} (acted : t.act s r = .ok u) :
    Opened s r.opens t u := by
  cases r with
  | nest kind name payload =>
    obtain ⟨-, -, rfl⟩ := nest_eq_ok acted
    have own := sameScopes_bindOwnName t s kind name
    have hs' := (mem_congr own.size s).mpr hs
    refine ⟨by simp [own.size], fun a old had => ?_, [t.size], ?_, .cons ?_ .nil⟩
    · have ha : a ≠ t.size := by
        rintro rfl
        rw [payload?, scope?_of_not_mem (Nat.lt_irrefl t.size)] at had
        cases had
      rw [payload?_push _ kind name payload hs', own.size, if_neg ha, own.payload?, had]
    · rw [nested_push _ kind name payload hs', own.size, if_neg (Nat.ne_of_lt hs), if_pos rfl,
        own.nested]
    · rw [payload?_push _ kind name payload hs', own.size, if_pos rfl]
  | setInIterable on =>
    cases acted
    exact ⟨by simp, by simp, [], by simp, .nil⟩
  | _ =>
    have same : SameScopes t u := sameScopes_act hs rfl acted
    refine ⟨Nat.le_of_eq same.size.symm, fun a payload had => ?_, [], ?_, .nil⟩
    · rw [same.payload?, had]
    · rw [same.nested, List.append_nil]

end ScopeTree

/-! ### What the walker lists -/

namespace Walking

variable {σ π α β : Type} {s a : ScopeId} {payloads more : List π} {x y : σ × ScopeTree π}

/-- Steps that open scopes with certain payloads below a scope, if they succeed. -/
def Opens (s : ScopeId) (payloads : List π) (m : Walking σ π α) : Prop :=
  ∀ x a y, s ∈ x.2 → m x = .ok a y → Opened s payloads x.2 y.2

namespace Opens

theorem pure (s : ScopeId) (a : α) : Opens s [] (Pure.pure a : Walking σ π α) := by
  rintro x a y - ⟨⟩
  exact .refl s x.2

theorem bind {m : Walking σ π α} {f : α → Walking σ π β} (first : Opens s payloads m)
    (further : ∀ a, Opens s more (f a)) : Opens s (payloads ++ more) (m >>= f) := by
  intro x b z hs done
  obtain ⟨a, y, one, two⟩ := bind_eq_ok done
  have opened := first x a y hs one
  exact opened.trans (further a y b z (Nat.lt_of_lt_of_le hs opened.size) two)

theorem report (s : ScopeId) (r : Action π) :
    Opens s r.opens (Walking.attempt (·.act s r) : Walking σ π Unit) := by
  rintro ⟨x, t⟩ a y hs done
  cases acted : t.act s r with
  | error e =>
    rw [attempt_of_error acted] at done
    cases done
  | ok u =>
    rw [attempt_of_ok acted] at done
    cases done
    exact opened_of_act hs acted

theorem withIterable {m : Walking σ π Unit} (hm : Opens s payloads m) :
    Opens s payloads (Walking.withIterable s m) := by
  rintro ⟨x, t⟩ a y hs done
  rw [Walking.withIterable, ScopeTree.withIterable] at done
  dsimp only at done
  have hs' : s ∈ t.setInIterable s true := (mem_congr (size_setInIterable ..) s).mpr hs
  cases run : m (x, t.setInIterable s true) with
  | error e z =>
    rw [run] at done
    cases done
  | ok _ z =>
    rw [run] at done
    cases done
    have inner := hm _ _ _ hs' run
    have given : Opened s [] t (t.setInIterable s true) :=
      opened_of_act hs (r := .setInIterable true) rfl
    have upto := given.trans inner
    have mem := Nat.lt_of_lt_of_le hs upto.size
    have back := opened_of_act mem (r := .setInIterable (t.inIterable s)) rfl
    exact (List.append_nil payloads) ▸ upto.trans back

end Opens

/-- Reports on one scope add to the list of that scope alone. -/
theorem ReportsOn.nested (reports : ReportsOn s x y) (away : a ≠ s) : y.2.nested a = x.2.nested a := by
  rw [ReportsOn] at reports
  generalize x.2 = t, y.2 = u at reports ⊢
  induction reports with
  | refl => rfl
  | tail _ last ih =>
    obtain ⟨r, acted⟩ := last
    rw [← ih]
    rcases (places_of_act acted).2 with ⟨-, same⟩ | ⟨-, -, -, others⟩
    · exact same a
    · exact others a away

end Walking

namespace Body

open Walking

variable {program body : Body} {t : ScopeTree Body} {called calls : List ScopeId} {s a : ScopeId}
  {x y : Unit × ScopeTree Body}

mutual

theorem reportOne_opens (s : ScopeId) : ∀ stmt : Stmt, Opens s (opensOne stmt) (reportOne s stmt)
  | .assign n _ => .report s (.store n)
  | .delete n => .report s (.store n)
  | .copy dst src => .bind (.report s (.load src)) fun _ => .report s (.store dst)
  | .read n => .report s (.load n)
  | .has n => .report s (.load n)
  | .assignExpr n _ => .report s (.assignExpr n)
  | .declareNonlocal n => .report s (.declareNonlocal n)
  | .declareGlobal n => .report s (.declareGlobal n)
  | .function name body => .report s (.nest .function name body)
  | .classBody name body => .report s (.nest .classBody name body)
  | .lambda body => .report s (.nest .lambda none body)
  | .toplevel body => .report s (.nest .toplevel none body)
  | .comprehension targets body => .report s (.nest .comprehension none (Stmt.loop targets body))
  | .iterable body => .withIterable (report_opens s body)

/-- Where the walker reports on code, it opens what the code opens. -/
theorem report_opens (s : ScopeId) : ∀ body : List Stmt, Opens s (opens body) (report s body)
  | [] => .pure s ()
  | stmt :: rest => .bind (reportOne_opens s stmt) fun _ => report_opens s rest

end

theorem walker_opens (hs : s ∈ x.2) (code : x.2.payload? s = some body) (done : walker s x = .ok () y) :
    Opened s (opens body) x.2 y.2 := by
  rw [walker, bind_of_ok (m := Walking.tree) rfl, code] at done
  exact report_opens s body x () y hs done

/-- A tree in which a scope has what its code opens listed below it if the walker has been called
    for it, and nothing otherwise. -/
structure Laid (program : Body) (t : ScopeTree Body) (called : List ScopeId) : Prop where
  root : t.payload? ScopeId.root = some program
  listed : ∀ a ∈ called, ∃ body, t.payload? a = some body ∧ t.Carries (t.nested a) (opens body)
  blank : ∀ a ∉ called, t.nested a = []

/-- A call lists what the code of its scope opens. -/
theorem Laid.call (laid : Laid program x.2 called) (hs : s ∈ x.2) (new : s ∉ called)
    (done : walker s x = .ok () y) : Laid program y.2 (called ++ [s]) := by
  obtain ⟨body, code⟩ : ∃ body, x.2.payload? s = some body :=
    ⟨_, by rw [payload?, ScopeTree.scope?, Array.getElem?_eq_getElem hs]; rfl⟩
  have opened := walker_opens hs code done
  have away {a : ScopeId} (away : a ≠ s) : y.2.nested a = x.2.nested a :=
    ((walker_within s).of_ok done).nested away
  refine ⟨opened.kept _ _ laid.root, fun a ha => ?_, fun a ha => ?_⟩
  · by_cases here : a = s
    · subst here
      obtain ⟨scopes, listed, carried⟩ := opened.nested
      rw [laid.blank a new, List.nil_append] at listed
      exact ⟨body, opened.kept a body code, listed ▸ carried⟩
    · have before := (List.mem_append.mp ha).resolve_right (mt List.mem_singleton.mp here)
      obtain ⟨body, code, carried⟩ := laid.listed a before
      exact ⟨body, opened.kept a body code, away here ▸ carried.imp opened.kept⟩
  · have here : a ≠ s := by
      rintro rfl
      exact ha (List.mem_append_right _ (List.mem_singleton_self a))
    rw [away here, laid.blank a (mt (List.mem_append_left _) ha)]

theorem nested_callAll (done : walker.callAll calls x = .ok () y) (away : a ∉ calls) :
    y.2.nested a = x.2.nested a := by
  induction calls generalizing x with
  | nil =>
    cases done
    rfl
  | cons s calls ih =>
    obtain ⟨_, z, first, rest⟩ := bind_eq_ok done
    have here : a ≠ s := List.ne_of_not_mem_cons away
    rw [ih rest (List.not_mem_of_not_mem_cons away)]
    exact ((walker_within s).of_ok first).nested here

/-- The calls of a walk in which every scope comes after the one that it is listed below. -/
theorem Laid.callAll (h : x.2.Reachable) (laid : Laid program x.2 called)
    (once : (called ++ calls).Nodup)
    (outer : ∀ before s after, called ++ calls = before ++ s :: after →
      s = ScopeId.root ∨ ∃ p ∈ before, s ∈ y.2.nested p)
    (done : walker.callAll calls x = .ok () y) : Laid program y.2 (called ++ calls) := by
  induction calls generalizing x called with
  | nil =>
    cases done
    rwa [List.append_nil]
  | cons s calls ih =>
    obtain ⟨_, z, first, rest⟩ := bind_eq_ok done
    have split : called ++ s :: calls = called ++ [s] ++ calls := by simp
    have new : s ∉ called := fun before =>
      (List.disjoint_of_nodup_append once) before List.mem_cons_self
    have hs : s ∈ x.2 := by
      rcases outer called s calls rfl with rfl | ⟨p, before, listed⟩
      · exact h.wellFormed.root_mem
      · -- what is listed below a scope that has been walked was listed there when it was walked
        rw [nested_callAll done fun later => List.disjoint_of_nodup_append once before later] at listed
        exact (h.wellFormed.enclosing_of_parent? (h.wellFormed.mem_nested.mp listed)).1
    have reached : z.2.Reachable := (walker_makesCalls s).keeps.of_ok first h
    rw [split] at once outer ⊢
    exact ih reached (laid.call hs new first) once outer rest

/-- The end of the analysis leaves the scopes where they are. -/
theorem Laid.finish (laid : Laid program t (t.preOrder ScopeId.root)) (wf : t.WellFormed) :
    Laid program t.finish t.finish.ids := by
  have same := wf.settled.same
  have payload? (a : ScopeId) : t.finish.payload? a = t.payload? a := same.payload? a
  have nested (a : ScopeId) : t.finish.nested a = t.nested a := same.nested a
  have ids : t.finish.ids = t.ids := congrArg List.range same.size
  have walked (a : ScopeId) : a ∈ t.finish.ids ↔ a ∈ t.preOrder ScopeId.root := by
    rw [ids, wf.preOrder_perm_ids.mem_iff]
  refine ⟨(payload? _).trans laid.root, fun a ha => ?_, fun a ha => ?_⟩
  · obtain ⟨body, code, carried⟩ := laid.listed a ((walked a).mp ha)
    exact ⟨body, (payload? a).trans code, nested a ▸ carried.imp fun c _ => (payload? c).trans⟩
  · exact (nested a).trans (laid.blank a (mt (walked a).mpr ha))

theorem laid_new (program : Body) : Laid program (ScopeTree.new program) [] := by
  refine ⟨rfl, fun _ ha => absurd ha List.not_mem_nil, fun a _ => ?_⟩
  cases a <;> rfl

/-- The analysis lists below every scope the scopes that its code opens, in their order. -/
theorem analyse_laid (done : analyse program = .ok t) : Laid program t t.ids := by
  obtain ⟨z, walked, rfl⟩ := exists_walk_of_analyse done
  have visits := (walker_nestsOutward ((), ScopeTree.new program)).visits (.new program) rfl
  rw [walked] at visits
  obtain ⟨reached, -, order, called⟩ := visits
  have wf := reached.wellFormed
  have once : (z.2.preOrder ScopeId.root).Nodup := wf.nodup_preOrderWithin z.2.size ScopeId.root
  rw [order] at called
  have laid := (laid_new program).callAll (.new program) once (fun _ _ _ => wf.preOrder_outer) called
  exact laid.finish wf

end Body

/-! ### Running -/

namespace Runner.Poised

open Environment

variable {σ ν π : Type} {t : ScopeTree π} {h : NamespaceId} {s : ScopeId} {scopes rest : List ScopeId}
  {f : Frame σ ν π}

/-- A frame is as it was for a cursor if the namespaces are where they were. -/
theorem extend (poised : Poised t h scopes f) {after : Environment ν π} (w : after.WellFormed)
    (ext : f.env.Extends after) (own : σ) : Poised t h scopes ⟨own, after, f.cursor⟩ := by
  have same := ext.scope h poised.fits.mem
  refine ⟨⟨w, ext.mem h poised.fits.mem, fun s listed => ?_⟩, ext.tree.trans poised.tree, ?_⟩
  · rw [ext.tree, same]
    exact poised.fits.parent s listed
  · rw [same]
    exact poised.cursor

/-- The frame for the rest of the scopes, when the namespace of the first is there. -/
theorem tail (poised : Poised t h (s :: rest) f) (own : σ) :
    Poised t h rest ⟨own, f.env.withChild h s, ⟨f.env.scope h, rest⟩⟩ :=
  ⟨poised.fits.tail (.refl poised.fits.withChild _), poised.tree,
    (scope_grow _ _ poised.fits.mem).symm ▸ rfl⟩

end Runner.Poised

namespace Running

open Environment Runner

variable {σ ν π α β : Type} {t : ScopeTree π} {h : NamespaceId} {payload : π} {payloads more : List π}
  {scopes : List ScopeId} {f : Frame σ ν π} {P Q : Frame σ ν π → Prop}

/-- An end that leaves what it should, or that a name without a value brings about. -/
def EndsWell (P : Frame σ ν π → Prop) : EStateM.Result AccessError (Frame σ ν π) α → Prop
  | .ok _ g => P g
  | .error e _ => ∃ n, e.name? = some n

/-- Steps that take scopes with certain payloads from a cursor over the scope of a namespace, and
    that end well. -/
def Takes (t : ScopeTree π) (h : NamespaceId) (payloads : List π) (m : Running σ ν π α) : Prop :=
  ∀ (f : Frame σ ν π) (scopes : List ScopeId) (more : List π), Poised t h scopes f →
    t.Carries scopes (payloads ++ more) →
    EndsWell (fun g => (∃ rest, Poised t h rest g ∧ t.Carries rest more) ∧ f.env.Extends g.env) (m f)

namespace Takes

theorem pure (a : α) : Takes t h [] (Pure.pure a : Running σ ν π α) :=
  fun f scopes _ poised carried => ⟨⟨scopes, poised, carried⟩, .refl f.env⟩

theorem bind {m : Running σ ν π α} {k : α → Running σ ν π β} (first : Takes t h payloads m)
    (further : ∀ a, Takes t h more (k a)) : Takes t h (payloads ++ more) (m >>= k) := by
  intro f scopes others poised carried
  rw [List.append_assoc] at carried
  have one := first f scopes _ poised carried
  rcases bind_cases m k f with ⟨e, g, stopped, eq⟩ | ⟨a, g, done, eq⟩
  · rw [stopped] at one
    rwa [eq]
  · rw [done] at one
    obtain ⟨⟨rest, poised, carried⟩, ext⟩ := one
    have two := further a g rest others poised carried
    rw [eq]
    cases run : k a g with
    | error e z => rwa [run] at two
    | ok b z =>
      rw [run] at two
      exact ⟨two.1, ext.trans two.2⟩

theorem discard {m : Running σ ν π α} (taken : Takes t h payloads m) :
    Takes t h payloads (Functor.discard m) := by
  intro f scopes others poised carried
  have one := taken f scopes others poised carried
  change EndsWell _ (EStateM.map (fun _ => ()) m f)
  rw [EStateM.map]
  cases run : m f <;> rw [run] at one <;> exact one

/-- A change after which the namespaces are where they were. -/
theorem update {g : Environment ν π → Environment ν π}
    (hg : ∀ env, env.WellFormed → (g env).WellFormed ∧ env.Extends (g env)) :
    Takes t h [] (Running.update g : Running σ ν π Unit) := by
  intro f scopes more poised carried
  obtain ⟨w, ext⟩ := hg f.env poised.fits.wellFormed
  exact ⟨⟨scopes, poised.extend w ext f.own, carried⟩, ext⟩

theorem note (g : σ → σ) : Takes t h [] (Running.note g : Running σ ν π Unit) :=
  fun f scopes _ poised carried =>
    ⟨⟨scopes, poised.extend poised.fits.wellFormed (.refl f.env) (g f.own), carried⟩, .refl f.env⟩

theorem env : Takes t h [] (Running.env : Running σ ν π (Environment ν π)) :=
  fun f scopes _ poised carried => ⟨⟨scopes, poised, carried⟩, .refl f.env⟩

/-- Nothing but the name itself can keep its value from being read. -/
theorem get (n : Ident) : Takes t h [] (Running.get h n : Running σ ν π ν) := by
  intro f scopes more poised carried
  rw [Running.get]
  cases read : f.env.get h n with
  | ok v => exact ⟨⟨scopes, poised, carried⟩, .refl f.env⟩
  | error e =>
    obtain ⟨-, rfl⟩ := get_eq_error.mp read
    rcases absence_cases f.env h n with absent | absent <;> rw [absent] <;> exact ⟨n, rfl⟩

end Takes

/-- A runner that ends well when it is called on a namespace with the payload of its scope, and
    with a cursor over all the scopes nested there. -/
def Runs (t : ScopeTree π) (r : Runner σ ν π) : Prop :=
  ∀ (f : Frame σ ν π) (h : NamespaceId) (payload : π), Poised t h (t.nested (f.env.scope h)) f →
    t.payload? (f.env.scope h) = some payload →
    EndsWell (fun g => g.env.WellFormed ∧ f.env.Extends g.env) (r h payload f)

theorem Runs.build {r : Runner σ ν π} (hr : Runs t r) (w : f.env.WellFormed) (tree : f.env.tree = t)
    (mem : h ∈ f.env) (code : t.payload? (f.env.scope h) = some payload) :
    EndsWell (fun g => (g.env.WellFormed ∧ f.env.Extends g.env) ∧ g.cursor = f.cursor)
      (r.build h f) := by
  subst tree
  have called := hr { f with cursor := .start f.env.tree (f.env.scope h) } h payload
    ⟨.nested w mem, rfl, rfl⟩ code
  rw [Runner.build, code]
  dsimp only
  cases run : r h payload { f with cursor := .start f.env.tree (f.env.scope h) } with
  | error e g => rwa [run] at called
  | ok _ g =>
    rw [run] at called
    exact ⟨called, rfl⟩

/-- The next scope is there, and its namespace is created below the one at hand. -/
theorem Takes.nestNext {r : Runner σ ν π} (hr : Runs t r) (h : NamespaceId) (payload : π) :
    Takes t h [payload] (r.nestNext h) := by
  intro f scopes more poised carried
  cases carried with
  | @cons s _ rest _ code carried =>
    have created := poised.create f.own ⟨f.env.scope h, rest⟩
    have child := size_mem_withChild f.env h s
    rw [Runner.nestNext, bind_of_ok poised.take, Runner.nestWith, bind_of_ok created]
    have called := hr.build (f := ⟨f.own, f.env.withChild h s, ⟨f.env.scope h, rest⟩⟩)
      poised.fits.withChild poised.tree child ((scope_withChild f.env h s).symm ▸ code)
    cases run : r.build f.env.size ⟨f.own, f.env.withChild h s, ⟨f.env.scope h, rest⟩⟩ with
    | error e g =>
      rw [run] at called
      rwa [bind_of_error run]
    | ok _ g =>
      rw [run] at called
      obtain ⟨⟨w, ext⟩, cursor⟩ := called
      rw [bind_of_ok run]
      refine ⟨⟨rest, ?_, carried⟩, (Extends.grow ..).trans ext⟩
      have left := (poised.tail f.own).extend w ext g.own
      dsimp only at left cursor
      rwa [← cursor] at left

end Running

namespace Body

open Running Environment Runner

variable {program : Body} {t : ScopeTree Body} {r : Runner (List Observation) Int Body} {e : AccessError}

section statements

variable {h : NamespaceId}

theorem takes_set (n : Ident) (v : Int) :
    Takes t h [] (Running.update (·.set h n v) : Running (List Observation) Int Body Unit) :=
  .update fun env w => ⟨w.setCell _ n _, .setCell env _ n _⟩

theorem takes_assignExpr (n : Ident) (v : Int) :
    Takes t h [] (Running.update (·.assignExpr h n v) : Running (List Observation) Int Body Unit) :=
  .update fun env w => ⟨w.setCell _ n _, .setCell env _ n _⟩

theorem takes_observe (f : Environment Int Body → Observation) : Takes t h [] (observe f) :=
  .bind .env fun _ => .note _

theorem takes_define : ∀ name : Option Ident, Takes t h [] (define h name)
  | none => .pure ()
  | some n => takes_set n defined

/-- A deletion that fails is noted, and the run goes on. -/
theorem takes_delete (n : Ident) : Takes t h [] (delete h n) := by
  intro f scopes more poised carried
  rw [delete, bind_of_ok (m := Running.env) rfl]
  cases deleted : f.env.delete h n with
  | ok after =>
    obtain ⟨-, rfl⟩ := delete_eq_ok deleted
    exact Takes.update (fun env w => ⟨w.setCell _ n .unbound, .setCell env _ n .unbound⟩)
      f scopes more poised carried
  | error e => exact Takes.note _ f scopes more poised carried

end statements

theorem takes_open (hr : Runs t r) (h : NamespaceId) (body : Body) :
    Takes t h [body] (discard (r.nestNext h)) :=
  (Takes.nestNext hr h body).discard

mutual

theorem executeOne_takes (hr : Runs t r) (h : NamespaceId) :
    ∀ stmt : Stmt, Takes t h (opensOne stmt) (executeOne r h stmt)
  | .assign n v => takes_set n v
  | .copy dst src => .bind (.get src) fun v => takes_set dst v
  | .read _ => takes_observe _
  | .has _ => takes_observe _
  | .delete n => takes_delete n
  | .assignExpr n v => takes_assignExpr n v
  | .declareNonlocal _ => .pure ()
  | .declareGlobal _ => .pure ()
  | .function name body => .bind (takes_open hr h body) fun _ => takes_define name
  | .classBody name body => .bind (takes_open hr h body) fun _ => takes_define name
  | .lambda body => takes_open hr h body
  | .toplevel body => takes_open hr h body
  | .comprehension targets body => takes_open hr h (Stmt.loop targets body)
  | .iterable body => execute_takes hr h body

/-- Where code is run, it takes the scopes that it opens. -/
theorem execute_takes (hr : Runs t r) (h : NamespaceId) :
    ∀ body : List Stmt, Takes t h (opens body) (execute r h body)
  | [] => .pure ()
  | stmt :: rest => .bind (executeOne_takes hr h stmt) fun _ => execute_takes hr h rest

end

theorem runs_within (laid : Laid program t t.ids) : ∀ depth : Nat, Runs t (within execute depth)
  | 0 => fun f _ _ poised _ => ⟨poised.fits.wellFormed, .refl f.env⟩
  | depth + 1 => by
    intro f h body poised code
    have listed : f.env.scope h ∈ t.ids :=
      List.mem_range.mpr (poised.tree ▸ poised.fits.wellFormed.scope_mem poised.fits.mem)
    obtain ⟨body', code', carried⟩ := laid.listed _ listed
    cases code.symm.trans code'
    have ran := execute_takes (runs_within laid depth) h body f _ [] poised (List.append_nil _ ▸ carried)
    rw [within]
    cases run : execute (within execute depth) h body f with
    | error e g => rwa [run] at ran
    | ok _ g =>
      rw [run] at ran
      obtain ⟨⟨_, poised, -⟩, ext⟩ := ran
      exact ⟨poised.fits.wellFormed, ext⟩

theorem runs_runner (laid : Laid program t t.ids) : Runs t runner := by
  intro f h body poised code
  rw [runner, recursive, bind_of_ok (m := Running.env) rfl]
  exact runs_within laid _ f h body poised code

/-- Only a name without a value ends a run of an analysed program early, so a run never asks for a
    scope out of turn. -/
theorem run_stopped (done : analyse program = .ok t) (builtins : Builtins Int)
    (stopped : (run t builtins).stopped = some e) : ∃ n, e.name? = some n := by
  obtain ⟨reached, built⟩ := analyse_reachable done
  have laid := analyse_laid done
  let first : Environment Int Body := ⟨t, #[activate t ScopeId.root []], builtins⟩
  have started : Environment.start t builtins = .ok first := if_pos built
  have w : first.WellFormed := .start reached started
  have ran := (runs_runner laid).build (f := ⟨[], first, .start t ScopeId.root⟩) w rfl w.root_mem
    (w.scope_root.symm ▸ laid.root)
  rw [run, started] at stopped
  dsimp only at stopped
  cases run : runner.build NamespaceId.root ⟨[], first, .start t ScopeId.root⟩ with
  | ok _ g =>
    rw [run] at stopped
    cases stopped
  | error e g =>
    rw [run] at stopped ran
    cases stopped
    exact ran

end Body

end Scoping
