import Scoping.Program.Execution
import Scoping.Proofs.Session
import Scoping.Proofs.Visits

/-! Programs. The walker of a program does nothing to a tree but report on the scope that it is
    called for, and its runner does nothing to an environment but operate on it. So whatever is said
    of walkers that make calls or that nest outward, and of environments that operations lead to, is
    said of every program. -/

namespace Scoping

open Relation Steps ScopeTree

/-! ### Reports on one scope -/

namespace Walking

variable {σ π α : Type} {s : ScopeId} {x y : σ × ScopeTree π}

/-- What reports on one scope make of a tree. -/
def ReportsOn (s : ScopeId) (x y : σ × ScopeTree π) : Prop :=
  ReflTransGen (fun t u => ∃ a, t.act s a = .ok u) x.2 y.2

instance (s : ScopeId) : IsPreorder (σ × ScopeTree π) (ReportsOn s) where
  refl _ := .refl
  trans _ _ _ := .trans

theorem within_report (s : ScopeId) (a : Action π) :
    Within (ReportsOn s) (Walking.attempt (·.act s a) : Walking σ π Unit) := by
  rintro ⟨x, t⟩
  cases acted : t.act s a with
  | error e =>
    rw [attempt_of_error acted]
    exact .refl
  | ok u =>
    rw [attempt_of_ok acted]
    exact .single ⟨a, acted⟩

/-- The mark of a scope is given and taken back by reports on it. -/
theorem within_withIterable {m : Walking σ π Unit} (hm : Within (ReportsOn s) m) :
    Within (ReportsOn s) (Walking.withIterable s m) := by
  intro x
  rw [left_withIterable]
  have given : ReportsOn s x (x.1, x.2.setInIterable s true) := .single ⟨.setInIterable true, rfl⟩
  exact (given.trans (hm _)).tail ⟨.setInIterable (x.2.inIterable s), rfl⟩

namespace ReportsOn

theorem calls (reports : ReportsOn s x y) : Calls x y := by
  rw [ReportsOn] at reports
  rw [Calls]
  generalize x.2 = t, y.2 = u at reports ⊢
  induction reports with
  | refl => exact ⟨[], rfl⟩
  | tail _ last ih =>
    obtain ⟨before, rfl⟩ := ih
    obtain ⟨a, acted⟩ := last
    obtain ⟨more, rfl⟩ := exists_calls_of_act acted
    exact ⟨before ++ more, (afterAll_append ..).symm⟩

/-- A scope that is opened below the scope at hand is opened on the way to it. -/
theorem outward (reports : ReportsOn s x y) : ReflTransGen (OuterReport s) x.2 y.2 :=
  ReflTransGen.mono (fun _ _ ⟨a, acted⟩ => ⟨s, a, acted, fun _ _ _ _ => List.mem_cons_self⟩) _ _ reports

end ReportsOn

/-- Calls lead from reachable trees to reachable trees. -/
theorem MakesCalls.keeps {m : Walking σ π α} (hm : MakesCalls m) : Keeps Reachable m := by
  intro x hx
  obtain ⟨calls, eq⟩ := hm x
  rw [eq]
  exact hx.steps (x.2.steps_afterAll calls)

end Walking

/-! ### The walker of a program -/

namespace Body

open Walking

variable {program : Body} {t : ScopeTree Body}

mutual

theorem reportOne_within (s : ScopeId) : ∀ stmt : Stmt, Within (ReportsOn s) (reportOne s stmt)
  | .assign n _ => within_report s (.store n)
  | .delete n => within_report s (.store n)
  | .copy dst src => .bind (within_report s (.load src)) fun _ => within_report s (.store dst)
  | .read n => within_report s (.load n)
  | .has n => within_report s (.load n)
  | .assignExpr n _ => within_report s (.assignExpr n)
  | .declareNonlocal n => within_report s (.declareNonlocal n)
  | .declareGlobal n => within_report s (.declareGlobal n)
  | .function name body => within_report s (.nest .function name body)
  | .classBody name body => within_report s (.nest .classBody name body)
  | .lambda body => within_report s (.nest .lambda none body)
  | .toplevel body => within_report s (.nest .toplevel none body)
  | .comprehension targets body => within_report s (.nest .comprehension none (Stmt.loop targets body))
  | .iterable body => within_withIterable (report_within s body)

/-- What stands in a scope is reported on that scope, also where it stands in an iterable. -/
theorem report_within (s : ScopeId) : ∀ body : List Stmt, Within (ReportsOn s) (report s body)
  | [] => .pure ()
  | stmt :: rest => .bind (reportOne_within s stmt) fun _ => report_within s rest

end

theorem walker_within (s : ScopeId) : Within (ReportsOn s) (walker s) :=
  .bind within_tree fun _ => report_within s _

/-- The walker of a program calls on the tree and does nothing else to it. -/
theorem walker_makesCalls (s : ScopeId) : (walker s).MakesCalls := fun x => (walker_within s x).calls

/-- The walker of a program opens scopes below the scope that it is called for alone. -/
theorem walker_nestsOutward (x : Unit × ScopeTree Body) : walker.NestsOutward x := by
  intro before s z _ _ _ _
  have reports := (walker_within s z).outward
  cases run : walker s z <;> rw [run] at reports <;> exact reports

/-- An analysis is a walk and the end of it. -/
theorem exists_walk_of_analyse (done : analyse program = .ok t) :
    ∃ z, walker.walk ((), ScopeTree.new program) = .ok () z ∧ t = z.2.finish := by
  rw [analyse] at done
  cases run : walker.build ((), ScopeTree.new program) with
  | error e y =>
    rw [run] at done
    cases done
  | ok _ y =>
    rw [run] at done
    cases done
    rw [Walker.build_of_not_built walker rfl] at run
    obtain ⟨_, z, walked, finished⟩ := bind_eq_ok run
    cases finished
    exact ⟨z, walked, rfl⟩

/-- The scopes of a program are what its calls and then the end of the analysis make of the
    global scope. -/
theorem analyse_eq_ok (done : analyse program = .ok t) :
    ∃ calls, t = ((ScopeTree.new program).afterAll calls).finish := by
  obtain ⟨z, walked, rfl⟩ := exists_walk_of_analyse done
  obtain ⟨calls, eq⟩ := (Walker.walk_within walker_makesCalls).of_ok walked
  exact ⟨calls, congrArg finish eq⟩

theorem analyse_reachable (done : analyse program = .ok t) : t.Reachable ∧ t.built := by
  obtain ⟨calls, rfl⟩ := analyse_eq_ok done
  have before := (Reachable.new program).steps (steps_afterAll calls _)
  exact ⟨before.step (.finish _), rfl⟩

end Body

/-! ### Uses of an environment -/

namespace Environment

variable {ν π : Type} {first env after : Environment ν π} {h : NamespaceId} {n : Ident} {v : ν}

theorem setCell_of_not_mem (out : h ∉ env) (n : Ident) (c : Cell ν) : env.setCell h n c = env := by
  have same (f : Namespace ν → Namespace ν) : env.namespaces.modify h f = env.namespaces := by
    refine Array.ext_getElem? fun i => ?_
    rw [Array.getElem?_modify]
    split_ifs with here
    · rw [← here, Array.getElem?_eq_none (Nat.not_lt.mp out)]
      rfl
    · rfl
  rw [setCell, same]

/-- Seen from a namespace that is not there, a name lives nowhere or in the global namespace. -/
theorem home_of_not_mem (out : h ∉ env) (n : Ident) :
    env.home h n = h ∨ env.home h n = NamespaceId.root := by
  have alone : env.path h = [h] := by
    rw [path, namespace?_of_not_mem out]
    rfl
  rw [home, alone, List.find?_singleton]
  split_ifs
  · exact .inl rfl
  · exact .inr rfl

theorem WellFormed.home_root (w : env.WellFormed) (n : Ident) :
    env.home NamespaceId.root n = NamespaceId.root := by
  have around := w.home_mem_path w.root_mem n
  rwa [w.path_root, List.mem_singleton] at around

namespace LeadsTo

/-- One more operation. -/
theorem tail (used : first.LeadsTo env) (op : Operation ν)
    (performed : ∀ writes, (Session.perform ⟨env, writes⟩ op).env = after) : first.LeadsTo after := by
  obtain ⟨ops, rfl⟩ := used
  refine ⟨ops ++ [op], ?_⟩
  rw [Session.performAll_append, Session.performAll, Session.performAll]
  exact performed _

variable (w : first.WellFormed) (used : first.LeadsTo env)

include w used

/-- What is set through a namespace that is not there is set nowhere or in the global namespace. -/
theorem set (h : NamespaceId) (n : Ident) (v : ν) : first.LeadsTo (env.set h n v) := by
  have wf := used.wellFormed w
  have inside {g : NamespaceId} (mem : g ∈ env) : first.LeadsTo (env.set g n v) :=
    used.tail (.set g n v) fun writes => by rw [Session.perform, if_pos mem]
  by_cases mem : h ∈ env
  · exact inside mem
  · rcases home_of_not_mem mem n with here | root
    · rwa [Environment.set, here, setCell_of_not_mem mem]
    · have same : env.set h n v = env.set NamespaceId.root n v := by
        rw [Environment.set, Environment.set, root, wf.home_root]
      rw [same]
      exact inside wf.root_mem

theorem delete (deleted : env.delete h n = .ok after) : first.LeadsTo after := by
  have wf := used.wellFormed w
  have inside {g : NamespaceId} (mem : g ∈ env) (deleted : env.delete g n = .ok after) :
      first.LeadsTo after :=
    used.tail (.delete g n) fun writes => by rw [Session.perform, if_pos mem, deleted]
  by_cases mem : h ∈ env
  · exact inside mem deleted
  · rw [Environment.delete] at deleted
    rcases home_of_not_mem mem n with here | root
    · rw [here, cell?, namespace?_of_not_mem mem] at deleted
      cases deleted
    · refine inside wf.root_mem ?_
      rw [root] at deleted
      rw [Environment.delete, wf.home_root]
      cases found : env.cell? NamespaceId.root n with
      | none =>
        rw [found] at deleted
        cases deleted
      | some c =>
        rw [found] at deleted
        dsimp only at deleted ⊢
        split_ifs at deleted ⊢
        exact deleted

end LeadsTo

end Environment

/-! ### The runner of a program -/

namespace Running

variable {σ ν π : Type} {P : Frame σ ν π → Prop}

theorem Carries.update {g : Environment ν π → Environment ν π}
    (hg : ∀ f, P f → P { f with env := g f.env }) :
    Carries P (Running.update g : Running σ ν π Unit) := hg

theorem Carries.get (h : NamespaceId) (n : Ident) : Carries P (Running.get h n : Running σ ν π ν) := by
  intro f hf
  rw [Running.get]
  cases f.env.get h n <;> exact hf

/-- Operations have made the environment of a frame of the given one. -/
def Operated (first : Environment ν π) (f : Frame σ ν π) : Prop := first.LeadsTo f.env

theorem stable_operated (first : Environment ν π) : Stable (Operated first : Frame σ ν π → Prop) :=
  .of_env fun used accepted => used.nest accepted

end Running

namespace Body

open Running

variable {first : Environment Int Body} {r : Runner (List Observation) Int Body}

theorem carries_observe (f : Environment Int Body → Observation) :
    Carries (Operated first) (observe f) :=
  .bind within_env fun _ => Carries.note fun _ used => used

theorem carries_open (hr : ∀ g payload, Carries (Operated first) (r g payload)) (h : NamespaceId) :
    Carries (Operated first) (discard (r.nestNext h)) :=
  .discard (Runner.nestNext_carries (stable_operated first) hr h)

section operated

variable (w : first.WellFormed)

include w

theorem carries_set (h : NamespaceId) (n : Ident) (v : Int) :
    Carries (Operated first) (Running.update (·.set h n v) : Running (List Observation) Int Body Unit) :=
  Carries.update fun _ used => used.set w h n v

theorem carries_assignExpr (h : NamespaceId) (n : Ident) (v : Int) :
    Carries (Operated first)
      (Running.update (·.assignExpr h n v) : Running (List Observation) Int Body Unit) :=
  Carries.update fun f used => used.set w (f.env.expressionTarget h) n v

theorem carries_define (h : NamespaceId) :
    ∀ name : Option Ident, Carries (Operated first) (define h name)
  | none => .pure ()
  | some n => carries_set w h n defined

theorem carries_delete (h : NamespaceId) (n : Ident) : Carries (Operated first) (delete h n) := by
  intro f used
  rw [delete, bind_of_ok (m := Running.env) rfl]
  cases deleted : f.env.delete h n with
  | ok after => exact used.delete w deleted
  | error e => exact used

end operated

mutual

theorem carries_executeOne (w : first.WellFormed)
    (hr : ∀ g payload, Carries (Operated first) (r g payload))
    (h : NamespaceId) : ∀ stmt : Stmt, Carries (Operated first) (executeOne r h stmt)
  | .assign n v => carries_set w h n v
  | .copy dst src => .bind (Carries.get h src) fun v => carries_set w h dst v
  | .read _ => carries_observe _
  | .has _ => carries_observe _
  | .delete n => carries_delete w h n
  | .assignExpr n v => carries_assignExpr w h n v
  | .declareNonlocal _ => .pure ()
  | .declareGlobal _ => .pure ()
  | .function name _ => .bind (carries_open hr h) fun _ => carries_define w h name
  | .classBody name _ => .bind (carries_open hr h) fun _ => carries_define w h name
  | .lambda _ => carries_open hr h
  | .toplevel _ => carries_open hr h
  | .comprehension _ _ => carries_open hr h
  | .iterable body => carries_execute w hr h body

theorem carries_execute (w : first.WellFormed) (hr : ∀ g payload, Carries (Operated first) (r g payload))
    (h : NamespaceId) : ∀ body : List Stmt, Carries (Operated first) (execute r h body)
  | [] => .pure ()
  | stmt :: rest => .bind (carries_executeOne w hr h stmt) fun _ => carries_execute w hr h rest

end

/-- The runner of a program operates on the environment and does nothing else to it,
    whether it fails or not. -/
theorem runner_keeps (w : first.WellFormed) (h : NamespaceId) (payload : Body) :
    Keeps first.LeadsTo (runner h payload) :=
  Runner.recursive_carries (P := Operated first) (carries_execute w) h payload

/-- A run of an analysed program starts, and the global names that it tells of stand in an
    environment that operations make of the one at the start. -/
theorem run_eq {program : Body} {t : ScopeTree Body} (done : analyse program = .ok t)
    (builtins : Builtins Int) :
    ∃ first env, Environment.start t builtins = .ok first ∧ first.LeadsTo env ∧
      (run t builtins).globals = globalValues env := by
  obtain ⟨reached, built⟩ := analyse_reachable done
  let first : Environment Int Body := ⟨t, #[Environment.activate t ScopeId.root []], builtins⟩
  have started : Environment.start t builtins = .ok first := if_pos built
  have w : first.WellFormed := .start reached started
  have used := Runner.build_carries (stable_operated first) (runner_keeps w) NamespaceId.root
    ⟨[], first, .start t ScopeId.root⟩ ⟨[], rfl⟩
  rw [run, started]
  dsimp only
  cases ran : runner.build NamespaceId.root ⟨[], first, .start t ScopeId.root⟩ with
  | ok _ f =>
    rw [ran] at used
    exact ⟨first, f.env, rfl, used, rfl⟩
  | error e f =>
    rw [ran] at used
    exact ⟨first, f.env, rfl, used, rfl⟩

end Body

end Scoping
