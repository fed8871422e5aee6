import Scoping.Proofs.Expression
import Scoping.Proofs.History

/-! Assignment expressions at run time. The analysis looks for the scope in which an expression
    binds its name once, and a program does so each time it runs the expression, from namespace to
    namespace. The namespaces around one mirror the scopes around its scope, so both come to the
    same place, and since the analysis gives the name one home for both ends of the way, what the
    program has assigned is seen from both. -/

namespace Scoping

namespace Environment

variable {ν π : Type} {env : Environment ν π} {h g : NamespaceId} {n : Ident} {target : ScopeId}
  {inner outer : List ScopeId}

/-! ### The way out at run time -/

/-- The way from a namespace out of the comprehensions mirrors the way from its scope. -/
theorem WellFormed.expressionTarget_eq (w : env.WellFormed) (mem : h ∈ env)
    (o : env.tree.Outward (env.scope h) target inner outer) : ∃ before after,
      env.path h = before ++ env.expressionTarget h :: after ∧
      (∀ a ∈ before, env.kind? a = some .comprehension) ∧
      env.kind? (env.expressionTarget h) ≠ some .comprehension ∧
      env.scope (env.expressionTarget h) = target := by
  have scopes := w.scopes_path mem
  rw [o.way] at scopes
  obtain ⟨before, rest, way, inside, scopes⟩ := List.map_eq_append_iff.mp scopes
  obtain ⟨g, after, rfl, scope, -⟩ := List.map_eq_cons_iff.mp scopes
  have around : ∀ a ∈ before ++ g :: after, env.kind? a = env.tree.kind? (env.scope a) := fun a ha =>
    kind?_eq (w.mem_of_mem_path mem (way ▸ ha))
  have comprehensions : ∀ a ∈ before, env.kind? a = some .comprehension := by
    intro a ha
    rw [around a (List.mem_append_left _ ha)]
    exact o.inside _ (inside ▸ List.mem_map_of_mem ha)
  have stop : env.kind? g ≠ some .comprehension := by
    rw [around g (List.mem_append_right _ List.mem_cons_self), scope]
    exact o.stop
  have first : (env.path h).find? (fun g => env.kind? g ≠ some .comprehension) = some g := by
    refine List.find?_eq_some_iff_append.mpr ⟨decide_eq_true stop, before, after, way, fun a ha => ?_⟩
    simp [comprehensions a ha]
  have found : env.expressionTarget h = g := by
    rw [expressionTarget, first]
    rfl
  rw [found]
  exact ⟨before, after, way, comprehensions, stop, scope⟩

/-- Two namespaces on one way share the home of a name if the name lives in one scope for both. -/
theorem WellFormed.home_eq_of_scope (w : env.WellFormed) (mem : h ∈ env) (around : g ∈ env.path h)
    (same : env.tree.home (env.scope g) n = env.tree.home (env.scope h) n) :
    env.home g n = env.home h n := by
  have hg := w.mem_of_mem_path mem around
  refine (w.eq_home_iff mem n (w.path_subset mem around (w.home_mem_path hg n))).mpr ?_
  rw [w.scope_home hg, same]

/-- A name has the value that was put into its home. -/
theorem WellFormed.get_setCell (w : env.WellFormed) (mem : h ∈ env) (n : Ident) (v : ν) :
    (env.setCell (env.home h n) n ⟨some v⟩).get h n = .ok v := by
  have home : (env.setCell (env.home h n) n ⟨some v⟩).home h n = env.home h n :=
    (Extends.setCell ..).home w mem n
  rw [get_eq, home, (w.setCell ..).value?_of_held (v := v)]
  · rfl
  · rw [held?_setCell (w.home_mem mem n), if_pos ⟨rfl, rfl⟩]

/-- Reports on an assignment expression in a comprehension in another one in toplevel code, which
    reads the name afterwards. -/
def reportsInToplevel : List (ScopeId × Action Unit) :=
  [(0, .nest .toplevel none ()), (1, .nest .comprehension none ()), (2, .nest .comprehension none ()),
   (3, .load ⟨1⟩), (3, .assignExpr ⟨1⟩), (2, .load ⟨1⟩), (1, .load ⟨1⟩)]

/-- A program and the analysis agree on assignment expressions, as long as no other report gives an entry
    for the name to a comprehension on the way out: both ends of the way see the assigned value. -/
theorem assignExpr_agrees {payload : π} {reports : List (ScopeId × Action π)} {x : ScopeTree π}
    {s : ScopeId} (recorded : (ScopeTree.new payload).recordAll reports = x)
    (assigned : (s, .assignExpr n) ∈ (ScopeTree.new payload).accepted reports)
    (o : x.Outward s target inner outer)
    (spared : ∀ report ∈ (ScopeTree.new payload).accepted reports, report.1 ∈ inner → ¬report.2.fixes n)
    {σ : Type} (y : σ) (builtins : Builtins ν) :
    ∃ u first, (Walker.idle : Walker σ π).build (y, x) = .ok () (y, u) ∧ u.home s n = u.home target n ∧
      start u builtins = .ok first ∧
      ∀ env, first.LeadsTo env → ∀ h ∈ env, env.scope h = s → ∀ v,
        (env.assignExpr h n v).get h n = .ok v ∧
        ∃ before g after, env.path h = before ++ g :: after ∧
          (∀ a ∈ before, env.kind? a = some .comprehension) ∧ env.kind? g ≠ some .comprehension ∧
          env.scope g = target ∧ (env.assignExpr h n v).get g n = .ok v := by
  obtain ⟨hs, same⟩ := ScopeTree.home_assignExpr recorded assigned o spared
  have reached : x.Reachable := recorded ▸ (ScopeTree.Reachable.new payload).recordAll reports
  have h := reached.wellFormed
  have analysed := reached.step (.finish x)
  have home (a : ScopeId) : x.finish.home a n = x.home a n :=
    (ScopeTree.home_finish x a n).trans (h.settled.home h a n)
  have agree : x.finish.home s n = x.finish.home target n := by rw [home, home, same]
  have built : x.finish.Outward s target inner outer :=
    ((ScopeTree.changes_finish h).grows.outward_iff h hs).mpr o
  have started :
      start x.finish builtins = .ok ⟨x.finish, #[activate x.finish ScopeId.root []], builtins⟩ :=
    if_pos rfl
  refine ⟨x.finish, _, Walker.build_idle (y, x), agree, started, fun env used h mem scope v => ?_⟩
  have w := used.wellFormed (.start analysed started)
  have tree : env.tree = x.finish := (used.tree (.start analysed started)).trans (start_tree started)
  rw [← tree, ← scope] at built agree
  obtain ⟨before, after, way, inside, stop, out⟩ := w.expressionTarget_eq mem built
  have around : env.expressionTarget h ∈ env.path h := way ▸ List.mem_append_right _ List.mem_cons_self
  have shared : env.home (env.expressionTarget h) n = env.home h n :=
    w.home_eq_of_scope mem around (by rw [out, agree])
  have put : env.assignExpr h n v = env.setCell (env.home (env.expressionTarget h) n) n ⟨some v⟩ := rfl
  refine ⟨?_, before, _, after, way, inside, stop, out, ?_⟩
  · rw [put, shared]
    exact w.get_setCell mem n v
  · rw [put]
    exact w.get_setCell (w.mem_of_mem_path mem around) n v

theorem assignExpr_agrees_reportsInToplevel :
    ∃ first env, start ((ScopeTree.new ()).recordAll reportsInToplevel).finish
        (Builtins.ofList [(⟨3⟩, 30)] 0).1 = .ok first ∧
      first.LeadsTo env ∧ env.path 3 = [3, 2, 1, 0] ∧ (env.assignExpr 3 ⟨1⟩ 5).get 3 ⟨1⟩ = .ok 5 ∧
      ∃ g, env.scope g = 1 ∧ (env.assignExpr 3 ⟨1⟩ 5).get g ⟨1⟩ = .ok 5 := by
  have accepted : (ScopeTree.new ()).accepted reportsInToplevel = reportsInToplevel := rfl
  have assigned : (3, .assignExpr ⟨1⟩) ∈ (ScopeTree.new ()).accepted reportsInToplevel := by
    rw [accepted]
    exact List.mem_of_getElem? (i := 4) rfl
  have o : ((ScopeTree.new ()).recordAll reportsInToplevel).Outward 3 1 [3, 2] [0] :=
    ⟨by decide, by decide, by decide⟩
  have spared : ∀ report ∈ (ScopeTree.new ()).accepted reportsInToplevel, report.1 ∈ [3, 2] →
      ¬report.2.fixes ⟨1⟩ := by
    rw [accepted]
    simp [reportsInToplevel, Action.fixes, ScopeKind.bindsName]
  obtain ⟨u, first, built, -, started, agree⟩ :=
    assignExpr_agrees rfl assigned o spared () (Builtins.ofList [(⟨3⟩, 30)] 0).1
  rw [Walker.build_idle] at built
  cases built
  cases started
  obtain ⟨got, _, g, _, -, -, -, scope, same⟩ :=
    agree _ ⟨[.nest 0 1, .nest 1 2, .nest 2 3], rfl⟩ 3 (by decide +kernel) (by decide +kernel) 5
  exact ⟨_, _, rfl, ⟨_, rfl⟩, by decide +kernel, got, g, scope, same⟩

end Environment

end Scoping
