import Mathlib.Data.List.TakeWhile
import Scoping.Proofs.Beside
import Scoping.Proofs.Expression
import Scoping.Proofs.Forward

/-! Iteration variables. An assignment expression is refused if its name is an iteration variable of one
    of the comprehensions that it leads out of. The rule is checked when the expression is met, against
    the names that the comprehensions bind at that moment, and it leaves the name open there, as a mere
    use or not even that. So the question is which later reports may make an iteration variable of it. Of
    a single report it has only one answer: a binding in that very comprehension, as long as the name is
    open. From there it goes by induction on the calls, since the end of an analysis binds nothing. -/

namespace Scoping

/-- Whether a report on a scope binds the name there: it binds it, or opens a function or
    class of that name. -/
def Action.binds {π : Type} (n : Ident) : Action π → Bool
  | .store m => m = n
  | .nest kind name _ => kind.bindsName && name = some n
  | _ => false

namespace ScopeTree

variable {π : Type} {t u : ScopeTree π} {s a c target : ScopeId} {inner outer : List ScopeId}
  {n m : Ident}

/-! ### What one report binds in a comprehension -/

theorem bound_of_setEntry (ha : a ∈ t) {e : Entry} (other : e ≠ .bound)
    (bound : (t.setEntry a m e).entryAt? c n = some .bound) : t.entryAt? c n = some .bound := by
  rw [entryAt?_setEntry t ha] at bound
  split_ifs at bound
  · exact absurd (Option.some.inj bound) other
  · exact bound

theorem bound_of_load (ha : a ∈ t) (bound : (t.load a m).entryAt? c n = some .bound) :
    t.entryAt? c n = some .bound := by
  rw [load] at bound
  split at bound
  · exact bound_of_setEntry ha (by simp) bound
  · exact bound

theorem bound_of_noteToplevel (ha : a ∈ t)
    (bound : (t.noteToplevel a target m).entryAt? c n = some .bound) : t.entryAt? c n = some .bound := by
  rw [noteToplevel] at bound
  split at bound
  iterate 2 exact bound_of_setEntry ha (by simp) bound
  exact bound

/-- Binding a name is a binding in the scope at hand or in the global scope. -/
theorem bound_of_store (hr : ScopeId.root ∈ t) (ha : a ∈ t) (below : c ≠ ScopeId.root)
    (bound : (t.store a m).entryAt? c n = some .bound) :
    t.entryAt? c n = some .bound ∨ a = c ∧ m = n ∧ t.Undecided c n := by
  by_cases binds : t.BindsAt a m c n
  · obtain ⟨rfl, ⟨rfl, free⟩ | ⟨root, -⟩⟩ := binds
    · exact .inr ⟨rfl, rfl, free⟩
    · exact absurd root.symm below
  · rw [store_keeps hr ha binds] at bound
    exact .inl bound

/-- A name is newly bound in a comprehension by a binding there alone. An assignment expression
    binds nothing in comprehensions, as it leads out of them. -/
theorem bound_of_act (h : t.WellFormed) (ha : a ∈ t) {r : Action π} (acted : t.act a r = .ok u)
    (inside : t.kind? c = some .comprehension) (bound : u.entryAt? c n = some .bound) :
    t.entryAt? c n = some .bound ∨ a = c ∧ r.binds n ∧ t.Undecided c n := by
  have below : c ≠ ScopeId.root := by
    rintro rfl
    rw [h.kind_root] at inside
    cases inside
  cases r with
  | load m =>
    cases acted
    exact .inl (bound_of_load ha bound)
  | store m =>
    cases acted
    refine (bound_of_store h.root_mem ha below bound).imp_right ?_
    rintro ⟨here, rfl, free⟩
    exact ⟨here, by simp [Action.binds], free⟩
  | assignExpr m =>
    obtain ⟨target, found, cases⟩ := assignExpr_eq_ok acted
    obtain ⟨_, _, o⟩ := h.outward_of_expressionTarget ha found
    have ha' : a ∈ t.store target m := (mem_congr (sameScopes_store t target m).size a).mpr ha
    have stored : (t.store target m).entryAt? c n = some .bound := by
      rcases cases with ⟨rfl, rfl⟩ | ⟨-, -, -, rfl⟩ | ⟨-, -, rfl⟩
      · exact bound
      · exact bound_of_noteToplevel ha' bound
      · exact bound_of_load ha' bound
    refine .inl ((bound_of_store h.root_mem (o.target_mem h ha) below stored).resolve_right ?_)
    rintro ⟨rfl, -⟩
    exact o.stop inside
  | declareNonlocal m =>
    rcases declareNonlocal_eq_ok acted with rfl | ⟨target, -, -, rfl⟩
    · exact .inl bound
    · exact .inl (bound_of_setEntry ha (by simp) bound)
  | declareGlobal m =>
    have atRoot (stored : (t.store ScopeId.root m).entryAt? c n = some .bound) :
        t.entryAt? c n = some .bound :=
      (bound_of_store h.root_mem h.root_mem below stored).resolve_right fun own => below own.1.symm
    rcases declareGlobal_eq_ok ha acted with ⟨rfl, rfl⟩ | ⟨-, -, rfl⟩
    · exact .inl (atRoot bound)
    · have ha' := (mem_congr (sameScopes_store t ScopeId.root m).size a).mpr ha
      exact .inl (atRoot (bound_of_setEntry ha' (by simp) bound))
  | nest kind name payload =>
    obtain ⟨-, -, rfl⟩ := nest_eq_ok acted
    have ha' := (mem_congr (sameScopes_bindOwnName t a kind name).size a).mpr ha
    rw [entryAt?_push _ kind name payload ha'] at bound
    cases name with
    | none => exact .inl bound
    | some m =>
      rw [bindOwnName] at bound
      split_ifs at bound with named
      · refine (bound_of_store h.root_mem ha below bound).imp_right ?_
        rintro ⟨here, rfl, free⟩
        exact ⟨here, by simp [Action.binds, named], free⟩
      · exact .inl bound
  | setInIterable on =>
    cases acted
    rw [entryAt?_setInIterable] at bound
    exact .inl bound

/-- A binding in a scope that has left the name open binds it there. -/
theorem bound_of_binds {r : Action π} (binds : r.binds n) (free : t.Undecided c n)
    (performed : t.perform c r = .ok u) : u.entryAt? c n = some .bound := by
  obtain ⟨hc, acted⟩ := perform_eq_ok.mp performed
  have stored : (t.store c n).entryAt? c n = some .bound := by
    rw [store_of_undecided free, entryAt?_setEntry t hc, if_pos ⟨rfl, rfl⟩]
  cases r with
  | store m =>
    obtain rfl : m = n := by simpa [Action.binds] using binds
    cases acted
    exact stored
  | nest kind name payload =>
    obtain ⟨named, rfl⟩ : kind.bindsName ∧ name = some n := by simpa [Action.binds] using binds
    obtain ⟨-, -, rfl⟩ := nest_eq_ok acted
    have hc' := (mem_congr (sameScopes_bindOwnName t c kind (some n)).size c).mpr hc
    rw [entryAt?_push _ kind (some n) payload hc', bindOwnName, if_pos named]
    exact stored
  | _ => cases binds

/-! ### What a list of calls binds -/

/-- The end of an analysis binds nothing. -/
theorem bound_of_finish (h : t.WellFormed) (bound : t.finish.entryAt? c n = some .bound) :
    t.entryAt? c n = some .bound := by
  have settled := h.settled
  change t.settle.entryAt? c n = some .bound at bound
  cases entry : t.entryAt? c n with
  | none =>
    rcases settled.of_absent entry with absent | ⟨-, noted⟩
    · rw [absent] at bound
      cases bound
    · rw [noted] at bound
      cases bound
  | some e =>
    by_cases used : e = .used
    · subst used
      rw [settled.of_used h entry] at bound
      cases found : t.capture? c n <;> rw [found] at bound <;> cases bound
    · rw [settled.of_ne_used entry used] at bound
      exact bound

/-- Calls bind a name in a comprehension exactly if one of them is an accepted binding there that
    comes while the name is open. -/
theorem bound_afterAll_iff (h : t.Reachable) (inside : t.kind? c = some .comprehension)
    (unbound : t.entryAt? c n ≠ some .bound) (calls : List (Call π)) :
    (t.afterAll calls).entryAt? c n = some .bound ↔
      ∃ before r rest, calls = before ++ .report c r :: rest ∧ r.binds n ∧
      (t.afterAll before).Undecided c n ∧
        ∃ v, (t.afterAll before).perform c r = .ok v := by
  constructor
  · intro bound
    induction calls generalizing t with
    | nil => exact absurd bound unbound
    | cons call calls ih =>
      have reached := h.steps (t.steps_after call)
      have kept : (t.after call).kind? c = some .comprehension := by
        rw [(h.wellFormed.steps (t.steps_after call)).2.grows.kind? c (mem_of_kind? inside), inside]
      by_cases first : (t.after call).entryAt? c n = some .bound
      · cases call with
        | finish => exact absurd (bound_of_finish h.wellFormed first) unbound
        | report a r =>
          cases performed : t.perform a r with
          | error refusal =>
            rw [after_of_error performed] at first
            exact absurd first unbound
          | ok v =>
            rw [after_of_ok performed] at first
            obtain ⟨mem, acted⟩ := perform_eq_ok.mp performed
            obtain ⟨rfl, binds, free⟩ :=
              (bound_of_act h.wellFormed mem acted inside first).resolve_left unbound
            exact ⟨[], r, calls, rfl, binds, free, v, performed⟩
      · obtain ⟨before, r, rest, rfl, later⟩ := ih reached kept first bound
        exact ⟨call :: before, r, rest, rfl, later⟩
  · rintro ⟨before, r, rest, rfl, binds, free, v, performed⟩
    have reached := h.steps (t.steps_afterAll before)
    have last := reached.wellFormed.steps (.single (.perform performed))
    rw [afterAll_append, afterAll_cons, after_of_ok performed]
    exact (last.1.steps (v.steps_afterAll rest)).2.grows.bound (bound_of_binds binds free performed)

/-- A name that a comprehension has decided otherwise never becomes an iteration variable. -/
theorem unbound_of_decided (h : t.Reachable) (inside : t.kind? c = some .comprehension)
    (unbound : t.entryAt? c n ≠ some .bound) (decided : ¬t.Undecided c n) (calls : List (Call π)) :
    (t.afterAll calls).entryAt? c n ≠ some .bound := by
  rw [Ne, bound_afterAll_iff h inside unbound]
  rintro ⟨before, r, rest, -, -, free, -⟩
  exact decided ((h.wellFormed.steps (t.steps_afterAll before)).2.grows.undecided free)

/-! ### What an expression leaves in the comprehensions -/

/-- The comprehensions that an assignment expression leads out of do not bind its name,
    neither before nor after. -/
theorem outward_of_assignExpr (h : t.WellFormed) (hs : s ∈ t) (acted : t.assignExpr s n = .ok u) :
    ∃ target inner outer, t.Outward s target inner outer ∧
      ∀ c ∈ inner, u.entryAt? c n ≠ some .bound := by
  obtain ⟨target, found, -⟩ := assignExpr_eq_ok acted
  obtain ⟨inner, outer, way, comprehensions⟩ := expressionTarget_eq_ok found
  refine ⟨target, inner, outer, ⟨way, fun c hc => (comprehensions c hc).1,
    (h.expressionTarget_kind hs found).1⟩, fun c hc bound => ?_⟩
  obtain ⟨inside, unbound⟩ := comprehensions c hc
  rcases bound_of_act h hs (r := .assignExpr n) acted inside bound with before | ⟨-, binds, -⟩
  · exact unbound before
  · cases binds

theorem Outward.inner_eq (o : t.Outward s target inner outer) :
    inner = (t.path s).takeWhile fun a => t.kind? a = some .comprehension := by
  rw [o.way, List.takeWhile_append_of_pos (by simpa using o.inside),
    List.takeWhile_cons_of_neg (by simpa using o.stop), List.append_nil]

theorem noteToplevel_of_decided (decided : ¬t.Undecided s n) : t.noteToplevel s target n = t := by
  rw [noteToplevel]
  split
  · rename_i absent
    exact absurd (.inl absent) decided
  · rename_i used
    exact absurd (.inr used) decided
  · rfl

/-- The comprehension of the expression knows the name afterwards, and if the name lives in toplevel
    code, then the comprehension has taken note of that. -/
theorem known_of_assignExpr (h : t.WellFormed) (hs : s ∈ t) (acted : t.assignExpr s n = .ok u)
    (o : t.Outward s target inner outer) (away : s ∈ inner) : u.entryAt? s n ≠ none ∧
      (t.kind? target = some .toplevel → u.home target n = target → ¬u.Undecided s n) := by
  obtain ⟨b, found, cases⟩ := assignExpr_eq_ok acted
  obtain ⟨_, _, own⟩ := h.outward_of_expressionTarget hs found
  obtain rfl := o.unique own
  have other : b ≠ s := by
    rintro rfl
    exact o.stop (o.inside b away)
  have same := sameScopes_store t b n
  have ht := o.target_mem h hs
  have hs' : s ∈ t.store b n := (mem_congr same.size s).mpr hs
  rcases cases with ⟨rfl, -⟩ | ⟨-, -, -, rfl⟩ | ⟨-, passed, rfl⟩
  · exact absurd rfl other
  · have decided : ¬((t.store b n).noteToplevel s b n).Undecided s n := by
      by_cases free : (t.store b n).Undecided s n
      · rw [noteToplevel_of_undecided free]
        simp [Undecided, entryAt?_setEntry _ hs']
      · rwa [noteToplevel_of_decided free]
    exact ⟨fun absent => decided (.inl absent), fun _ _ => decided⟩
  · have kept : ((t.store b n).load s n).entryAt? b n = (t.store b n).entryAt? b n := by
      rw [entryAt?_load _ hs', if_neg fun same => other same.1.symm]
    refine ⟨by simp [entryAt?_load _ hs'], fun top home => absurd ⟨?_, ?_⟩ passed⟩
    · rw [same.kind?, top]
    · rwa [home_congr_of_decided (decided_store h.root_mem ht n) kept] at home

/-! ### Main result -/

/-- A comprehension that an accepted assignment expression leads out of comes to have the name for an
    iteration variable exactly by a binding of its own, made while it still leaves the name open. -/
theorem iteration_variable_by_own_binding (h : t.Reachable)
    (accepted : t.perform s (.assignExpr n) = .ok u) :
    ∃ target inner outer, t.Outward s target inner outer ∧
      (∀ c ∈ inner, u.entryAt? c n ≠ some .bound ∧ ∀ calls,
        ((u.afterAll calls).entryAt? c n = some .bound ↔
          ∃ before r rest, calls = before ++ .report c r :: rest ∧ r.binds n ∧
            (u.afterAll before).Undecided c n ∧ ∃ v, (u.afterAll before).perform c r = .ok v)) ∧
      (s ∈ inner → t.kind? target = some .toplevel → u.home target n = target →
        ∀ calls, (u.afterAll calls).entryAt? s n ≠ some .bound) ∧
      (s ∈ inner → ∀ calls, (u.finish.afterAll calls).entryAt? s n ≠ some .bound) := by
  obtain ⟨hs, acted⟩ := perform_eq_ok.mp accepted
  have wf := h.wellFormed
  have reached := h.step (.perform accepted)
  have grows := Grows.perform wf accepted
  obtain ⟨target, inner, outer, o, unbound⟩ := outward_of_assignExpr wf hs acted
  have inside : ∀ c ∈ inner, u.kind? c = some .comprehension := fun c hc => by
    rw [grows.kind? c (mem_of_kind? (o.inside c hc)), o.inside c hc]
  refine ⟨target, inner, outer, o,
    fun c hc => ⟨unbound c hc, bound_afterAll_iff reached (inside c hc) (unbound c hc)⟩,
    fun away top home => ?_, fun away => ?_⟩
  · have decided := (known_of_assignExpr wf hs acted o away).2 top home
    exact unbound_of_decided reached (inside s away) (unbound s away) decided
  · have done := changes_finish reached.wellFormed
    refine unbound_of_decided (reached.step (.finish u)) ?_ ?_ ?_
    · rw [done.grows.kind? s (grows.mem s hs), inside s away]
    · exact fun bound => unbound s away (bound_of_finish reached.wellFormed bound)
    · rintro (absent | used)
      · exact done.grows.ne_none (known_of_assignExpr wf hs acted o away).1 absent
      · exact reached.wellFormed.settled.complete s n used

/-- A function with a comprehension in a comprehension, and toplevel code with a comprehension. -/
def comprehensions : ScopeTree Unit :=
  (ScopeTree.new ()).recordAll
    [(0, .nest .function none ()), (1, .nest .comprehension none ()), (2, .nest .comprehension none ()),
     (0, .nest .toplevel none ()), (4, .nest .comprehension none ())]

/-- An expression in the inner comprehension leaves its name open in both, and one in
    toplevel code does not. -/
theorem iteration_variable_by_own_binding_comprehensions :
    comprehensions.Reachable ∧ ∃ u v : ScopeTree Unit,
      comprehensions.perform 3 (.assignExpr ⟨1⟩) = .ok u ∧
      (u.afterAll [.report 1 (.load ⟨1⟩), .report 2 (.load ⟨1⟩), .finish]).entryAt? 2 ⟨1⟩ ≠ some .bound ∧
      (u.afterAll [.report 1 (.load ⟨1⟩), .report 2 (.store ⟨1⟩)]).entryAt? 2 ⟨1⟩ = some .bound ∧
      (u.finish.afterAll [.report 3 (.store ⟨1⟩)]).entryAt? 3 ⟨1⟩ ≠ some .bound ∧
      comprehensions.perform 5 (.assignExpr ⟨1⟩) = .ok v ∧
      (v.afterAll [.report 5 (.store ⟨1⟩)]).entryAt? 5 ⟨1⟩ ≠ some .bound := by
  have h : comprehensions.Reachable := Reachable.recordAll _ (Reachable.new ())
  obtain ⟨b, inner, outer, o, open', -, later⟩ :=
    iteration_variable_by_own_binding h (s := 3) (n := ⟨1⟩) rfl
  obtain ⟨b', inner', outer', o', -, noted, -⟩ :=
    iteration_variable_by_own_binding h (s := 5) (n := ⟨1⟩) rfl
  have nested : inner = [3, 2] := o.inner_eq
  have single : inner' = [5] := o'.inner_eq
  subst nested single
  have bound := (open' 2 (by decide)).2
  refine ⟨h, _, _, rfl, ?_, ?_, later (by decide) _, rfl, ?_⟩
  · rw [Ne, bound]
    rintro ⟨before, r, rest, calls, binds, -⟩
    have mem : Call.report 2 r ∈ [.report 1 (.load ⟨1⟩), .report 2 (.load ⟨1⟩), .finish] := by
      rw [calls]
      exact List.mem_append_right before List.mem_cons_self
    obtain rfl : r = .load ⟨1⟩ := by simpa using mem
    cases binds
  · rw [bound]
    exact ⟨[.report 1 (.load ⟨1⟩)], .store ⟨1⟩, [], rfl, by decide, by decide, _, rfl⟩
  · obtain rfl : b' = 4 := Option.some.inj (o'.find?.symm.trans (by decide))
    exact noted (by decide) (by decide) (by decide) _

/-- A comprehension that assigns to a name and then binds it. -/
def assignedFirst : ScopeTree Unit :=
  comprehensions.afterAll [.report 2 (.assignExpr ⟨1⟩), .report 2 (.store ⟨1⟩)]

/-- In the source order of a comprehension whose element assigns to its iteration variable, the
    expression is accepted and the variable bound afterwards, so the name lives in the
    comprehension. In the other order the expression is refused. -/
theorem iteration_variable_depends_on_order :
    comprehensions.perform 2 (.assignExpr ⟨1⟩) =
      .ok (comprehensions.after (.report 2 (.assignExpr ⟨1⟩))) ∧
      assignedFirst.kind? 2 = some .comprehension ∧ assignedFirst.entryAt? 2 ⟨1⟩ = some .bound ∧
      assignedFirst.finish.entryAt? 2 ⟨1⟩ = some .bound ∧ assignedFirst.finish.home 2 ⟨1⟩ = 2 ∧
      (comprehensions.after (.report 2 (.store ⟨1⟩))).perform 2 (.assignExpr ⟨1⟩) =
        .error (.binding ⟨.assignmentToIterationVariable, ⟨1⟩, 2⟩) :=
  ⟨rfl, by decide, by decide, by decide, by decide, rfl⟩

end ScopeTree

end Scoping
