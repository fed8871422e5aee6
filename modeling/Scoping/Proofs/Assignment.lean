import Scoping.Proofs.Iteration

/-! Assignment expressions, from their report to what is left of it. An expression is accepted if no
    scope on the way out objects to it: a scope in an iterable objects, a comprehension whose
    iteration variable is the name, and a class at the end of the way. The search asks the scopes
    one after the other, so the first objection is the answer. What an accepted expression does is
    to bind the name at the end of the way and to leave one entry at most where it stands, and as
    long as the comprehensions on the way were open for the name, that entry is enough for both ends
    to agree on where the name lives. -/

namespace Scoping

namespace ScopeTree

variable {π : Type} {t u : ScopeTree π} {s a c target : ScopeId} {inner outer : List ScopeId} {n : Ident}

/-! ### Objections -/

/-- What a scope has against an assignment expression whose way out passes it or ends in it. -/
def objection? (t : ScopeTree π) (n : Ident) (c : ScopeId) : Option BindingFault :=
  if t.inIterable c then some .assignmentInIterable
  else if t.kind? c = some .comprehension then
    if t.entryAt? c n = some .bound then some .assignmentToIterationVariable else none
  else if t.kind? c = some .classBody then some .assignmentInClassBody
  else none

theorem objection?_inner (inside : t.kind? c = some .comprehension) :
    t.objection? n c = none ↔ t.inIterable c = false ∧ t.entryAt? c n ≠ some .bound := by
  rw [objection?, if_pos inside]
  split_ifs <;> simp [*]

theorem objection?_stop (stop : t.kind? target ≠ some .comprehension) :
    t.objection? n target = none ↔ t.inIterable target = false ∧ t.kind? target ≠ some .classBody := by
  rw [objection?, if_neg stop]
  split_ifs <;> simp [*]

theorem objection?_eq_classBody :
    t.objection? n c = some .assignmentInClassBody ↔ t.inIterable c = false ∧
      t.kind? c = some .classBody := by
  rw [objection?]
  split_ifs with flag inside bound body <;> simp [*]

/-! ### The search -/

/-- Every way out of comprehensions comes to an end. -/
theorem WellFormed.exists_outward (h : t.WellFormed) (hs : s ∈ t) :
    ∃ inner target outer, t.Outward s target inner outer := by
  have stops : ((t.path s).find? fun a => t.kind? a ≠ some .comprehension).isSome :=
    List.find?_isSome.mpr ⟨ScopeId.root, h.root_mem_path hs, by simp [h.kind_root]⟩
  obtain ⟨target, found⟩ := Option.isSome_iff_exists.mp stops
  obtain ⟨stop, inner, outer, way, inside⟩ := List.find?_eq_some_iff_append.mp found
  exact ⟨inner, target, outer, way, fun c hc => by simpa using inside c hc, of_decide_eq_true stop⟩

/-- The search asks each scope on the way, and ends with the first objection or else with
    the last scope. -/
theorem expressionTarget_eq (stop : t.kind? target ≠ some .comprehension)
    (last : outer = [] → t.kind? target ≠ some .classBody) : ∀ {inner : List ScopeId} {s : ScopeId}
    {around : List ScopeId}, s :: around = inner ++ target :: outer →
      (∀ c ∈ inner, t.kind? c = some .comprehension) →
      t.expressionTarget n s around =
      ((inner ++ [target]).findSome? (t.objection? n)).elim (.ok target) .error
  | [], s, around, way, _ => by
    obtain ⟨rfl, rfl⟩ := List.cons.inj way
    rw [List.nil_append, List.findSome?_singleton, objection?, if_neg stop]
    cases around with
    | nil =>
      rw [if_neg (last rfl), expressionTarget]
      split_ifs <;> rfl
    | cons b rest =>
      rw [expressionTarget, if_neg stop]
      split_ifs <;> rfl
  | c :: inner, s, around, way, inside => by
    obtain ⟨rfl, further⟩ := List.cons.inj way
    obtain ⟨first, inside⟩ := List.forall_mem_cons.mp inside
    obtain ⟨b, rest, rfl⟩ : ∃ b rest, around = b :: rest :=
      List.exists_cons_of_ne_nil fun none => by simp [none] at further
    rw [List.cons_append, List.findSome?_cons, objection?, expressionTarget, if_pos first, if_pos first]
    split_ifs
    iterate 2 rfl
    exact expressionTarget_eq stop last further inside

theorem Outward.expressionTarget (o : t.Outward s target inner outer) (h : t.WellFormed) (n : Ident) :
    t.expressionTarget n s (t.enclosing s) =
      ((inner ++ [target]).findSome? (t.objection? n)).elim (.ok target) .error := by
  refine expressionTarget_eq o.stop (fun outermost body => ?_) o.way o.inside
  -- a scope with nothing around it is the global one, which is no class
  by_cases root : target = ScopeId.root
  · rw [root, h.kind_root] at body
    cases body
  · obtain ⟨p, -, around⟩ := h.below target (mem_of_kind? body) root
    rw [o.enclosing_target h, outermost] at around
    cases around

theorem Outward.unopposed_inside_iff (o : t.Outward s target inner outer) :
    inner.findSome? (t.objection? n) = none ↔
      (∀ c ∈ inner, t.inIterable c = false) ∧ ∀ c ∈ inner, t.entryAt? c n ≠ some .bound := by
  rw [List.findSome?_eq_none_iff, ← forall₂_and]
  exact forall₂_congr fun c hc => objection?_inner (o.inside c hc)

/-- No scope on the way has an objection. -/
theorem Outward.unopposed_iff (o : t.Outward s target inner outer) :
    (inner ++ [target]).findSome? (t.objection? n) = none ↔
      (∀ c ∈ inner ++ [target], t.inIterable c = false) ∧
      (∀ c ∈ inner, t.entryAt? c n ≠ some .bound) ∧ t.kind? target ≠ some .classBody := by
  rw [List.findSome?_append, Option.or_eq_none_iff, List.findSome?_singleton, o.unopposed_inside_iff,
    objection?_stop o.stop, List.forall_mem_append, List.forall_mem_singleton]
  tauto

/-- A class has its objection if no other scope on the way has one. -/
theorem Outward.opposed_by_class_iff (o : t.Outward s target inner outer) :
    (inner ++ [target]).findSome? (t.objection? n) = some .assignmentInClassBody ↔
      (∀ c ∈ inner ++ [target], t.inIterable c = false) ∧ (∀ c ∈ inner, t.entryAt? c n ≠ some .bound) ∧
      t.kind? target = some .classBody := by
  have inside : inner.findSome? (t.objection? n) ≠ some .assignmentInClassBody := by
    intro found
    obtain ⟨c, hc, fault⟩ := List.exists_of_findSome?_eq_some found
    have kind := (objection?_eq_classBody.mp fault).2
    rw [o.inside c hc] at kind
    cases kind
  rw [List.findSome?_append, Option.or_eq_some_iff, or_iff_right inside, List.findSome?_singleton,
    o.unopposed_inside_iff, objection?_eq_classBody, List.forall_mem_append, List.forall_mem_singleton]
  tauto

/-! ### The outcome -/

section outcome

variable (o : t.Outward s target inner outer) (h : t.WellFormed)

include o h

theorem Outward.accepted_iff : (∃ u, t.assignExpr s n = .ok u) ↔
    (inner ++ [target]).findSome? (t.objection? n) = none := by
  rw [assignExpr, o.expressionTarget h]
  cases (inner ++ [target]).findSome? (t.objection? n) with
  | some fault => simp
  | none =>
    simp only [Option.elim_none, iff_true]
    split_ifs <;> exact ⟨_, rfl⟩

theorem Outward.refused_iff {e : BindingError} : t.assignExpr s n = .error e ↔
    ∃ fault, (inner ++ [target]).findSome? (t.objection? n) = some fault ∧ e = ⟨fault, n, s⟩ := by
  rw [assignExpr, o.expressionTarget h]
  cases (inner ++ [target]).findSome? (t.objection? n) with
  | some fault => simp [eq_comm]
  | none =>
    simp only [Option.elim_none, reduceCtorEq, false_and, exists_false, iff_false]
    split_ifs <;> simp

end outcome

/-! ### The footprint -/

/-- Binding a name leaves every scope but the one at hand and the global one as it is. -/
theorem scope?_store (ne : c ≠ a) (inner : c ≠ ScopeId.root) (n : Ident) :
    (t.store a n).scope? c = t.scope? c := by
  have other {b : ScopeId} (ne : c ≠ b) : (t.setEntry b n .bound).scope? c = t.scope? c := by
    rw [setEntry, scope?_modifyScope, if_neg ne.symm]
  rw [store]
  split
  iterate 2 exact other ne
  · exact other inner
  iterate 2 rfl

/-- An accepted expression binds its name at the end of the way, and gives it at most one entry more. -/
theorem store_of_assignExpr (h : t.WellFormed) (hs : s ∈ t) (acted : t.assignExpr s n = .ok u)
    (o : t.Outward s target inner outer) :
    u = t.store target n ∨ target ≠ s ∧ ∃ e, u = (t.store target n).setEntry s n e := by
  obtain ⟨b, found, cases⟩ := assignExpr_eq_ok acted
  obtain ⟨_, _, own⟩ := h.outward_of_expressionTarget hs found
  obtain rfl := o.unique own
  rcases cases with ⟨rfl, rfl⟩ | ⟨away, -, -, rfl⟩ | ⟨away, -, rfl⟩
  · exact .inl rfl
  · by_cases free : (t.store b n).Undecided s n
    · exact .inr ⟨away, .captured b, noteToplevel_of_undecided free⟩
    · exact .inl (noteToplevel_of_decided free)
  · rw [load]
    split
    · exact .inr ⟨away, .used, rfl⟩
    · exact .inl rfl

/-- The other comprehensions on the way are left as they are. -/
theorem scope?_assignExpr (h : t.WellFormed) (hs : s ∈ t) (acted : t.assignExpr s n = .ok u)
    (o : t.Outward s target inner outer) (hc : c ∈ inner) (ne : c ≠ s) : u.scope? c = t.scope? c := by
  have stored : (t.store target n).scope? c = t.scope? c := by
    refine scope?_store ?_ (o.ne_root h hc) n
    rintro rfl
    exact o.stop (o.inside c hc)
  rcases store_of_assignExpr h hs acted o with rfl | ⟨-, e, rfl⟩
  · exact stored
  · rw [setEntry, scope?_modifyScope, if_neg ne.symm, stored]

/-- Both ends of the way agree on the home of the name, which is where the name lives once it is
    bound at the end of the way. -/
theorem home_of_assignExpr (h : t.Reachable) (hs : s ∈ t) (acted : t.assignExpr s n = .ok u)
    (o : t.Outward s target inner outer) (free : ∀ c ∈ inner, t.Undecided c n) :
    u.home s n = u.home target n ∧ u.home target n = (t.store target n).home target n := by
  have wf := h.wellFormed
  have reached : u.Reachable := h.act (s := s) (a := .assignExpr n) acted
  have grows : Grows t u := (changes_assignExpr wf hs acted).grows
  have ht := o.target_mem wf hs
  constructor
  · cases inner with
    | nil =>
      obtain ⟨rfl, -⟩ := List.cons.inj o.way
      rfl
    | cons b inner =>
      obtain ⟨rfl, -⟩ := List.cons.inj o.way
      have away : s ∈ s :: inner := List.mem_cons_self
      have below := o.ne_root wf away
      have later := (grows.outward_iff wf hs).mpr o
      have clear : t.Clear n target (s :: inner) := fun c hc => .inl (free c hc)
      have cleared :=
        clear.act (r := .assignExpr n) wf hs acted (.refl u) later reached.wellFormed fun _ => nofun
      have answered := answered_assignExpr wf hs below acted o away clear
      have body : u.kind? target ≠ some .classBody := by
        rw [grows.kind? target ht]
        exact (o.unopposed_iff.mp ((o.accepted_iff wf).mp ⟨u, acted⟩)).2.2
      exact home_eq_of_answered reached.wellFormed reached.targetsSound
        (grows.mem s hs) later body cleared answered
  · refine home_congr_of_decided (decided_store wf.root_mem ht n) ?_
    rcases store_of_assignExpr wf hs acted o with rfl | ⟨away, e, rfl⟩
    · rfl
    · have hs' : s ∈ t.store target n := (mem_congr (sameScopes_store t target n).size s).mpr hs
      rw [entryAt?_setEntry _ hs', if_neg fun here => away here.1.symm]

/-! ### Main result -/

/-- An assignment expression is accepted exactly if nothing on the way out of the comprehensions objects,
    the first objection gives the error, and if accepted it binds the name at the end of the way. -/
theorem assignExpr_exact (h : t.Reachable) (hs : s ∈ t) (n : Ident) :
    ∃ inner target outer, t.Outward s target inner outer ∧
      ((∃ u, t.assignExpr s n = .ok u) ↔ (∀ c ∈ inner ++ [target], t.inIterable c = false) ∧
        (∀ c ∈ inner, t.entryAt? c n ≠ some .bound) ∧ t.kind? target ≠ some .classBody) ∧
      (∀ e, t.assignExpr s n = .error e ↔
        ∃ before c after fault, inner ++ [target] = before ++ c :: after ∧
        (∀ b ∈ before, t.objection? n b = none) ∧ t.objection? n c = some fault ∧ e = ⟨fault, n, s⟩) ∧
      (t.assignExpr s n = .error ⟨.assignmentInClassBody, n, s⟩ ↔
        (∀ c ∈ inner ++ [target], t.inIterable c = false) ∧ (∀ c ∈ inner, t.entryAt? c n ≠ some .bound) ∧
        t.kind? target = some .classBody) ∧
      ∀ u, t.assignExpr s n = .ok u →
        (u = t.store target n ∨ ∃ e, u = (t.store target n).setEntry s n e) ∧
        (∀ c ∈ inner, c ≠ s → u.scope? c = t.scope? c) ∧
        ((∀ c ∈ inner, t.Undecided c n) →
          u.home s n = u.home target n ∧ u.home target n = (t.store target n).home target n) := by
  have wf := h.wellFormed
  obtain ⟨inner, target, outer, o⟩ := wf.exists_outward hs
  refine ⟨inner, target, outer, o, ?_, fun e => ?_, ?_, fun u acted => ⟨?_, ?_, ?_⟩⟩
  · exact (o.accepted_iff wf).trans o.unopposed_iff
  · rw [o.refused_iff wf]
    constructor
    · rintro ⟨fault, found, rfl⟩
      obtain ⟨before, c, after, way, first, clean⟩ := List.findSome?_eq_some_iff.mp found
      exact ⟨before, c, after, fault, way, clean, first, rfl⟩
    · rintro ⟨before, c, after, fault, way, clean, first, rfl⟩
      exact ⟨fault, List.findSome?_eq_some_iff.mpr ⟨before, c, after, way, first, clean⟩, rfl⟩
  · rw [← o.opposed_by_class_iff, o.refused_iff wf]
    simp
  · exact (store_of_assignExpr wf hs acted o).imp_right And.right
  · exact fun c hc ne => scope?_assignExpr wf hs acted o hc ne
  · exact home_of_assignExpr h hs acted o

/-- A function with a comprehension that has an iteration variable, and in it two comprehensions of
    which one is in an iterable. -/
def comprehensionsInFunction : ScopeTree Unit :=
  (ScopeTree.new ()).recordAll
    [(0, .nest .function none ()), (1, .nest .comprehension none ()), (2, .store ⟨1⟩),
     (2, .nest .comprehension none ()), (3, .setInIterable true), (2, .nest .comprehension none ())]

theorem assignExpr_exact_comprehensionsInFunction :
    comprehensionsInFunction.Reachable ∧ 3 ∈ comprehensionsInFunction ∧ 4 ∈ comprehensionsInFunction ∧
      comprehensionsInFunction.assignExpr 3 ⟨1⟩ = .error ⟨.assignmentInIterable, ⟨1⟩, 3⟩ ∧
      comprehensionsInFunction.assignExpr 4 ⟨1⟩ = .error ⟨.assignmentToIterationVariable, ⟨1⟩, 4⟩ ∧
      ∃ u, comprehensionsInFunction.assignExpr 4 ⟨2⟩ = .ok u ∧ u.home 4 ⟨2⟩ = 1 := by
  have reached : comprehensionsInFunction.Reachable := .recordAll _ (.new ())
  have first : 3 ∈ comprehensionsInFunction := by decide
  have second : 4 ∈ comprehensionsInFunction := by decide
  have around : comprehensionsInFunction.Outward 4 1 [4, 2] [0] := ⟨by decide, by decide, by decide⟩
  have flagged : comprehensionsInFunction.Outward 3 1 [3, 2] [0] := ⟨by decide, by decide, by decide⟩
  obtain ⟨inner, target, outer, o, -, refused, -⟩ := assignExpr_exact reached first ⟨1⟩
  obtain rfl := flagged.unique o
  obtain rfl := o.inner_eq.trans flagged.inner_eq.symm
  obtain ⟨inner, target, outer, o, -, rebinds, -⟩ := assignExpr_exact reached second ⟨1⟩
  obtain rfl := around.unique o
  obtain rfl := o.inner_eq.trans around.inner_eq.symm
  obtain ⟨inner, target, outer, o, accepted, -, -, left⟩ := assignExpr_exact reached second ⟨2⟩
  obtain rfl := around.unique o
  obtain rfl := o.inner_eq.trans around.inner_eq.symm
  obtain ⟨u, acted⟩ := accepted.mpr ⟨by decide, by decide, by decide⟩
  obtain ⟨-, -, homes⟩ := left u acted
  obtain ⟨same, bound⟩ := homes (by decide)
  refine ⟨reached, first, second, (refused _).mpr ⟨[], 3, [2, 1], _, rfl, by decide, by decide, rfl⟩,
    (rebinds _).mpr ⟨[4], 2, [1], _, rfl, by decide, by decide, rfl⟩, u, acted,
    same.trans (bound.trans ?_)⟩
  decide

end ScopeTree

end Scoping
