import Scoping.Proofs.Reachable

/-! Payloads. A payload is carried along and never looked into, so reports and the end of the
    analysis do the same to a tree whatever its payloads are. A tree whose payloads have been
    replaced has therefore come into being like any other, with these payloads from the start. -/

namespace Scoping

/-- A report that carries another payload for the scope that it opens. -/
def Action.withPayload {π ρ : Type} (p : π → ρ) : Action π → Action ρ
  | .load n => .load n
  | .store n => .store n
  | .assignExpr n => .assignExpr n
  | .declareNonlocal n => .declareNonlocal n
  | .declareGlobal n => .declareGlobal n
  | .nest kind name payload => .nest kind name (p payload)
  | .setInIterable on => .setInIterable on

namespace ScopeTree

variable {π ρ : Type} {t u : ScopeTree π} {s : ScopeId} {n : Ident}

/-- A tree with other payloads. -/
def withPayloads (p : ScopeId → π → ρ) (t : ScopeTree π) : ScopeTree ρ where
  scopes := t.scopes.mapIdx fun s sc => { sc with payload := p s sc.payload }
  built := t.built

/-! ### What payloads leave alone -/

section withPayloads

variable (p : ScopeId → π → ρ) (t : ScopeTree π) (s : ScopeId)

theorem scope?_withPayloads :
    (t.withPayloads p).scope? s = (t.scope? s).map fun sc => { sc with payload := p s sc.payload } := by
  simp [withPayloads, scope?]

@[simp] theorem size_withPayloads : (t.withPayloads p).size = t.size := by
  simp [withPayloads, size]

@[simp] theorem mem_withPayloads : s ∈ t.withPayloads p ↔ s ∈ t := by
  change s < (t.withPayloads p).size ↔ s < t.size
  rw [size_withPayloads]

@[simp] theorem kind?_withPayloads : (t.withPayloads p).kind? s = t.kind? s := by
  rw [kind?, scope?_withPayloads, kind?, Option.map_map]
  rfl

@[simp] theorem enclosing_withPayloads : (t.withPayloads p).enclosing s = t.enclosing s := by
  rw [enclosing, scope?_withPayloads, enclosing]
  cases t.scope? s <;> rfl

@[simp] theorem nested_withPayloads : (t.withPayloads p).nested s = t.nested s := by
  rw [nested, scope?_withPayloads, nested]
  cases t.scope? s <;> rfl

@[simp] theorem inIterable_withPayloads : (t.withPayloads p).inIterable s = t.inIterable s := by
  rw [inIterable, scope?_withPayloads, inIterable]
  cases t.scope? s <;> rfl

@[simp] theorem entryAt?_withPayloads (n : Ident) :
    (t.withPayloads p).entryAt? s n = t.entryAt? s n := by
  rw [entryAt?, scope?_withPayloads, entryAt?]
  cases t.scope? s <;> rfl

@[simp] theorem entries_withPayloads : (t.withPayloads p).entries s = t.entries s := by
  rw [entries, scope?_withPayloads, entries]
  cases t.scope? s <;> rfl

@[simp] theorem pending_withPayloads : (t.withPayloads p).pending s = t.pending s := by
  rw [pending, entries_withPayloads, pending]

/-- The search for a name does not look at payloads. -/
theorem captureAmong?_withPayloads (n : Ident) : ∀ around : List ScopeId,
    (t.withPayloads p).captureAmong? n around = t.captureAmong? n around
  | [] => rfl
  | a :: rest => by
    rw [captureAmong?, captureAmong?, entryAt?_withPayloads, captureAmong?_withPayloads n rest]

@[simp] theorem capture?_withPayloads (n : Ident) :
    (t.withPayloads p).capture? s n = t.capture? s n := by
  have closed : (t.withPayloads p).isClosed = t.isClosed := by
    funext a
    rw [isClosed, kind?_withPayloads, isClosed]
  rw [capture?, closedAround, closed, enclosing_withPayloads, captureAmong?_withPayloads, capture?,
    closedAround]

@[simp] theorem home_withPayloads (n : Ident) : (t.withPayloads p).home s n = t.home s n := by
  rw [home, entryAt?_withPayloads, capture?_withPayloads, home]

/-- Nor does the search for the target of an assignment expression. -/
theorem expressionTarget_withPayloads (n : Ident) : ∀ (around : List ScopeId) (s : ScopeId),
    (t.withPayloads p).expressionTarget n s around = t.expressionTarget n s around
  | [], s => by rw [expressionTarget, expressionTarget, inIterable_withPayloads]
  | outer :: rest, s => by
    rw [expressionTarget, expressionTarget, inIterable_withPayloads, kind?_withPayloads,
      entryAt?_withPayloads, expressionTarget_withPayloads n rest outer]

/-! ### Changes of a tree with other payloads -/

/-- A change of one scope that leaves its payload alone. -/
theorem modifyScope_withPayloads {f : Scope π → Scope π} {g : Scope ρ → Scope ρ}
    (same : ∀ sc, g { sc with payload := p s sc.payload } =
      { f sc with payload := p s (f sc).payload }) :
    (t.withPayloads p).modifyScope s g = (t.modifyScope s f).withPayloads p := by
  refine ext_scope? (fun a => ?_) rfl
  rw [scope?_withPayloads, scope?_modifyScope, scope?_modifyScope, scope?_withPayloads]
  split_ifs with here
  · subst here
    cases t.scope? s with
    | none => rfl
    | some sc => exact congrArg some (same sc)
  · rfl

@[simp] theorem setEntry_withPayloads (n : Ident) (e : Entry) :
    (t.withPayloads p).setEntry s n e = (t.setEntry s n e).withPayloads p :=
  modifyScope_withPayloads p t s fun _ => rfl

@[simp] theorem setInIterable_withPayloads (on : Bool) :
    (t.withPayloads p).setInIterable s on = (t.setInIterable s on).withPayloads p :=
  modifyScope_withPayloads p t s fun _ => rfl

theorem push_withPayloads (kind : ScopeKind) (name : Option Ident) (payload : π) :
    (t.withPayloads p).push s kind name (p t.size payload) =
      (t.push s kind name payload).withPayloads p := by
  rw [push, push, ← modifyScope_withPayloads p _ s
    (g := fun sc => { sc with nested := sc.nested ++ [t.size] }) fun _ => rfl]
  simp only [size_withPayloads, path, enclosing_withPayloads, inIterable_withPayloads]
  congr 1
  simp only [withPayloads, Array.mapIdx_push]
  rfl

@[simp] theorem load_withPayloads (n : Ident) :
    (t.withPayloads p).load s n = (t.load s n).withPayloads p := by
  rw [load, entryAt?_withPayloads, load, setEntry_withPayloads]
  split <;> rfl

@[simp] theorem store_withPayloads (n : Ident) :
    (t.withPayloads p).store s n = (t.store s n).withPayloads p := by
  rw [store, entryAt?_withPayloads, store, setEntry_withPayloads, setEntry_withPayloads]
  split <;> rfl

@[simp] theorem noteToplevel_withPayloads (target : ScopeId) (n : Ident) :
    (t.withPayloads p).noteToplevel s target n = (t.noteToplevel s target n).withPayloads p := by
  rw [noteToplevel, entryAt?_withPayloads, noteToplevel, setEntry_withPayloads]
  split <;> rfl

@[simp] theorem bindOwnName_withPayloads (kind : ScopeKind) (name : Option Ident) :
    (t.withPayloads p).bindOwnName s kind name = (t.bindOwnName s kind name).withPayloads p := by
  cases name with
  | none => rfl
  | some n =>
    rw [bindOwnName, bindOwnName, store_withPayloads]
    split <;> rfl

end withPayloads

/-! ### Reports on a tree with other payloads -/

section act

variable (p : ScopeId → π → ρ) (t : ScopeTree π) (s : ScopeId)

theorem assignExpr_withPayloads (n : Ident) :
    (t.withPayloads p).assignExpr s n = (t.assignExpr s n).map (withPayloads p) := by
  rw [assignExpr, enclosing_withPayloads, expressionTarget_withPayloads, assignExpr]
  cases t.expressionTarget n s (t.enclosing s) with
  | error fault => rfl
  | ok target =>
    simp only [store_withPayloads, kind?_withPayloads, home_withPayloads, noteToplevel_withPayloads,
      load_withPayloads]
    split_ifs <;> rfl

theorem declareNonlocal_withPayloads (n : Ident) :
    (t.withPayloads p).declareNonlocal s n = (t.declareNonlocal s n).map (withPayloads p) := by
  rw [declareNonlocal, kind?_withPayloads, entryAt?_withPayloads, capture?_withPayloads, declareNonlocal]
  split
  · cases t.entryAt? s n with
    | none =>
      dsimp only
      cases t.capture? s n with
      | none => rfl
      | some target => exact congrArg Except.ok (setEntry_withPayloads ..)
    | some e => cases e <;> rfl
  · rfl

theorem declareGlobal_withPayloads (n : Ident) :
    (t.withPayloads p).declareGlobal s n = (t.declareGlobal s n).map (withPayloads p) := by
  rw [declareGlobal, entryAt?_withPayloads, store_withPayloads, setEntry_withPayloads,
    store_withPayloads, declareGlobal]
  split
  · rfl
  · cases t.entryAt? s n with
    | none => rfl
    | some e => cases e <;> rfl

theorem nest_withPayloads (kind : ScopeKind) (name : Option Ident) (payload : π) :
    (t.withPayloads p).nest s kind name (p t.size payload) =
      (t.nest s kind name payload).map (withPayloads p) := by
  have size := (sameScopes_bindOwnName t s kind name).size
  simp only [nest, mem_withPayloads, size_withPayloads, bindOwnName_withPayloads]
  split_ifs
  · rfl
  · rw [← size, push_withPayloads]
    rfl
  · rfl

/-- A report does the same to a tree with other payloads, if the scope that it opens has
    another as well. -/
theorem act_withPayloads (r : Action π) :
    (t.withPayloads p).act s (r.withPayload (p t.size)) = (t.act s r).map (withPayloads p) := by
  cases r with
  | load n => exact congrArg Except.ok (load_withPayloads ..)
  | store n => exact congrArg Except.ok (store_withPayloads ..)
  | assignExpr n => exact assignExpr_withPayloads ..
  | declareNonlocal n => exact declareNonlocal_withPayloads ..
  | declareGlobal n => exact declareGlobal_withPayloads ..
  | nest kind name payload => exact nest_withPayloads ..
  | setInIterable on => exact congrArg Except.ok (setInIterable_withPayloads ..)

end act

/-! ### The end of the analysis -/

section finish

variable (p : ScopeId → π → ρ)

theorem settleName_withPayloads (s : ScopeId) (t : ScopeTree π) (n : Ident) :
    settleName s (t.withPayloads p) n = (settleName s t n).withPayloads p := by
  rw [settleName, capture?_withPayloads, settleName, load_withPayloads]
  cases t.capture? s n with
  | none => exact setEntry_withPayloads ..
  | some target => exact setEntry_withPayloads ..

theorem settleScope_withPayloads (t : ScopeTree π) (s : ScopeId) :
    (t.withPayloads p).settleScope s = (t.settleScope s).withPayloads p := by
  rw [settleScope, pending_withPayloads, settleScope]
  exact List.foldl_hom (withPayloads p) fun t n => settleName_withPayloads p s t n

theorem settleWithin_withPayloads : ∀ (depth : Nat) (t : ScopeTree π) (s : ScopeId),
    (t.withPayloads p).settleWithin depth s = (t.settleWithin depth s).withPayloads p
  | 0, _, _ => rfl
  | depth + 1, t, s => by
    have within : (t.nested s).foldl (settleWithin depth) (t.withPayloads p) =
        ((t.nested s).foldl (settleWithin depth) t).withPayloads p :=
      List.foldl_hom (withPayloads p) fun t c => settleWithin_withPayloads depth t c
    rw [settleWithin, nested_withPayloads, within, settleScope_withPayloads, settleWithin]

theorem finish_withPayloads (t : ScopeTree π) : (t.withPayloads p).finish = t.finish.withPayloads p := by
  rw [finish, settle, size_withPayloads, settleWithin_withPayloads, finish, settle]
  rfl

end finish

/-! ### Replacing payloads -/

/-- A reachable tree is reachable with other payloads too. -/
theorem Reachable.withPayloads (h : t.Reachable) (p : ScopeId → π → ρ) :
    (t.withPayloads p).Reachable := by
  obtain ⟨payload, steps⟩ := h
  induction steps with
  | refl => exact .new (p ScopeId.root payload)
  | @tail v w _ last ih =>
    refine ih.step ?_
    cases last with
    | @perform _ s r accepted =>
      obtain ⟨mem, acted⟩ := perform_eq_ok.mp accepted
      have acted' : (v.withPayloads p).act s (r.withPayload (p v.size)) = .ok (w.withPayloads p) := by
        rw [act_withPayloads, acted]
        rfl
      exact .perform (perform_eq_ok.mpr ⟨(mem_withPayloads p v s).mpr mem, acted'⟩)
    | finish =>
      rw [← finish_withPayloads]
      exact .finish _

theorem setPayload_eq (t : ScopeTree π) (s : ScopeId) (payload : π) :
    t.setPayload s payload = t.withPayloads fun a old => if s = a then payload else old := by
  refine ext_scope? (fun a => ?_) rfl
  rw [setPayload, scope?_modifyScope, scope?_withPayloads]
  split_ifs with here
  · rfl
  · cases t.scope? a <;> rfl

/-- Replacing a payload leads to a tree that could have come into being with it. -/
theorem Reachable.setPayload (h : t.Reachable) (s : ScopeId) (payload : π) :
    (t.setPayload s payload).Reachable := by
  rw [setPayload_eq]
  exact h.withPayloads _

end ScopeTree

end Scoping
