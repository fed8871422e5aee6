import Scoping.Proofs.Beside
import Scoping.Proofs.Expression

/-! Siblings in either order. What is reported below one child of a scope gives entries to the
    scopes there, and further out it binds names: an assignment expression binds where the
    comprehensions around it stand, and a name that is taken from the global scope is bound there.
    Reports below another child do not notice either, but for one case: a nonlocal declaration looks
    for its target at once, so it matters to it whether an assignment expression beside it has bound
    the name yet. Everything else below two siblings may be reported in either order. -/

namespace Scoping

namespace ScopeTree

variable {π : Type} {t u v : ScopeTree π} {s a b r : ScopeId} {n : Ident}

/-! ### Siblings -/

/-- Two scopes that stand directly below one. -/
structure Siblings (t : ScopeTree π) (a b : ScopeId) : Prop where
  ne : a ≠ b
  parent : ∃ p, t.parent? a = some p ∧ t.parent? b = some p

namespace Siblings

theorem symm (k : Siblings t a b) : Siblings t b a := by
  obtain ⟨p, ha, hb⟩ := k.parent
  exact ⟨k.ne.symm, p, hb, ha⟩

theorem mem (k : Siblings t a b) (h : t.WellFormed) : a ∈ t := by
  obtain ⟨p, ha, -⟩ := k.parent
  exact (h.enclosing_of_parent? ha).1

theorem root_around (k : Siblings t a b) (h : t.WellFormed) : ScopeId.root ∈ t.enclosing a := by
  obtain ⟨p, ha, -⟩ := k.parent
  obtain ⟨mem, lt, around⟩ := h.enclosing_of_parent? ha
  rw [around]
  exact h.root_mem_path (Nat.lt_trans lt mem)

theorem enclosing (k : Siblings t a b) (h : t.WellFormed) : t.enclosing a = t.enclosing b := by
  obtain ⟨p, ha, hb⟩ := k.parent
  rw [(h.enclosing_of_parent? ha).2.2, (h.enclosing_of_parent? hb).2.2]

/-- No way to the root passes through both. -/
theorem not_mem_path (k : Siblings t a b) (h : t.WellFormed) (ha : a ∈ t.path r) : b ∉ t.path r := by
  intro hb
  have same := k.enclosing h
  rcases h.path_total ha hb with inside | around
  · rcases List.mem_cons.mp inside with here | around
    · exact k.ne here
    · exact Nat.lt_irrefl a (h.lt_of_mem_enclosing (same ▸ around))
  · exact Nat.lt_irrefl b (h.lt_of_mem_enclosing (same ▸ around))

/-- No scope below the one is on the way from a scope below the other. -/
theorem off_path (k : Siblings t a b) (h : t.WellFormed) (ha : a ∈ t.path s) (hb : b ∈ t.path r) :
    s ∉ t.path r := by
  intro hs
  refine k.not_mem_path h (r := r) ?_ hb
  rcases List.mem_cons.mp hs with rfl | hs
  · exact ha
  · rcases List.mem_cons.mp ha with rfl | ha
    · exact List.mem_cons_of_mem r hs
    · exact List.mem_cons_of_mem r (h.enclosing_subset hs ha)

end Siblings

/-! ### Moves -/

/-- What an accepted report does to a tree, told without regard to what the tree is otherwise. -/
inductive Move
  | entry (s : ScopeId) (n : Ident) (e : Entry)
  | bind (s : ScopeId) (n : Ident)

/-- The tree after a move. -/
def move (t : ScopeTree π) : Move → ScopeTree π
  | .entry s n e => t.setEntry s n e
  | .bind s n => t.store s n

/-- The tree after a list of moves. -/
def moves (t : ScopeTree π) (ms : List Move) : ScopeTree π := ms.foldl move t

/-- The moves that come of reports below a scope: entries there, and bindings further out. -/
def Move.Below (t : ScopeTree π) (a : ScopeId) : Move → Prop
  | .entry s _ _ => s ∈ t ∧ a ∈ t.path s
  | .bind s _ => s ∈ t.enclosing a ∧ t.kind? s ≠ some .comprehension

theorem sameScopes_move (t : ScopeTree π) : ∀ m, SameScopes t (t.move m)
  | .entry s n e => sameScopes_setEntry t s n e
  | .bind s n => sameScopes_store t s n

theorem sameScopes_moves : ∀ (ms : List Move) (t : ScopeTree π), SameScopes t (t.moves ms)
  | [], t => .refl t
  | m :: ms, t => (sameScopes_move t m).trans (sameScopes_moves ms _)

theorem moves_append (t : ScopeTree π) (ms ms' : List Move) :
    t.moves (ms ++ ms') = (t.moves ms).moves ms' :=
  List.foldl_append

theorem Move.Below.congr (same : SameScopes t u) {m : Move} : m.Below u a ↔ m.Below t a := by
  cases m with
  | entry s n e => rw [Move.Below, Move.Below, mem_congr same.size, same.path]
  | bind s n => rw [Move.Below, Move.Below, same.enclosing, same.kind?]

/-- A closed scope that a nonlocal declaration looks at and that does not decide the name, so that
    the declaration would end there if it did. -/
structure Seeks (t : ScopeTree π) (r : ScopeId) (n : Ident) (c : ScopeId) : Prop where
  fresh : t.entryAt? r n = none
  undecided : t.Undecided c n
  search : ∃ nearer farther, t.closedAround r = nearer ++ c :: farther ∧ ∀ d ∈ nearer, t.Undecided d n

section siblings

variable (k : Siblings t a b) (h : t.WellFormed) (hb : b ∈ t.path r)

include k h hb

/-- Reports below a scope do not notice the moves of reports below its sibling. -/
theorem Siblings.unnoticed (hr : r ∈ t) {m : Move} (below : m.Below t a) :
    Unnoticed t r fun v => v.move m := by
  cases m with
  | entry s n e =>
    exact unnoticed_setEntry h hr below.1 (k.off_path h below.2 hb) n e
  | bind s n =>
    exact unnoticed_store h hr (h.enclosing_subset_of_path hb (k.enclosing h ▸ below.1)) below.2 n

/-- Nor does a list of them. -/
theorem Siblings.unnoticed_moves (hr : r ∈ t) : ∀ {ms : List Move}, (∀ m ∈ ms, m.Below t a) →
    Unnoticed t r fun v => v.moves ms
  | [], _ => .id t r
  | m :: ms, below => by
    obtain ⟨first, others⟩ := List.forall_mem_cons.mp below
    exact (unnoticed_moves hr others).comp (k.unnoticed h hb hr first)

/-- The moves change what a closed scope further out says of a name only by binding the name in it. -/
theorem Siblings.entryAt?_moves {c : ScopeId} (hc : c ∈ t.closedAround r) :
    ∀ {ms : List Move} {v : ScopeTree π},
    SameScopes t v → (∀ m ∈ ms, m.Below t a) → .bind c n ∉ ms →
    (v.moves ms).entryAt? c n = v.entryAt? c n
  | [], _, _, _, _ => rfl
  | m :: ms, v, same, below, clear => by
    obtain ⟨first, others⟩ := List.forall_mem_cons.mp below
    obtain ⟨around, closed⟩ := List.mem_filter.mp hc
    have rest :=
      entryAt?_moves hc (same.trans (sameScopes_move v m)) others (mt (List.mem_cons_of_mem m) clear)
    refine rest.trans ?_
    cases m with
    | entry s m e =>
      have ne : s ≠ c := fun here => k.off_path h first.2 hb (here ▸ List.mem_cons_of_mem r around)
      rw [move, entryAt?_setEntry v ((mem_congr same.size s).mpr first.1), if_neg fun here => ne here.1]
    | bind s m =>
      have hs : s ∈ v := (mem_congr same.size s).mpr (h.mem_of_mem_enclosing first.1)
      refine entryAt?_store_other hs (h.of_sameScopes same).root_mem ?_
      by_cases here : m = n
      · subst here
        refine .inr ⟨fun at_target => clear (at_target ▸ List.mem_cons_self), fun at_root => ?_⟩
        rw [at_root, h.not_isClosed_root] at closed
        cases closed
      · exact .inl here

/-- So a search does not notice them, unless the name is bound in a closed scope that the search
    comes to before it is decided. -/
theorem Siblings.capture?_moves (hr : r ∈ t) {ms : List Move} (below : ∀ m ∈ ms, m.Below t a)
    (same : SameScopes t v) (fresh : v.entryAt? r n = none)
    (clear : ∀ c, v.Seeks r n c → .bind c n ∉ ms) : (v.moves ms).capture? r n = v.capture? r n := by
  have unnoticed := k.unnoticed_moves h hb hr below
  rw [ScopeTree.capture?, ScopeTree.capture?, (sameScopes_moves ms v).closedAround]
  refine captureAmong?_congr_of_undecided fun nearer c farther way free => ?_
  have hc : c ∈ t.closedAround r := by
    rw [← same.closedAround, way]
    exact List.mem_append_right nearer List.mem_cons_self
  by_cases open_here : v.Undecided c n
  · exact k.entryAt?_moves h hb hc same below (clear c ⟨fresh, open_here, nearer, farther, way, free⟩)
  · obtain ⟨around, closed⟩ := List.mem_filter.mp hc
    refine unnoticed.decided v same c (List.mem_cons_of_mem r around) (fun at_root => ?_) n open_here
    rw [at_root, h.not_isClosed_root] at closed
    cases closed

end siblings

/-! ### Reports as moves -/

/-- A tree that comes of another by moves below a scope. A closed scope further out binds no more than
    the names that are told of. -/
def MadeBelow (t : ScopeTree π) (a : ScopeId) (P : ScopeId → Ident → Prop) (u : ScopeTree π) : Prop :=
  ∃ ms, u = t.moves ms ∧ (∀ m ∈ ms, m.Below t a) ∧ ∀ s n, .bind s n ∈ ms → t.isClosed s → P s n

namespace MadeBelow

variable {P Q : ScopeId → Ident → Prop}

theorem refl (t : ScopeTree π) : MadeBelow t a P t :=
  ⟨[], rfl, fun _ hm => absurd hm List.not_mem_nil, fun _ _ hm => absurd hm List.not_mem_nil⟩

theorem sameScopes (k : MadeBelow t a P u) : SameScopes t u := by
  obtain ⟨ms, rfl, -⟩ := k
  exact sameScopes_moves ms t

theorem trans (k : MadeBelow t a P u) (l : MadeBelow u a Q v) (further : ∀ s n, Q s n → P s n) :
    MadeBelow t a P v := by
  have same := k.sameScopes
  obtain ⟨ms, rfl, below, known⟩ := k
  obtain ⟨ms', rfl, below', known'⟩ := l
  refine ⟨ms ++ ms', (moves_append ..).symm, fun m hm => ?_, fun s n hm closed => ?_⟩
  · rcases List.mem_append.mp hm with hm | hm
    · exact below m hm
    · exact (Move.Below.congr same).mp (below' m hm)
  · rcases List.mem_append.mp hm with hm | hm
    · exact known s n hm closed
    · exact further s n (known' s n hm ((same.isClosed s).trans closed))

theorem mono (k : MadeBelow t a P u) (further : ∀ s n, P s n → Q s n) : MadeBelow t a Q u := by
  obtain ⟨ms, rfl, below, known⟩ := k
  exact ⟨ms, rfl, below, fun s n hm closed => further s n (known s n hm closed)⟩

theorem setEntry (hs : s ∈ t) (ha : a ∈ t.path s) (n : Ident) (e : Entry) :
    MadeBelow t a P (t.setEntry s n e) := by
  refine ⟨[.entry s n e], rfl, fun m hm => ?_, fun c k hm => ?_⟩
  · rw [List.mem_singleton.mp hm]
    exact ⟨hs, ha⟩
  · cases List.mem_singleton.mp hm

theorem load (hs : s ∈ t) (ha : a ∈ t.path s) (n : Ident) : MadeBelow t a P (t.load s n) := by
  rw [ScopeTree.load]
  split
  · exact setEntry hs ha n _
  · exact refl t

theorem noteToplevel (hs : s ∈ t) (ha : a ∈ t.path s) (target : ScopeId) (n : Ident) :
    MadeBelow t a P (t.noteToplevel s target n) := by
  rw [ScopeTree.noteToplevel]
  split
  iterate 2 exact setEntry hs ha n _
  exact refl t

theorem bind (around : s ∈ t.enclosing a) (outside : t.kind? s ≠ some .comprehension)
    (known : t.isClosed s → P s n) : MadeBelow t a P (t.store s n) := by
  refine ⟨[.bind s n], rfl, fun m hm => ?_, fun c k hm => ?_⟩
  · rw [List.mem_singleton.mp hm]
    exact ⟨around, outside⟩
  · cases List.mem_singleton.mp hm
    exact known

end MadeBelow

/-- Binding a name in a scope that has decided it does nothing, or binds the name in the global scope. -/
theorem TargetsSound.store_cases (k : t.TargetsSound) (h : t.WellFormed) (s : ScopeId) (n : Ident) :
    t.Undecided s n ∨ t.store s n = t ∨ t.store s n = t.store ScopeId.root n := by
  cases entry : t.entryAt? s n with
  | none => exact .inl (.inl entry)
  | some e =>
    cases e with
    | used => exact .inl (.inr entry)
    | bound => exact .inr (.inl (store_of_bound entry))
    | captured target => exact .inr (.inl (by simp only [store, entry]))
    | global declared =>
      refine .inr (.inr ((store_of_global entry).trans ?_))
      cases root : t.entryAt? ScopeId.root n with
      | none => exact (store_of_undecided (.inl root)).symm
      | some e =>
        cases e with
        | used => exact (store_of_undecided (.inr root)).symm
        | bound => rw [store_of_bound root, setEntry_self h.root_mem root]
        | captured target =>
          have around := (k ScopeId.root n target root).around
          rw [h.enclosing_root] at around
          cases around
        | global d => exact (store_of_global root).symm

/-- What the assignment expressions of a list of reports are there to bind. -/
def ExpressionsBind (t : ScopeTree π) (reports : List (ScopeId × Action π)) (target : ScopeId)
    (n : Ident) : Prop :=
  ∃ s, (s, .assignExpr n) ∈ reports ∧ ∃ inner outer, t.Outward s target inner outer

theorem ExpressionsBind.mono {reports others : List (ScopeId × Action π)} (sub : reports ⊆ others)
    (k : t.ExpressionsBind reports s n) : t.ExpressionsBind others s n := by
  obtain ⟨c, hc, out⟩ := k
  exact ⟨c, sub hc, out⟩

section report

variable {P : ScopeId → Ident → Prop} (k : t.TargetsSound) (h : t.WellFormed)
  (ha : ScopeId.root ∈ t.enclosing a)

include h ha in
theorem madeBelow_root (n : Ident) : MadeBelow t a P (t.store ScopeId.root n) := by
  refine .bind ha (by rw [h.kind_root]; rintro ⟨⟩) fun closed => ?_
  rw [h.not_isClosed_root] at closed
  cases closed

include k h ha

theorem madeBelow_store (hs : s ∈ t) (inside : a ∈ t.path s) (n : Ident) :
    MadeBelow t a P (t.store s n) := by
  rcases k.store_cases h s n with free | same | root
  · rw [store_of_undecided free]
    exact .setEntry hs inside n _
  · rw [same]
    exact .refl t
  · rw [root]
    exact madeBelow_root h ha n

theorem madeBelow_act (hs : s ∈ t) (inside : a ∈ t.path s) {x : Action π} (about : x.subject? = some n)
    (acted : t.act s x = .ok u) : MadeBelow t a (t.ExpressionsBind [(s, x)]) u := by
  cases x with
  | load m =>
    cases acted
    exact .load hs inside m
  | store m =>
    cases acted
    exact madeBelow_store k h ha hs inside m
  | assignExpr m =>
    obtain ⟨target, found, cases⟩ := assignExpr_eq_ok acted
    obtain ⟨inner, outer, out⟩ := h.outward_of_expressionTarget hs found
    have on_way : target ∈ t.path s := out.way ▸ List.mem_append_right inner List.mem_cons_self
    have same := sameScopes_store t target m
    have hs' : s ∈ t.store target m := (mem_congr same.size s).mpr hs
    have bound : MadeBelow t a (t.ExpressionsBind [(s, .assignExpr m)]) (t.store target m) := by
      -- the way out of the comprehensions ends below the scope, or leads on past it
      rcases h.path_total inside on_way with below | around
      · exact madeBelow_store k h ha (h.mem_around hs on_way) below m
      · rcases k.store_cases h target m with free | eq | eq
        · exact .bind around out.stop fun _ => ⟨s, List.mem_cons_self, inner, outer, out⟩
        · rw [eq]
          exact .refl t
        · rw [eq]
          exact madeBelow_root h ha m
    rcases cases with ⟨-, rfl⟩ | ⟨-, -, -, rfl⟩ | ⟨-, -, rfl⟩
    · exact madeBelow_store k h ha hs inside m
    · exact bound.trans (.noteToplevel hs' (same.path s ▸ inside) target m) fun _ _ => id
    · exact bound.trans (.load hs' (same.path s ▸ inside) m) fun _ _ => id
  | declareNonlocal m =>
    rcases declareNonlocal_eq_ok acted with rfl | ⟨target, -, -, rfl⟩
    · exact .refl _
    · exact .setEntry hs inside m _
  | declareGlobal m =>
    rcases declareGlobal_eq_ok hs acted with ⟨-, rfl⟩ | ⟨-, -, rfl⟩
    · exact madeBelow_store k h ha hs inside m
    · have same := sameScopes_store t ScopeId.root m
      have hs' : s ∈ t.store ScopeId.root m := (mem_congr same.size s).mpr hs
      exact (madeBelow_root h ha m).trans (.setEntry hs' (same.path s ▸ inside) m _) fun _ _ => id
  | nest kind name payload => cases about
  | setInIterable on => cases about

end report

/-! ### Lists of reports -/

/-- The tree after a list of reports, or the first refusal. -/
def performAll (t : ScopeTree π) : List (ScopeId × Action π) → Except Refusal (ScopeTree π)
  | [] => .ok t
  | report :: reports =>
    match t.perform report.1 report.2 with
    | .ok u => u.performAll reports
    | .error e => .error e

/-- Reports on names in a scope and in the scopes below it. -/
def ReportsBelow (t : ScopeTree π) (a : ScopeId) (reports : List (ScopeId × Action π)) : Prop :=
  ∀ s x, (s, x) ∈ reports → a ∈ t.path s ∧ ∃ n, x.subject? = some n

theorem performAll_append : ∀ (reports others : List (ScopeId × Action π)) (t : ScopeTree π),
    t.performAll (reports ++ others) = (t.performAll reports).bind fun u => u.performAll others
  | [], _, _ => rfl
  | report :: reports, others, t => by
    rw [List.cons_append, performAll, performAll]
    cases t.perform report.1 report.2 with
    | error e => rfl
    | ok u => exact performAll_append reports others u

theorem ReportsBelow.congr (same : SameScopes t u) {reports : List (ScopeId × Action π)}
    (k : ReportsBelow t a reports) : ReportsBelow u a reports := by
  intro s x hx
  rw [same.path]
  exact k s x hx

/-- Reports below a scope, one after the other. -/
theorem madeBelow_performAll : ∀ {reports : List (ScopeId × Action π)} {t : ScopeTree π}, t.Reachable →
    ScopeId.root ∈ t.enclosing a → ReportsBelow t a reports → t.performAll reports = .ok u →
    MadeBelow t a (t.ExpressionsBind reports) u
  | [], _, _, _, _, done => by
    cases done
    exact .refl _
  | (s, x) :: reports, t, reachable, ha, below, done => by
    have h := reachable.wellFormed
    rw [performAll] at done
    cases performed : t.perform s x with
    | error e =>
      rw [performed] at done
      cases done
    | ok v =>
      rw [performed] at done
      obtain ⟨hs, acted⟩ := perform_eq_ok.mp performed
      obtain ⟨inside, n, about⟩ := below s x List.mem_cons_self
      have grows := Grows.perform h performed
      have first := madeBelow_act reachable.targetsSound h ha hs inside about acted
      have same := first.sameScopes
      have others : ReportsBelow v a reports :=
        ReportsBelow.congr same fun s x hx => below s x (List.mem_cons_of_mem _ hx)
      have rest := madeBelow_performAll (reachable.act acted) (same.enclosing a ▸ ha) others done
      refine MadeBelow.trans (first.mono fun target m => ?_) rest fun target m => ?_
      · exact ExpressionsBind.mono (List.cons_subset_cons (s, x) (List.nil_subset reports))
      · rintro ⟨s', hs', inner, outer, out⟩
        have mem : a ∈ t := (h.enclosing_eq (List.ne_nil_of_mem ha)).1
        have later := List.mem_cons_of_mem (s, x) hs'
        have inside' := h.mem_of_mem_path mem (below s' _ later).1
        exact ⟨s', later, inner, outer, (grows.outward_iff h inside').mp out⟩

/-! ### One list after the other -/

/-- Reports among which no nonlocal declaration, when its turn comes, looks for what others bind. -/
def DeclaresApart (P : ScopeId → Ident → Prop) : ScopeTree π → List (ScopeId × Action π) → Prop
  | _, [] => True
  | t, (r, x) :: reports =>
    (∀ n, x = .declareNonlocal n → ∀ c, t.Seeks r n c → ¬P c n) ∧
      ∀ u, t.perform r x = .ok u → DeclaresApart P u reports

section siblings

variable (k : Siblings t a b) (h : t.WellFormed) (hb : b ∈ t)

include k h hb

/-- Reports below a scope are accepted or refused as they would be without the moves below
    its sibling. -/
theorem performAll_moves {P : ScopeId → Ident → Prop} {ms : List Move} (below : ∀ m ∈ ms, m.Below t a)
    (known : ∀ s n, .bind s n ∈ ms → t.isClosed s → P s n) : ∀ {reports : List (ScopeId × Action π)}
    {v : ScopeTree π}, SameScopes t v → ReportsBelow t b reports → v.DeclaresApart P reports →
    (v.moves ms).performAll reports = (v.performAll reports).map fun u => u.moves ms
  | [], _, _, _, _ => rfl
  | (r, x) :: reports, v, same, inside, ⟨first, others⟩ => by
    obtain ⟨hbr, n, about⟩ := inside r x List.mem_cons_self
    have hr := h.mem_of_mem_path hb hbr
    have hv : r ∈ v := (mem_congr same.size r).mpr hr
    have hv' : r ∈ v.moves ms := (mem_congr (sameScopes_moves ms v).size r).mpr hv
    have acts : (v.moves ms).act r x = (v.act r x).map fun u => u.moves ms := by
      -- only a nonlocal declaration searches, and it comes to no scope in which the name is bound
      refine (k.unnoticed_moves h hbr hr below).act h hr same about fun declares fresh => ?_
      refine k.capture?_moves h hbr hr below same fresh fun c seeks bound => ?_
      obtain ⟨nearer, farther, way, -⟩ := seeks.search
      have hc : c ∈ v.closedAround r := way ▸ List.mem_append_right nearer List.mem_cons_self
      have closed := (List.mem_filter.mp hc).2
      exact first n declares c seeks (known c n bound (same.isClosed c ▸ closed))
    rw [performAll, performAll, perform, perform, if_pos (.inl hv'), if_pos (.inl hv), acts]
    cases acted : v.act r x with
    | error e => rfl
    | ok u =>
      have same' := same.trans (sameScopes_act hv about acted)
      exact performAll_moves below known same' (fun s y hy => inside s y (List.mem_cons_of_mem _ hy))
        (others u (perform_eq_ok.mpr ⟨hv, acted⟩))

/-- A move below a scope may come before or after the moves below its sibling. -/
theorem move_moves {ms : List Move} (below : ∀ m ∈ ms, m.Below t a) {m : Move} (below' : m.Below t b)
    (same : SameScopes t v) : (v.move m).moves ms = (v.moves ms).move m := by
  cases m with
  | entry s n e => exact (k.unnoticed_moves h below'.2 below'.1 below).setEntry v same n e
  | bind s n =>
    exact (k.unnoticed_moves h List.mem_cons_self hb below).store v same s
      (List.mem_cons_of_mem b below'.1) n

/-- Moves below two siblings may come in either order. -/
theorem moves_comm {ms : List Move} (below : ∀ m ∈ ms, m.Below t a) :
    ∀ {ms' : List Move} {v : ScopeTree π},
    SameScopes t v → (∀ m ∈ ms', m.Below t b) → (v.moves ms').moves ms = (v.moves ms).moves ms'
  | [], _, _, _ => rfl
  | m :: ms', v, same, below' => by
    obtain ⟨first, others⟩ := List.forall_mem_cons.mp below'
    change ((v.move m).moves ms').moves ms = ((v.moves ms).move m).moves ms'
    rw [← move_moves k h hb below first same]
    exact moves_comm below (same.trans (sameScopes_move v m)) others

end siblings

/-- Reports below a sibling of a scope come to the same with or without the reports below that scope. -/
theorem performAll_after (h : t.Reachable) (k : Siblings t a b)
    {reports others : List (ScopeId × Action π)}
    (below : ReportsBelow t a reports) (beside : ReportsBelow t b others)
    (apart : t.DeclaresApart (t.ExpressionsBind reports) others) (done : t.performAll reports = .ok u) :
    ∃ ms, u = t.moves ms ∧ (∀ m ∈ ms, m.Below t a) ∧
      u.performAll others = (t.performAll others).map fun v => v.moves ms := by
  have wf := h.wellFormed
  obtain ⟨ms, rfl, made, known⟩ := madeBelow_performAll h (k.root_around wf) below done
  exact ⟨ms, rfl, made, performAll_moves k wf (k.symm.mem wf) made known (.refl t) beside apart⟩

/-- What is reported below two siblings may be reported in either order, if no nonlocal
    declaration below one looks for what an assignment expression below the other binds. -/
theorem siblings_in_either_order (h : t.Reachable) (k : Siblings t a b)
    {opsA opsB : List (ScopeId × Action π)}
    (belowA : ReportsBelow t a opsA) (belowB : ReportsBelow t b opsB)
    (apartA : t.DeclaresApart (t.ExpressionsBind opsB) opsA)
    (apartB : t.DeclaresApart (t.ExpressionsBind opsA) opsB) :
    (∃ u, (t.performAll (opsA ++ opsB)).map finish = .ok u ∧
      (t.performAll (opsB ++ opsA)).map finish = .ok u) ∨
      ∃ e f, (t.performAll (opsA ++ opsB)).map finish = .error e ∧
        (t.performAll (opsB ++ opsA)).map finish = .error f := by
  rw [performAll_append, performAll_append]
  cases doneA : t.performAll opsA with
  | error e =>
    cases doneB : t.performAll opsB with
    | error f => exact .inr ⟨e, f, rfl, rfl⟩
    | ok v =>
      obtain ⟨ms, -, -, after⟩ := performAll_after h k.symm belowB belowA apartA doneB
      rw [doneA] at after
      exact .inr ⟨e, e, rfl, by rw [Except.bind, after]; rfl⟩
  | ok u =>
    obtain ⟨ms, rfl, madeA, afterA⟩ := performAll_after h k belowA belowB apartB doneA
    cases doneB : t.performAll opsB with
    | error f =>
      rw [doneB] at afterA
      exact .inr ⟨f, f, by rw [Except.bind, afterA]; rfl, rfl⟩
    | ok v =>
      obtain ⟨ms', rfl, madeB, afterB⟩ := performAll_after h k.symm belowB belowA apartA doneB
      rw [doneB] at afterA
      rw [doneA] at afterB
      -- both lists are accepted from the start, so all that is left is the order of the moves
      have wf := h.wellFormed
      have comm := moves_comm k wf (k.symm.mem wf) madeA (.refl t) madeB
      refine .inl ⟨((t.moves ms).moves ms').finish, ?_, ?_⟩
      · rw [Except.bind, afterA, ← comm]
        rfl
      · rw [Except.bind, afterB]
        rfl

/-- A function with a comprehension and a function in it, and a function in the inner one. -/
def functionInSibling : ScopeTree Unit :=
  (ScopeTree.new ()).recordAll
    [(0, .nest .function none ()), (1, .nest .comprehension none ()), (1, .nest .function none ()),
     (3, .nest .function none ())]

/-- The inner function binds the name first, so the declaration below it does not come to
    the outer one. -/
theorem siblings_in_either_order_functionInSibling :
    functionInSibling.ExpressionsBind [(2, .assignExpr ⟨1⟩)] 1 ⟨1⟩ ∧ functionInSibling.Undecided 1 ⟨1⟩ ∧
      ∃ u, (functionInSibling.performAll
        ([(2, .assignExpr ⟨1⟩)] ++ [(3, .store ⟨1⟩), (4, .declareNonlocal ⟨1⟩)])).map finish = .ok u ∧
      (functionInSibling.performAll
        ([(3, .store ⟨1⟩), (4, .declareNonlocal ⟨1⟩)] ++ [(2, .assignExpr ⟨1⟩)])).map finish =
          .ok u := by
  have reachable : functionInSibling.Reachable := Reachable.recordAll _ (Reachable.new ())
  have siblings : Siblings functionInSibling 2 3 := ⟨by decide, 1, by decide, by decide⟩
  have belowA : ReportsBelow functionInSibling 2 [(2, .assignExpr ⟨1⟩)] := by
    intro s x hx
    cases List.mem_singleton.mp hx
    exact ⟨by decide, ⟨1⟩, rfl⟩
  have belowB : ReportsBelow functionInSibling 3 [(3, .store ⟨1⟩), (4, .declareNonlocal ⟨1⟩)] := by
    intro s x hx
    rcases List.mem_cons.mp hx with eq | hx
    · cases eq
      exact ⟨by decide, ⟨1⟩, rfl⟩
    · cases List.mem_singleton.mp hx
      exact ⟨by decide, ⟨1⟩, rfl⟩
  have apartA : functionInSibling.DeclaresApart
      (functionInSibling.ExpressionsBind [(3, .store ⟨1⟩), (4, .declareNonlocal ⟨1⟩)])
        [(2, .assignExpr ⟨1⟩)] :=
    ⟨fun n declares => (by cases declares), fun _ _ => trivial⟩
  have apartB :
      functionInSibling.DeclaresApart (functionInSibling.ExpressionsBind [(2, .assignExpr ⟨1⟩)])
        [(3, .store ⟨1⟩), (4, .declareNonlocal ⟨1⟩)] := by
    refine ⟨fun n declares => (by cases declares),
      fun u stored => ⟨fun n declares c seeks => ?_, fun _ _ => trivial⟩⟩
    cases declares
    obtain ⟨-, acted⟩ := perform_eq_ok.mp stored
    cases acted
    obtain ⟨nearer, farther, way, free⟩ := seeks.search
    have around : (functionInSibling.store 3 ⟨1⟩).closedAround 4 = [3, 1] := by decide
    have decided : ¬(functionInSibling.store 3 ⟨1⟩).Undecided 3 ⟨1⟩ := by decide
    rw [around] at way
    cases nearer with
    | nil =>
      obtain ⟨rfl, -⟩ := List.cons.inj way
      exact absurd seeks.undecided decided
    | cons d nearer =>
      obtain ⟨rfl, -⟩ := List.cons.inj way
      exact absurd (free 3 List.mem_cons_self) decided
  refine ⟨⟨2, List.mem_cons_self, [2], [0], ⟨by decide, by decide, by decide⟩⟩, by decide, ?_⟩
  rcases siblings_in_either_order reachable siblings belowA belowB apartA apartB with
    both | ⟨e, f, refused, -⟩
  · exact both
  · have accepted : ((functionInSibling.performAll
        ([(2, .assignExpr ⟨1⟩)] ++ [(3, .store ⟨1⟩),
          (4, .declareNonlocal ⟨1⟩)])).map finish).isOk = true := by decide
    rw [refused] at accepted
    cases accepted

/-- A function with a comprehension and a function in it, in a function that binds a name or does not. -/
def siblingsInFunctions (outer : List (ScopeId × Action Unit)) : ScopeTree Unit :=
  (ScopeTree.new ()).recordAll
    ((0, .nest .function none ()) :: outer ++
      [(1, .nest .function none ()), (2, .nest .comprehension none ()), (2, .nest .function none ())])

/-- A nonlocal declaration is refused if an assignment expression beside it comes later, and
    accepted if it comes first. Where a scope further out binds the name as well, the order decides
    between two targets. -/
theorem declaration_depends_on_sibling :
    (siblingsInFunctions []).Reachable ∧ (siblingsInFunctions []).built = false ∧
      Siblings (siblingsInFunctions []) 3 4 ∧
      (siblingsInFunctions []).entries 3 = [] ∧ (siblingsInFunctions []).entries 4 = [] ∧
    ((siblingsInFunctions []).performAll
      ([(3, .assignExpr ⟨1⟩)] ++ [(4, .declareNonlocal ⟨1⟩)])).map (fun u => u.finish.home 4 ⟨1⟩) =
        .ok 2 ∧
    ((siblingsInFunctions []).performAll
      ([(4, .declareNonlocal ⟨1⟩)] ++ [(3, .assignExpr ⟨1⟩)])).map (fun u => u.finish.home 4 ⟨1⟩) =
        .error (.binding ⟨.nonlocalNotFound, ⟨1⟩, 4⟩) ∧
    ((siblingsInFunctions [(1, .store ⟨1⟩)]).performAll
      ([(3, .assignExpr ⟨1⟩)] ++ [(4, .declareNonlocal ⟨1⟩)])).map (fun u => u.finish.home 4 ⟨1⟩) =
        .ok 2 ∧
    ((siblingsInFunctions [(1, .store ⟨1⟩)]).performAll
      ([(4, .declareNonlocal ⟨1⟩)] ++ [(3, .assignExpr ⟨1⟩)])).map (fun u => u.finish.home 4 ⟨1⟩) =
        .ok 1 := by
  refine ⟨Reachable.recordAll _ (Reachable.new ()), rfl, ⟨by decide, 2, by decide, by decide⟩, by decide,
    by decide, ?_, ?_, ?_, ?_⟩
  all_goals rfl

end ScopeTree

end Scoping
