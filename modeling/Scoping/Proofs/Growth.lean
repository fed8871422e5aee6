import Scoping.Proofs.Reachable

/-! What lasts. Scopes are never moved or removed and never change their kind. A name that a scope
    binds stays bound there, a name that it captures keeps its target, and a name that it takes from
    the global scope stays global, except that the global scope itself may come to bind it. So only
    what is open may still be decided, and what a tree says of anything else is said for ever. -/

namespace Scoping

/-- Whether a later entry of a name in a scope may follow an earlier one. -/
def Entry.MayBecome (s : ScopeId) : Entry → Entry → Prop
  | used, _ => True
  | bound, e => e = bound
  | captured target, e => e = captured target ∨ s = ScopeId.root ∧ e = bound
  | global _, e => (∃ declared, e = global declared) ∨ s = ScopeId.root ∧ e = bound

namespace Entry

variable {s : ScopeId} {e f g : Entry}

theorem MayBecome.refl : ∀ e : Entry, e.MayBecome s e
  | used => trivial
  | bound => rfl
  | captured _ => .inl rfl
  | global declared => .inl ⟨declared, rfl⟩

theorem MayBecome.trans (first : e.MayBecome s f) (second : f.MayBecome s g) : e.MayBecome s g := by
  cases e with
  | used => trivial
  | bound =>
    subst first
    exact second
  | captured target =>
    rcases first with rfl | ⟨root, rfl⟩
    · exact second
    · exact .inr ⟨root, second⟩
  | global declared =>
    rcases first with ⟨_, rfl⟩ | ⟨root, rfl⟩
    · exact second
    · exact .inr ⟨root, second⟩

end Entry

namespace ScopeTree

variable {π : Type} {t u v : ScopeTree π} {s : ScopeId} {n : Ident}

theorem Undecided.eq_used {e : Entry} (free : t.Undecided s n) (entry : t.entryAt? s n = some e) :
    e = .used := by
  rcases free with free | free <;> rw [free] at entry <;> cases entry
  rfl

/-- No elementary change takes back what is decided. -/
theorem Reason.mayBecome {e f : Entry} (reason : Reason t s n f) (entry : t.entryAt? s n = some e) :
    e.MayBecome s f := by
  have opened (free : t.Undecided s n) : e.MayBecome s f := by
    rw [free.eq_used entry]
    trivial
  cases reason with
  | use absent => exact opened (.inl absent)
  | bind free => exact opened free
  | capture free _ => exact opened free
  | note free => exact opened free
  | fallThrough used _ => exact opened (.inr used)
  | bindGlobal here _ =>
    cases e with
    | used => trivial
    | bound => rfl
    | captured _ => exact .inr ⟨here, rfl⟩
    | global _ => exact .inr ⟨here, rfl⟩
  | declare _ rule =>
    rcases rule with absent | ⟨declared, global⟩
    · exact opened (.inl absent)
    · rw [global] at entry
      cases entry
      exact .inl ⟨true, rfl⟩

/-! ### Growth -/

/-- A tree that another has grown out of. -/
structure Grows (t u : ScopeTree π) : Prop where
  mem : ∀ a ∈ t, a ∈ u
  enclosing : ∀ a ∈ t, u.enclosing a = t.enclosing a
  kind? : ∀ a ∈ t, u.kind? a = t.kind? a
  entry : ∀ a n e, t.entryAt? a n = some e → ∃ f, u.entryAt? a n = some f ∧ e.MayBecome a f

namespace Grows

theorem refl (t : ScopeTree π) : Grows t t :=
  ⟨fun _ => id, fun _ _ => rfl, fun _ _ => rfl, fun _ _ e entry => ⟨e, entry, .refl e⟩⟩

theorem trans (g : Grows t u) (k : Grows u v) : Grows t v where
  mem a ha := k.mem a (g.mem a ha)
  enclosing a ha := (k.enclosing a (g.mem a ha)).trans (g.enclosing a ha)
  kind? a ha := (k.kind? a (g.mem a ha)).trans (g.kind? a ha)
  entry a n e he := by
    obtain ⟨f, hf, first⟩ := g.entry a n e he
    obtain ⟨f', hf', second⟩ := k.entry a n f hf
    exact ⟨f', hf', first.trans second⟩

theorem path (g : Grows t u) (hs : s ∈ t) : u.path s = t.path s := by
  rw [ScopeTree.path, ScopeTree.path, g.enclosing s hs]

theorem closedAround (g : Grows t u) (h : t.WellFormed) (hs : s ∈ t) :
    u.closedAround s = t.closedAround s := by
  rw [ScopeTree.closedAround, ScopeTree.closedAround, g.enclosing s hs]
  refine List.filter_congr fun a ha => ?_
  rw [isClosed, isClosed, g.kind? a (h.mem_of_mem_enclosing ha)]

theorem bound (g : Grows t u) (bound : t.entryAt? s n = some .bound) : u.entryAt? s n = some .bound := by
  obtain ⟨_, entry, rfl⟩ := g.entry s n _ bound
  exact entry

/-- What is open was open before. -/
theorem undecided (g : Grows t u) (free : u.Undecided s n) : t.Undecided s n := by
  cases entry : t.entryAt? s n with
  | none => exact .inl entry
  | some e =>
    obtain ⟨f, later, may⟩ := g.entry s n e entry
    obtain rfl := free.eq_used later
    cases e with
    | used => exact .inr entry
    | bound => cases may
    | captured target => simp [Entry.MayBecome] at may
    | global declared => simp [Entry.MayBecome] at may

theorem captured {target : ScopeId} (g : Grows t u) (inner : s ≠ ScopeId.root)
    (captured : t.entryAt? s n = some (.captured target)) :
    u.entryAt? s n = some (.captured target) := by
  obtain ⟨_, entry, rfl | ⟨root, -⟩⟩ := g.entry s n _ captured
  · exact entry
  · exact absurd root inner

theorem global {declared : Bool} (g : Grows t u) (inner : s ≠ ScopeId.root)
    (global : t.entryAt? s n = some (.global declared)) : ∃ d, u.entryAt? s n = some (.global d) := by
  obtain ⟨_, entry, ⟨d, rfl⟩ | ⟨root, -⟩⟩ := g.entry s n _ global
  · exact ⟨d, entry⟩
  · exact absurd root inner

end Grows

theorem Change.grows (change : Change t u) : Grows t u := by
  cases change with
  | @entry s n e mem reason =>
    have same := sameScopes_setEntry t s n e
    refine ⟨fun a ha => (mem_congr same.size a).mpr ha, fun a _ => same.enclosing a,
      fun a _ => same.kind? a, fun a m f hf => ?_⟩
    rw [entryAt?_setEntry t mem]
    split_ifs with here
    · obtain ⟨rfl, rfl⟩ := here
      exact ⟨e, rfl, reason.mayBecome hf⟩
    · exact ⟨f, hf, .refl f⟩
  | @push p kind mem fit name payload =>
    have old : ∀ a ∈ t, a ≠ t.size := fun a ha => Nat.ne_of_lt ha
    refine ⟨fun a ha => (mem_push ..).mpr (.inl ha), fun a ha => ?_, fun a ha => ?_, fun a m f hf => ?_⟩
    · rw [enclosing_push t kind name payload mem, if_neg (old a ha)]
    · rw [kind?_push t kind name payload mem, if_neg (old a ha)]
    · exact ⟨f, (entryAt?_push t kind name payload mem a m).trans hf, .refl f⟩
  | mark s on =>
    refine ⟨fun a ha => (mem_congr (size_setInIterable ..) a).mpr ha,
      fun a _ => enclosing_setInIterable .., fun a _ => kind?_setInIterable ..,
      fun a m f hf => ⟨f, ?_, .refl f⟩⟩
    rw [entryAt?_setInIterable, hf]
  | complete => exact ⟨fun _ => id, fun _ _ => rfl, fun _ _ => rfl, fun _ _ f hf => ⟨f, hf, .refl f⟩⟩

theorem Changes.grows (changes : Changes t u) : Grows t u := by
  induction changes with
  | refl => exact .refl t
  | tail _ last ih => exact ih.trans last.grows

theorem Grows.perform (h : t.WellFormed) {a : Action π} (performed : t.perform s a = .ok u) :
    Grows t u := by
  obtain ⟨mem, acted⟩ := perform_eq_ok.mp performed
  exact (changes_act h mem acted).grows

theorem Grows.recordAll : ∀ (reports : List (ScopeId × Action π)) {t : ScopeTree π}, t.WellFormed →
    Grows t (t.recordAll reports)
  | [], t, _ => .refl t
  | report :: reports, t, h => by
    cases performed : t.perform report.1 report.2 with
    | error e =>
      rw [recordAll_cons_of_error reports performed]
      exact .recordAll reports h
    | ok u =>
      rw [recordAll_cons_of_ok reports performed]
      exact (Grows.perform h performed).trans (.recordAll reports (h.perform performed))

end ScopeTree

end Scoping
