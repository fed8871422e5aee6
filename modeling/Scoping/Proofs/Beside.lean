import Scoping.Proofs.Projection
import Scoping.Proofs.Resolution

/-! Changes that a report does not notice. A report about a scope reads the entries of its name on
    the way from there to the root, and of the scopes further out that are no comprehensions it asks
    only what they have decided. So it takes no notice of a change in scopes that are not on its way,
    nor of a name bound further out: it is accepted or refused as before, and the change may as well
    come after it. The one report that looks for the binding itself is a nonlocal declaration. -/

namespace Scoping

namespace ScopeTree

variable {π : Type} {t u v : ScopeTree π} {s a r : ScopeId} {n m : Ident}

/-! ### Entries decide a tree -/

/-- Trees of the same scopes with the same entries are the same. -/
theorem SameScopes.ext (same : SameScopes t u)
    (entry : ∀ s n, u.entryAt? s n = t.entryAt? s n) : u = t := by
  refine ext_scope? (fun s => ?_) same.built
  have kind := same.kind? s
  cases hu : u.scope? s with
  | none =>
    cases ht : t.scope? s with
    | none => rfl
    | some sc =>
      rw [ScopeTree.kind?, ScopeTree.kind?, hu, ht] at kind
      cases kind
  | some sc' =>
    cases ht : t.scope? s with
    | none =>
      rw [ScopeTree.kind?, ScopeTree.kind?, hu, ht] at kind
      cases kind
    | some sc =>
      have enclosing := same.enclosing s
      have nested := same.nested s
      have name := same.name? s
      have payload := same.payload? s
      have inIterable := same.inIterable s
      have entries := entry s
      simp only [ScopeTree.kind?, ScopeTree.enclosing, ScopeTree.nested, ScopeTree.name?,
        ScopeTree.payload?, ScopeTree.inIterable, entryAt?, hu, ht, Option.map_some, Option.elim_some,
        Option.bind_some,
        Option.any_some, Option.some.injEq] at kind enclosing nested name payload inIterable entries
      cases sc
      cases sc'
      congr
      exact Std.ExtTreeMap.ext_getElem? entries

/-- An entry that is there may be given again. -/
theorem setEntry_self (hs : s ∈ t) {e : Entry} (entry : t.entryAt? s n = some e) :
    t.setEntry s n e = t := by
  refine SameScopes.ext (sameScopes_setEntry ..) fun a m => ?_
  rw [entryAt?_setEntry t hs]
  split_ifs with here
  · obtain ⟨rfl, rfl⟩ := here
    exact entry.symm
  · rfl

/-! ### Binding a name in two scopes -/

/-- Whether binding a name in a scope comes down to binding a name in another. -/
def BindsAt (t : ScopeTree π) (s : ScopeId) (n : Ident) (a : ScopeId) (m : Ident) : Prop :=
  n = m ∧ (s = a ∧ t.Undecided s n ∨
    ScopeId.root = a ∧ ∃ declared, t.entryAt? s n = some (.global declared))

theorem store_binds (hr : ScopeId.root ∈ t) (hs : s ∈ t) (binds : t.BindsAt s n a m) :
    (t.store s n).entryAt? a m = some .bound := by
  obtain ⟨rfl, ⟨rfl, free⟩ | ⟨rfl, declared, global⟩⟩ := binds
  · rw [store_of_undecided free, entryAt?_setEntry t hs, if_pos ⟨rfl, rfl⟩]
  · rw [store_of_global global, entryAt?_setEntry t hr, if_pos ⟨rfl, rfl⟩]

theorem store_keeps (hr : ScopeId.root ∈ t) (hs : s ∈ t) (away : ¬t.BindsAt s n a m) :
    (t.store s n).entryAt? a m = t.entryAt? a m := by
  unfold store
  split
  · rename_i absent
    rw [entryAt?_setEntry t hs, if_neg fun here => away ⟨here.2, .inl ⟨here.1, .inl absent⟩⟩]
  · rename_i used
    rw [entryAt?_setEntry t hs, if_neg fun here => away ⟨here.2, .inl ⟨here.1, .inr used⟩⟩]
  · rename_i declared global
    rw [entryAt?_setEntry t hr, if_neg fun here => away ⟨here.2, .inr ⟨here.1, declared, global⟩⟩]
  iterate 2 rfl

/-- What a scope has decided is not decided again. -/
theorem store_decided (hr : ScopeId.root ∈ t) (hs : s ∈ t) (inner : a ≠ ScopeId.root)
    (decided : ¬t.Undecided a m) : (t.store s n).entryAt? a m = t.entryAt? a m := by
  refine store_keeps hr hs ?_
  rintro ⟨rfl, ⟨rfl, free⟩ | ⟨root, -⟩⟩
  · exact decided free
  · exact inner root.symm

/-- A scope decides a name that is bound in it. -/
theorem decided_store (hr : ScopeId.root ∈ t) (hs : s ∈ t) (n : Ident) :
    ¬(t.store s n).Undecided s n := by
  rw [Undecided]
  rcases entryAt?_store_self hr hs n with bound | ⟨target, captured⟩ | ⟨-, declared, global⟩
  · simp [bound]
  · simp [captured]
  · simp [global]

section store

variable (hr : ScopeId.root ∈ t) (hs : s ∈ t) (ha : a ∈ t)

include hr hs ha

theorem store_store_binds {b : ScopeId} {k : Ident} (binds : t.BindsAt s n b k ∨ t.BindsAt a m b k) :
    ((t.store s n).store a m).entryAt? b k = some .bound := by
  have mem := mem_congr (sameScopes_store t s n).size
  by_cases again : (t.store s n).BindsAt a m b k
  · exact store_binds ((mem _).mpr hr) ((mem a).mpr ha) again
  · rw [store_keeps ((mem _).mpr hr) ((mem a).mpr ha) again]
    refine store_binds hr hs (binds.elim id fun second => ?_)
    -- the second binding has nothing left to do, so the first has changed the entry that it is about
    have first : t.BindsAt s n a m := by
      by_contra away
      rw [BindsAt, Undecided, store_keeps hr hs away] at again
      exact again second
    obtain ⟨rfl, ⟨rfl, -⟩ | ⟨rfl, declared, global⟩⟩ := second
    · exact first
    · obtain ⟨rfl, ⟨rfl, free⟩ | ⟨rfl, global'⟩⟩ := first
      · rcases free with absent | used
        · rw [absent] at global
          cases global
        · rw [used] at global
          cases global
      · exact ⟨rfl, .inr ⟨rfl, global'⟩⟩

theorem store_store_keeps {b : ScopeId} {k : Ident} (first : ¬t.BindsAt s n b k)
    (second : ¬t.BindsAt a m b k) : ((t.store s n).store a m).entryAt? b k = t.entryAt? b k := by
  have mem := mem_congr (sameScopes_store t s n).size
  rw [store_keeps ((mem _).mpr hr) ((mem a).mpr ha), store_keeps hr hs first]
  intro again
  by_cases changed : t.BindsAt s n a m
  · rw [BindsAt, Undecided, store_binds hr hs changed] at again
    simp at again
  · rw [BindsAt, Undecided, store_keeps hr hs changed] at again
    exact second again

/-- Names may be bound in two scopes in either order. -/
theorem store_comm (n m : Ident) : (t.store s n).store a m = (t.store a m).store s n := by
  refine SameScopes.ext ?_ fun b k => ?_
  · exact ((sameScopes_store t a m).trans (sameScopes_store ..)).symm.trans
      ((sameScopes_store t s n).trans (sameScopes_store ..))
  · by_cases binds : t.BindsAt s n b k ∨ t.BindsAt a m b k
    · rw [store_store_binds hr hs ha binds, store_store_binds hr ha hs binds.symm]
    · obtain ⟨first, second⟩ := not_or.mp binds
      rw [store_store_keeps hr hs ha first second, store_store_keeps hr ha hs second first]

end store

/-- Where a decided name lives depends on its entry alone. -/
theorem home_congr_of_decided (decided : ¬t.Undecided s n) (entry : u.entryAt? s n = t.entryAt? s n) :
    u.home s n = t.home s n := by
  rw [home, home, entry]
  cases here : t.entryAt? s n with
  | none => exact absurd (.inl here) decided
  | some e =>
    cases e with
    | used => exact absurd (.inr here) decided
    | bound => rfl
    | captured _ => rfl
    | global _ => rfl

/-- A report on a name leaves the scopes as they are. -/
theorem sameScopes_act (hs : s ∈ t) {x : Action π} (about : x.subject? = some n)
    (acted : t.act s x = .ok u) : SameScopes t u := by
  cases x with
  | load m =>
    cases acted
    exact sameScopes_load ..
  | store m =>
    cases acted
    exact sameScopes_store ..
  | assignExpr m =>
    obtain ⟨target, -, cases⟩ := assignExpr_eq_ok acted
    have bound := sameScopes_store t target m
    rcases cases with ⟨-, rfl⟩ | ⟨-, -, -, rfl⟩ | ⟨-, -, rfl⟩
    · exact sameScopes_store ..
    · refine bound.trans ?_
      rw [noteToplevel]
      split
      iterate 2 exact sameScopes_setEntry ..
      exact .refl _
    · exact bound.trans (sameScopes_load ..)
  | declareNonlocal m =>
    rcases declareNonlocal_eq_ok acted with rfl | ⟨target, -, -, rfl⟩
    · exact .refl _
    · exact sameScopes_setEntry ..
  | declareGlobal m =>
    rcases declareGlobal_eq_ok hs acted with ⟨-, rfl⟩ | ⟨-, -, rfl⟩
    · exact sameScopes_store ..
    · exact (sameScopes_store ..).trans (sameScopes_setEntry ..)
  | nest kind name payload => cases about
  | setInIterable on => cases about

/-! ### Changes that pass unnoticed -/

/-- A change that a report about a scope does not notice. On the way from the scope it leaves alone
    what the scope itself says, the iteration variables, and what is decided; and it may come before
    or after a new entry of the scope or a binding on the way. -/
structure Unnoticed (t : ScopeTree π) (r : ScopeId) (f : ScopeTree π → ScopeTree π) : Prop where
  same : ∀ v, SameScopes t v → SameScopes v (f v)
  own : ∀ v, SameScopes t v → ∀ n, (f v).entryAt? r n = v.entryAt? r n
  iteration : ∀ v, SameScopes t v → ∀ a ∈ t.path r, t.kind? a = some .comprehension →
    ∀ n, (f v).entryAt? a n = v.entryAt? a n
  decided : ∀ v, SameScopes t v → ∀ a ∈ t.path r, a ≠ ScopeId.root → ∀ n, ¬v.Undecided a n →
    (f v).entryAt? a n = v.entryAt? a n
  setEntry : ∀ v, SameScopes t v → ∀ n e, f (v.setEntry r n e) = (f v).setEntry r n e
  store : ∀ v, SameScopes t v → ∀ a ∈ t.path r, ∀ n, f (v.store a n) = (f v).store a n

namespace Unnoticed

variable {f g : ScopeTree π → ScopeTree π}

theorem id (t : ScopeTree π) (r : ScopeId) : Unnoticed t r fun v => v :=
  ⟨fun v _ => .refl v, fun _ _ _ => rfl, fun _ _ _ _ _ _ => rfl, fun _ _ _ _ _ _ _ => rfl,
    fun _ _ _ _ => rfl, fun _ _ _ _ _ => rfl⟩

theorem comp (l : Unnoticed t r g) (k : Unnoticed t r f) : Unnoticed t r fun v => g (f v) where
  same v same := (k.same v same).trans (l.same _ (same.trans (k.same v same)))
  own v same n := (l.own _ (same.trans (k.same v same)) n).trans (k.own v same n)
  iteration v same a ha inside n :=
    (l.iteration _ (same.trans (k.same v same)) a ha inside n).trans (k.iteration v same a ha inside n)
  decided v same a ha inner n decided := by
    have first := k.decided v same a ha inner n decided
    have still : ¬(f v).Undecided a n := by rwa [Undecided, first]
    exact (l.decided _ (same.trans (k.same v same)) a ha inner n still).trans first
  setEntry v same n e := by
    rw [k.setEntry v same, l.setEntry _ (same.trans (k.same v same))]
  store v same a ha n := by
    rw [k.store v same a ha, l.store _ (same.trans (k.same v same)) a ha]

theorem load (k : Unnoticed t r f) (same : SameScopes t v) (n : Ident) :
    (f v).load r n = f (v.load r n) := by
  rw [ScopeTree.load, ScopeTree.load, k.own v same]
  cases v.entryAt? r n with
  | none => exact (k.setEntry v same n _).symm
  | some e => rfl

theorem noteToplevel (k : Unnoticed t r f) (same : SameScopes t v) (target : ScopeId) (n : Ident) :
    (f v).noteToplevel r target n = f (v.noteToplevel r target n) := by
  rw [ScopeTree.noteToplevel, ScopeTree.noteToplevel, k.own v same]
  cases v.entryAt? r n with
  | none => exact (k.setEntry v same n _).symm
  | some e =>
    cases e with
    | used => exact (k.setEntry v same n _).symm
    | bound => rfl
    | captured _ => rfl
    | global _ => rfl

theorem assignExpr (k : Unnoticed t r f) (h : t.WellFormed) (hr : r ∈ t) (same : SameScopes t v)
    (n : Ident) : (f v).assignExpr r n = (v.assignExpr r n).map f := by
  have after := k.same v same
  have targets :
      (f v).expressionTarget n r ((f v).enclosing r) = v.expressionTarget n r (v.enclosing r) := by
    rw [after.enclosing, same.enclosing]
    refine expressionTarget_congr after.kind? after.inIterable _ r fun a ha inside => ?_
    exact k.iteration v same a ha (by rw [← same.kind?, inside]) n
  rw [ScopeTree.assignExpr, ScopeTree.assignExpr, targets]
  cases found : v.expressionTarget n r (v.enclosing r) with
  | error fault => rfl
  | ok target =>
    obtain ⟨inner, outer, way, -⟩ := expressionTarget_eq_ok found
    rw [same.enclosing] at way
    have on_way : target ∈ t.path r := by
      rw [path, way]
      exact List.mem_append_right inner List.mem_cons_self
    have bound := k.store v same target on_way n
    have same' : SameScopes t (v.store target n) := same.trans (sameScopes_store ..)
    have checks : ((f v).store target n).kind? target = some .toplevel ∧
          ((f v).store target n).home target n = target ↔
        (v.store target n).kind? target = some .toplevel ∧
          (v.store target n).home target n = target := by
      rw [← bound, (k.same _ same').kind?]
      refine and_congr_right fun top => ?_
      have hv := h.of_sameScopes same
      have inner : target ≠ ScopeId.root := by
        rintro rfl
        rw [(sameScopes_store ..).kind?, hv.kind_root] at top
        cases top
      have mem : target ∈ v := (mem_congr same.size target).mpr (h.mem_around hr on_way)
      have decided := decided_store hv.root_mem mem n
      rw [home_congr_of_decided decided (k.decided _ same' target on_way inner n decided)]
    dsimp only
    simp only [checks]
    split_ifs
    · exact congrArg Except.ok (k.store v same r List.mem_cons_self n).symm
    · rw [← bound, k.noteToplevel same']
      rfl
    · rw [← bound, k.load same']
      rfl

theorem declareNonlocal (k : Unnoticed t r f) (same : SameScopes t v)
    (search : v.entryAt? r n = none → (f v).capture? r n = v.capture? r n) :
    (f v).declareNonlocal r n = (v.declareNonlocal r n).map f := by
  rw [ScopeTree.declareNonlocal, ScopeTree.declareNonlocal, (k.same v same).kind?, k.own v same]
  split_ifs
  · cases entry : v.entryAt? r n with
    | none =>
      dsimp only
      rw [search entry]
      cases v.capture? r n with
      | none => rfl
      | some target => exact congrArg Except.ok (k.setEntry v same n _).symm
    | some e =>
      cases e with
      | captured _ => rfl
      | used => rfl
      | bound => rfl
      | global _ => rfl
  · rfl

theorem declareGlobal (k : Unnoticed t r f) (h : t.WellFormed) (hr : r ∈ t) (same : SameScopes t v)
    (n : Ident) : (f v).declareGlobal r n = (v.declareGlobal r n).map f := by
  have declared : (((f v).setEntry r n (.global true)).store ScopeId.root n) =
      f ((v.setEntry r n (.global true)).store ScopeId.root n) := by
    rw [k.store _ (same.trans (sameScopes_setEntry ..)) _ (h.root_mem_path hr), k.setEntry v same]
  rw [ScopeTree.declareGlobal, ScopeTree.declareGlobal, k.own v same]
  split_ifs
  · exact congrArg Except.ok (k.store v same r List.mem_cons_self n).symm
  · cases v.entryAt? r n with
    | none => exact congrArg Except.ok declared
    | some e =>
      cases e with
      | global _ => exact congrArg Except.ok declared
      | used => rfl
      | bound => rfl
      | captured _ => rfl

/-- A change that a report does not notice may come after it as well. -/
theorem act (k : Unnoticed t r f) (h : t.WellFormed) (hr : r ∈ t) (same : SameScopes t v) {a : Action π}
    (about : a.subject? = some n)
    (search : a = .declareNonlocal n → v.entryAt? r n = none → (f v).capture? r n = v.capture? r n) :
    (f v).act r a = (v.act r a).map f := by
  cases a with
  | load m => exact congrArg Except.ok (k.load same m)
  | store m => exact congrArg Except.ok (k.store v same r List.mem_cons_self m).symm
  | assignExpr m => exact k.assignExpr h hr same m
  | declareNonlocal m =>
    cases about
    exact k.declareNonlocal same (search rfl)
  | declareGlobal m => exact k.declareGlobal h hr same m
  | nest kind name payload => cases about
  | setInIterable on => cases about

end Unnoticed

/-- A search from a scope depends on the closed scopes around it alone. -/
theorem SameScopes.capture?_of_mem (same : SameScopes t u)
    (entry : ∀ a ∈ t.closedAround s, u.entryAt? a n = t.entryAt? a n) :
    u.capture? s n = t.capture? s n := by
  rw [ScopeTree.capture?, ScopeTree.capture?, same.closedAround, captureAmong?_congr_of_mem entry]

/-- A search looks at no scope behind the first one that has decided the name. -/
theorem captureAmong?_congr_of_undecided : ∀ {around : List ScopeId},
    (∀ nearer c farther, around = nearer ++ c :: farther → (∀ d ∈ nearer, t.Undecided d n) →
      u.entryAt? c n = t.entryAt? c n) → u.captureAmong? n around = t.captureAmong? n around
  | [], _ => rfl
  | a :: rest, same => by
    have first : u.entryAt? a n = t.entryAt? a n :=
      same [] a rest rfl fun d hd => absurd hd List.not_mem_nil
    have further (free : t.Undecided a n) : u.captureAmong? n rest = t.captureAmong? n rest := by
      refine captureAmong?_congr_of_undecided fun nearer c farther way others => ?_
      exact same (a :: nearer) c farther (way ▸ rfl) (List.forall_mem_cons.mpr ⟨free, others⟩)
    rw [captureAmong?, captureAmong?, first]
    cases entry : t.entryAt? a n with
    | none => exact further (.inl entry)
    | some e =>
      cases e with
      | used => exact further (.inr entry)
      | bound => rfl
      | captured _ => rfl
      | global _ => rfl

/-! ### Two kinds of change -/

/-- A new entry of a scope that is not on the way passes unnoticed. -/
theorem unnoticed_setEntry (h : t.WellFormed) (hr : r ∈ t) (hs : s ∈ t) (off : s ∉ t.path r) (n : Ident)
    (e : Entry) : Unnoticed t r fun v => v.setEntry s n e := by
  have ne {a : ScopeId} (ha : a ∈ t.path r) : s ≠ a := fun here => off (here ▸ ha)
  have kept {v : ScopeTree π} (same : SameScopes t v) {a : ScopeId} (ha : a ∈ t.path r) (m : Ident) :
      (v.setEntry s n e).entryAt? a m = v.entryAt? a m := by
    rw [entryAt?_setEntry v ((mem_congr same.size s).mpr hs), if_neg fun here => ne ha here.1]
  refine ⟨fun v _ => sameScopes_setEntry .., fun v same m => kept same List.mem_cons_self m,
    fun v same a ha _ m => kept same ha m, fun v same a ha _ m _ => kept same ha m, fun v same m f => ?_,
    fun v same a ha m => ?_⟩
  · exact v.setEntry_comm (ne List.mem_cons_self).symm ..
  · exact (setEntry_store (ne ha) (ne (h.root_mem_path hr)) ((mem_congr same.size s).mpr hs) ..).symm

/-- A name bound further out, in a scope that is no comprehension, passes unnoticed. -/
theorem unnoticed_store (h : t.WellFormed) (hr : r ∈ t) (around : s ∈ t.enclosing r)
    (outside : t.kind? s ≠ some .comprehension) (n : Ident) : Unnoticed t r fun v => v.store s n := by
  have mem {v : ScopeTree π} (same : SameScopes t v) {a : ScopeId} (ha : a ∈ t.path r) : a ∈ v :=
    (mem_congr same.size a).mpr (h.mem_around hr ha)
  have root := h.root_mem_path hr
  have hs := List.mem_cons_of_mem r around
  have inner : r ≠ ScopeId.root := by
    rintro rfl
    rw [h.enclosing_root] at around
    cases around
  have ne : r ≠ s := by
    rintro rfl
    exact Nat.lt_irrefl r (h.lt_of_mem_enclosing around)
  refine ⟨fun v _ => sameScopes_store .., fun v same m => ?_, fun v same a ha inside m => ?_,
    fun v same a ha inner m decided => ?_, fun v same m e => ?_, fun v same a ha m => ?_⟩
  · exact entryAt?_store_other (mem same hs) (mem same root) (.inr ⟨ne, inner⟩)
  · refine entryAt?_store_other (mem same hs) (mem same root) (.inr ⟨?_, ?_⟩)
    · rintro rfl
      exact outside inside
    · rintro rfl
      rw [h.kind_root] at inside
      cases inside
  · exact store_decided (mem same root) (mem same hs) inner decided
  · exact setEntry_store ne inner (mem same List.mem_cons_self) ..
  · exact store_comm (mem same root) (mem same ha) (mem same hs) m n

end ScopeTree

end Scoping
