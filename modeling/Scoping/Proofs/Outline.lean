import Scoping.Proofs.Arena
import Scoping.Proofs.Audit

/-! What an outline says. The line of a scope lists names by their spellings, and a list in order is
    settled by what is in it, so the order in which a scope keeps its entries makes no difference.
    The walk that writes the lines comes to every scope once, and its depth is the number of scopes
    around. The labels are gathered going outward, so the name of a scope is the name of its parent
    and its own label, down from the global scope, which has no part in it. -/

namespace Scoping

namespace Entry

variable {e : Entry}

theorem isBound_iff : e.isBound ↔ e = .bound := by
  cases e <;> simp [isBound]

theorem isCaptured_iff : e.isCaptured ↔ ∃ target, e = .captured target := by
  cases e <;> simp [isCaptured]

theorem isGlobal_iff : e.isGlobal ↔ ∃ declared, e = .global declared := by
  cases e <;> simp [isGlobal]

end Entry

namespace ScopeTree

variable {π : Type} {t : ScopeTree π} {s p : ScopeId} (spell : Ident → String)

/-! ### Names of scopes -/

/-- The scopes on the way outward from a scope that is nested in another, without the global scope. -/
theorem WellFormed.way_of_parent? (h : t.WellFormed) (parent : t.parent? s = some p) :
    (t.path s).filter (· ≠ ScopeId.root) = s :: (t.path p).filter (· ≠ ScopeId.root) := by
  obtain ⟨-, older, around⟩ := h.enclosing_of_parent? parent
  have inner : s ≠ ScopeId.root := by
    rintro rfl
    exact Nat.not_lt_zero p older
  rw [path, around, List.filter_cons_of_pos (by simp [inner])]

theorem WellFormed.way_root (h : t.WellFormed) :
    (t.path ScopeId.root).filter (· ≠ ScopeId.root) = [] := by
  simp [path, h.enclosing_root]

/-- The loop outward gathers the labels of the scopes on the way. -/
theorem WellFormed.gatherLabels_eq (h : t.WellFormed) :
    ∀ (steps : Nat) (s : ScopeId) (parts : List String),
    ((t.path s).filter (· ≠ ScopeId.root)).length ≤ steps →
      t.gatherLabels spell steps (some s) parts =
        parts ++ ((t.path s).filter (· ≠ ScopeId.root)).map (t.label spell)
  | 0, s, parts, le => by
    rw [List.length_eq_zero_iff.mp (Nat.le_zero.mp le), List.map_nil, List.append_nil, gatherLabels]
    simp
  | steps + 1, s, parts, le => by
    rw [gatherLabels]
    split_ifs with outermost
    · rw [outermost, h.way_root, List.map_nil, List.append_nil]
    · cases parent : t.parent? s with
      | none =>
        have alone : t.enclosing s = [] := List.head?_eq_none_iff.mp parent
        simp [gatherLabels, path, alone, outermost]
      | some p =>
        rw [h.way_of_parent? parent] at le ⊢
        rw [h.gatherLabels_eq steps p _ (Nat.le_of_succ_le_succ le), List.map_cons, List.append_assoc]
        rfl

theorem WellFormed.length_way_le (h : t.WellFormed) (s : ScopeId) :
    ((t.path s).filter (· ≠ ScopeId.root)).length ≤ t.size := by
  refine Nat.le_trans (List.length_filter_le ..) ?_
  rw [path, List.length_cons]
  by_cases mem : s ∈ t
  · exact Nat.lt_of_le_of_lt (h.length_enclosing_le s) mem
  · rw [enclosing_of_not_mem mem]
    exact h.root_mem

/-- The name of a scope that is found going outward is the one that is read off the way to it. -/
theorem WellFormed.pathName_eq (h : t.WellFormed) (sep : String) (s : ScopeId) :
    t.pathName spell sep s = t.qualifiedName spell sep s := by
  rw [pathName, h.gatherLabels_eq spell t.size s [] (h.length_way_le s), List.nil_append, qualifiedName]
  cases (t.path s).filter (· ≠ ScopeId.root) with
  | nil => rfl
  | cons a rest =>
    have reversed : (a :: rest).reverse ≠ [] := by simp
    cases way : (a :: rest).reverse with
    | nil => exact absurd way reversed
    | cons b way' =>
      dsimp only
      rw [← way, List.map_reverse]
      rfl

theorem WellFormed.pathName_root (h : t.WellFormed) (sep : String) :
    t.pathName spell sep ScopeId.root = ScopeKind.global.label := by
  rw [h.pathName_eq, qualifiedName, h.way_root]
  rfl

/-- The name of a scope that stands below the global scope is its label, and that of any other is
    its label after the name of its parent. -/
theorem WellFormed.pathName_of_parent? (h : t.WellFormed) (sep : String)
    (parent : t.parent? s = some p) :
    t.pathName spell sep s = if p = ScopeId.root then t.label spell s
      else t.pathName spell sep p ++ sep ++ t.label spell s := by
  have gathered (a : ScopeId) := h.gatherLabels_eq spell t.size a [] (h.length_way_le a)
  rw [pathName, pathName, gathered s, gathered p, h.way_of_parent? parent]
  split_ifs with outermost
  · subst outermost
    rw [h.way_root]
    exact String.intercalate_singleton
  · cases grand : t.parent? p with
    | none =>
      obtain ⟨mem, older, -⟩ := h.enclosing_of_parent? parent
      exact absurd ((h.parent?_eq_none_iff (Nat.lt_trans older mem)).mp grand) outermost
    | some q =>
      rw [h.way_of_parent? grand]
      simp only [List.map_cons, List.nil_append, List.reverse_cons]
      rw [String.intercalate_append_of_ne_nil (by simp) (by simp), String.intercalate_singleton]

/-! ### Lists in order -/

/-- A list in order with one entry for each name that is meant. -/
structure Catalogue {α : Type} (le : α → α → Prop) (text : Ident → α) (meant : Ident → Prop)
    (texts : List α) : Prop where
  names : ∃ names : List Ident, names.Nodup ∧ (∀ n, n ∈ names ↔ meant n) ∧ texts.Perm (names.map text)
  sorted : texts.Pairwise le

/-- The order of two pairs of texts, by the first and then by the second. -/
def PairLE (x y : String × String) : Prop := x.1 < y.1 ∨ x.1 = y.1 ∧ x.2 ≤ y.2

section order

variable {α : Type} {le : α → α → Prop} {text : Ident → α} {meant : Ident → Prop}

/-- There is one such list. -/
theorem Catalogue.unique (antisymm : ∀ a b, le a b → le b a → a = b) {texts texts' : List α}
    (c : Catalogue le text meant texts) (c' : Catalogue le text meant texts') : texts = texts' := by
  obtain ⟨names, nodup, mem, perm⟩ := c.names
  obtain ⟨names', nodup', mem', perm'⟩ := c'.names
  have same : names.Perm names' :=
    (List.perm_ext_iff_of_nodup nodup nodup').mpr fun n => (mem n).trans (mem' n).symm
  exact List.Perm.eq_of_pairwise (fun a b _ _ => antisymm a b) c.sorted c'.sorted
    (perm.trans ((same.map text).trans perm'.symm))

theorem Catalogue.congr {meant' : Ident → Prop} {texts : List α} (c : Catalogue le text meant texts)
    (same : ∀ n, meant n ↔ meant' n) : Catalogue le text meant' texts :=
  have eq : meant = meant' := funext fun n => propext (same n)
  eq ▸ c

/-- A name has one entry in a scope. -/
theorem nodup_entries (t : ScopeTree π) (s : ScopeId) : ((t.entries s).map Prod.fst).Nodup := by
  rw [entries]
  cases t.scope? s with
  | none => exact List.nodup_nil
  | some sc =>
    refine List.pairwise_map.mpr (Std.ExtTreeMap.distinct_keys_toList.imp fun distinct same => ?_)
    exact distinct (same ▸ Std.ReflCmp.compare_self)

/-- Sorting lists what is meant, whatever order the entries are in. -/
theorem catalogue_sort {leb : α → α → Bool} (agree : ∀ a b, leb a b = true ↔ le a b)
    (trans : ∀ a b c, le a b → le b c → le a c) (total : ∀ a b, le a b ∨ le b a)
    {entries : List (Ident × Entry)} (perm : entries.Perm (t.entries s)) (text : Ident → α)
    (p : Entry → Bool) : Catalogue le text (fun n => ∃ e, t.entryAt? s n = some e ∧ p e)
      ((((entries.filter fun e => p e.2).map Prod.fst).map text).mergeSort leb) := by
  refine ⟨⟨(entries.filter fun e => p e.2).map Prod.fst, ?_, fun n => ?_, List.mergeSort_perm ..⟩, ?_⟩
  · have distinct : (entries.map Prod.fst).Nodup := (perm.map _).nodup_iff.mpr (nodup_entries t s)
    exact distinct.sublist (List.filter_sublist.map _)
  · simp only [List.mem_map, List.mem_filter, perm.mem_iff, Prod.exists, exists_and_right,
      exists_eq_right, mem_entries]
  · have trans' (a b c : α) (first : leb a b = true) (second : leb b c = true) : leb a c = true :=
      (agree a c).mpr (trans a b c ((agree a b).mp first) ((agree b c).mp second))
    have total' (a b : α) : (leb a b || leb b a) = true := by
      simpa only [Bool.or_eq_true, agree] using total a b
    have sorted :=
      List.pairwise_mergeSort trans' total' (((entries.filter fun e => p e.2).map Prod.fst).map text)
    exact sorted.imp fun first => (agree ..).mp first

end order

namespace PairLE

theorem iff_pairLE (x y : String × String) : pairLE x y = true ↔ PairLE x y := by
  simp only [pairLE, PairLE, Bool.or_eq_true, Bool.and_eq_true, beq_iff_eq, Bool.not_eq_true',
    decide_eq_true_eq, decide_eq_false_iff_not, String.not_lt]

theorem trans (x y z : String × String) (first : PairLE x y) (second : PairLE y z) : PairLE x z := by
  rcases first with lt | ⟨same, le⟩
  · rcases second with lt' | ⟨same', -⟩
    · exact .inl (String.lt_trans lt lt')
    · exact .inl (same' ▸ lt)
  · rcases second with lt' | ⟨same', le'⟩
    · exact .inl (same ▸ lt')
    · exact .inr ⟨same.trans same', String.le_trans le le'⟩

theorem total (x y : String × String) : PairLE x y ∨ PairLE y x := by
  rcases Std.lt_trichotomy x.1 y.1 with lt | same | lt
  · exact .inl (.inl lt)
  · exact (String.le_total x.2 y.2).imp (.inr ⟨same, ·⟩) (.inr ⟨same.symm, ·⟩)
  · exact .inr (.inl lt)

theorem antisymm (x y : String × String) (first : PairLE x y) (second : PairLE y x) : x = y := by
  rcases first with lt | ⟨same, le⟩
  · rcases second with lt' | ⟨same', -⟩
    · exact absurd (String.lt_trans lt lt') (String.lt_irrefl _)
    · exact absurd (same' ▸ lt) (String.lt_irrefl _)
  · rcases second with lt' | ⟨-, le'⟩
    · exact absurd (same ▸ lt') (String.lt_irrefl _)
    · exact Prod.ext same (String.le_antisymm le le')

end PairLE

/-! ### Lines -/

/-- What the line of a scope says. -/
def Reports (t : ScopeTree π) (spell : Ident → String) (s : ScopeId) (line : String) : Prop :=
  ∃ (kind : ScopeKind) (locals nonlocals globals : List String) (uses : List (String × String)),
    t.kind? s = some kind ∧
    Catalogue (· ≤ ·) spell (fun n => t.entryAt? s n = some .bound) locals ∧
    Catalogue (· ≤ ·) spell (fun n => ∃ target, t.entryAt? s n = some (.captured target)) nonlocals ∧
    Catalogue (· ≤ ·) spell (fun n => ∃ declared, t.entryAt? s n = some (.global declared)) globals ∧
    Catalogue PairLE (fun n => (spell n, t.pathName spell "." (t.home s n)))
      (fun n => ∃ e, t.entryAt? s n = some e ∧ e ≠ .bound) uses ∧
    line = String.join (List.replicate (t.enclosing s).length "  ")
      ++ kind.word ++ "(" ++ t.label spell s ++ "): L=[" ++ ", ".intercalate locals ++ "]"
      ++ (if ", ".intercalate nonlocals = "" then "" else "; NL=[" ++ ", ".intercalate nonlocals ++ "]")
      ++ (if ", ".intercalate globals = "" then "" else "; G=[" ++ ", ".intercalate globals ++ "]")
      ++ "; U=\x7b" ++ ", ".intercalate (uses.map fun u => u.1 ++ ": " ++ u.2) ++ "\x7d\n"

/-- There is one line that says it. -/
theorem Reports.unique {line line' : String} (r : t.Reports spell s line)
    (r' : t.Reports spell s line') : line = line' := by
  obtain ⟨kind, locals, nonlocals, globals, uses, hk, cl, cn, cg, cu, rfl⟩ := r
  obtain ⟨kind', locals', nonlocals', globals', uses', hk', cl', cn', cg', cu', rfl⟩ := r'
  have antisymm : ∀ a b : String, a ≤ b → b ≤ a → a = b := fun a b => String.le_antisymm
  obtain rfl := Option.some.inj (hk.symm.trans hk')
  rw [cl.unique antisymm cl', cn.unique antisymm cn', cg.unique antisymm cg',
    cu.unique PairLE.antisymm cu']

/-- Sorted spellings of names. -/
theorem catalogue_listing {entries : List (Ident × Entry)} (perm : entries.Perm (t.entries s))
    (p : Entry → Bool) :
    ∃ texts, Catalogue (· ≤ ·) spell (fun n => ∃ e, t.entryAt? s n = some e ∧ p e) texts ∧
      listing spell ((entries.filter fun e => p e.2).map Prod.fst) = ", ".intercalate texts := by
  have agree (a b : String) : (!decide (b < a)) = true ↔ a ≤ b := by
    rw [Bool.not_eq_true', decide_eq_false_iff_not, String.not_lt]
  exact ⟨_, catalogue_sort agree (fun _ _ _ => String.le_trans) String.le_total perm spell p, rfl⟩

/-- Whatever order the entries of a scope are in, the line that is written says what there is to say. -/
theorem writeLine_reports (mem : s ∈ t) {entries : List (Ident × Entry)}
    (perm : entries.Perm (t.entries s)) : ∃ line, t.Reports spell s line ∧
      ∀ out, t.writeLine spell entries (t.enclosing s).length s out = out ++ line := by
  obtain ⟨kind, hk⟩ : ∃ kind, t.kind? s = some kind :=
    ⟨_, congrArg (Option.map Scope.kind) (Array.getElem?_eq_getElem mem)⟩
  obtain ⟨locals, cl, hl⟩ := catalogue_listing spell perm Entry.isBound
  obtain ⟨nonlocals, cn, hn⟩ := catalogue_listing spell perm Entry.isCaptured
  obtain ⟨globals, cg, hg⟩ := catalogue_listing spell perm Entry.isGlobal
  have cu := catalogue_sort PairLE.iff_pairLE PairLE.trans PairLE.total perm
    (fun n => (spell n, t.pathName spell "." (t.home s n))) fun e => !e.isBound
  refine ⟨_, ⟨kind, locals, nonlocals, globals, _, hk, cl.congr fun n => ?_, cn.congr fun n => ?_,
    cg.congr fun n => ?_, cu.congr fun n => ?_, rfl⟩, fun out => ?_⟩
  · simp only [Entry.isBound_iff, exists_eq_right]
  · simp only [Entry.isCaptured_iff, exists_and_left.symm, exists_comm (α := Entry), exists_eq_right]
  · simp only [Entry.isGlobal_iff, exists_and_left.symm, exists_comm (α := Entry), exists_eq_right]
  · simp only [Bool.not_eq_true', Bool.eq_false_iff, ne_eq, Entry.isBound_iff]
  · unfold writeLine
    simp only [hl, hn, hg, hk, Option.elim_some, List.map_map]
    split_ifs <;> simp only [String.append_assoc, String.append_empty, Function.comp_def]

/-- The names of a scope that are picked by their entries. -/
theorem filterMap_entries {pick : Ident × Entry → Option Ident} {p : Entry → Bool}
    (picks : ∀ e, pick e = if p e.2 then some e.1 else none) (entries : List (Ident × Entry)) :
    entries.filterMap pick = (entries.filter fun e => p e.2).map Prod.fst := by
  rw [← List.filterMap_eq_map, List.filterMap_filter]
  exact List.filterMap_congr fun e _ => picks e

theorem locals_eq (t : ScopeTree π) (s : ScopeId) :
    t.locals s = ((t.entries s).filter fun e => e.2.isBound).map Prod.fst :=
  filterMap_entries (fun e => by simp only [Entry.isBound_iff]) _

theorem nonlocals_eq (t : ScopeTree π) (s : ScopeId) :
    (t.nonlocals s).map Prod.fst = ((t.entries s).filter fun e => e.2.isCaptured).map Prod.fst := by
  rw [nonlocals, List.map_filterMap]
  refine filterMap_entries (fun e => ?_) _
  obtain ⟨n, e⟩ := e
  cases e <;> rfl

theorem globals_eq (t : ScopeTree π) (s : ScopeId) :
    t.globals s = ((t.entries s).filter fun e => e.2.isGlobal).map Prod.fst := by
  refine filterMap_entries (fun e => ?_) _
  obtain ⟨n, e⟩ := e
  cases e <;> rfl

/-- The line of a scope in the outline is the one that is written from its entries as they are listed. -/
theorem WellFormed.writeLine_entries (h : t.WellFormed) (s : ScopeId) (out : String) :
    t.writeLine spell (t.entries s) (t.enclosing s).length s out = out ++ t.outlineLine spell s := by
  have free :
      (t.entries s).filter (fun e => e.2 ≠ .bound) = (t.entries s).filter fun e => !e.2.isBound := by
    refine List.filter_congr fun e _ => ?_
    rw [Bool.eq_iff_iff]
    simp only [decide_eq_true_iff, Bool.not_eq_true', Bool.eq_false_iff, ne_eq, Entry.isBound_iff]
  have nonlocals : "; " ++ "NL" ++ "=[" = "; NL=[" := rfl
  have globals : "; " ++ "G" ++ "=[" = "; G=[" := rfl
  unfold writeLine outlineLine
  simp only [part, nonlocals, globals, uses, free, h.pathName_eq, locals_eq, nonlocals_eq, globals_eq]
  split_ifs <;> simp only [String.append_assoc, String.append_empty]

theorem WellFormed.outlineLine_reports (h : t.WellFormed) (mem : s ∈ t) :
    t.Reports spell s (t.outlineLine spell s) := by
  obtain ⟨line, reports, written⟩ := writeLine_reports spell mem (.refl (t.entries s))
  have same := (written "").symm.trans (h.writeLine_entries spell s "")
  rw [String.empty_append, String.empty_append] at same
  rwa [← same]

/-- The line of a scope is the same in whatever order its entries are. -/
theorem WellFormed.writeLine_eq (h : t.WellFormed) (mem : s ∈ t) {entries : List (Ident × Entry)}
    (perm : entries.Perm (t.entries s)) (out : String) :
    t.writeLine spell entries (t.enclosing s).length s out = out ++ t.outlineLine spell s := by
  obtain ⟨line, reports, written⟩ := writeLine_reports spell mem perm
  rw [written, reports.unique spell (h.outlineLine_reports spell mem)]

/-! ### All lines -/

theorem WellFormed.length_enclosing (h : t.WellFormed) (parent : t.parent? s = some p) :
    (t.enclosing s).length = (t.enclosing p).length + 1 := by
  obtain ⟨-, -, around⟩ := h.enclosing_of_parent? parent
  rw [around, path, List.length_cons]

/-- The lines of a scope and all that is nested in it are appended in the order of the walk. -/
theorem WellFormed.writeFrom_eq (h : t.WellFormed) {entries : ScopeId → List (Ident × Entry)}
    (lists : t.Lists entries) : ∀ (levels : Nat) {s : ScopeId}, s ∈ t → ∀ out,
      t.writeFrom spell entries levels s (t.enclosing s).length out =
        out ++ String.join ((t.preOrderWithin levels s).map (t.outlineLine spell))
  | 0, s, _, out => by
    rw [writeFrom, preOrderWithin, List.map_nil, String.join_nil, String.append_empty]
  | levels + 1, s, mem, out => by
    have below : ∀ (inner : List ScopeId), (∀ c ∈ inner, t.parent? c = some s) → ∀ out,
        inner.foldl (fun out c => t.writeFrom spell entries levels c
        ((t.enclosing s).length + 1) out) out =
          out ++ String.join ((inner.flatMap (t.preOrderWithin levels)).map (t.outlineLine spell)) := by
      intro inner
      induction inner with
      | nil => exact fun _ out => String.append_empty.symm
      | cons c rest ih =>
        intro parents out
        obtain ⟨parent, others⟩ := List.forall_mem_cons.mp parents
        have first := h.writeFrom_eq lists levels (h.enclosing_of_parent? parent).1 out
        rw [h.length_enclosing parent] at first
        rw [List.foldl_cons, first, ih others, List.flatMap_cons, List.map_append, String.join_append,
          String.append_assoc]
    rw [writeFrom, h.writeLine_eq spell mem (lists s), below _ fun c nested => h.mem_nested.mp nested,
      preOrderWithin, List.map_cons, String.join_cons, String.append_assoc]

/-! ### Main result -/

/-- What an outline says of a tree whose entries are listed in some order. -/
structure Outlines (spell : Ident → String) (t : ScopeTree π)
    (entries : ScopeId → List (Ident × Entry)) : Prop where
  lines : t.write spell entries = String.join ((t.preOrder ScopeId.root).map (t.outlineLine spell))
  /-- It comes out the same in whatever order the entries are kept. -/
  same : t.outline spell = t.write spell entries
  all : (t.preOrder ScopeId.root).Perm t.ids
  order : ∀ s ∈ t, t.preOrder s = s :: (t.nested s).flatMap t.preOrder
  reports : ∀ s ∈ t, t.Reports spell s (t.outlineLine spell s)
  rootDepth : t.enclosing ScopeId.root = []
  depth : ∀ s p, t.parent? s = some p → (t.enclosing s).length = (t.enclosing p).length + 1
  named : ∀ sep s, t.qualifiedName spell sep s = t.pathName spell sep s
  rootName : ∀ sep, t.pathName spell sep ScopeId.root = ScopeKind.global.label
  /-- The name of a scope is its label, after the name of the parent unless that is the global scope. -/
  name : ∀ s ∈ t, s ≠ ScopeId.root → ∃ p, t.parent? s = some p ∧ ∀ sep, t.pathName spell sep s =
    if p = ScopeId.root then t.label spell s else t.pathName spell sep p ++ sep ++ t.label spell s

/-- An outline has a line for every scope, in the order of a walk that comes to each once, as deep as
    it stands and with exactly the names that it binds, captures and takes from the global scope. -/
theorem outline_faithful (h : t.Reachable) {entries : ScopeId → List (Ident × Entry)}
    (lists : t.Lists entries) : Outlines spell t entries := by
  have wf := h.wellFormed
  have written : t.write spell entries = t.outline spell := by
    have all := wf.writeFrom_eq spell lists t.size wf.root_mem ""
    rw [wf.enclosing_root, String.empty_append] at all
    exact all
  refine {
    lines := written
    same := written.symm
    all := wf.preOrder_perm_ids
    order := fun s => wf.preOrder_eq
    reports := fun s mem => wf.outlineLine_reports spell mem
    rootDepth := wf.enclosing_root
    depth := fun s p => wf.length_enclosing
    named := fun sep s => (wf.pathName_eq spell sep s).symm
    rootName := wf.pathName_root spell
    name := fun s mem inner => ?_ }
  obtain ⟨p, -, around⟩ := wf.below s mem inner
  have parent : t.parent? s = some p := by
    rw [parent?, around]
    rfl
  exact ⟨p, parent, fun sep => wf.pathName_of_parent? spell sep parent⟩

/-- A function that reads a global name, and a lambda in it that reads a name of the
    function, analysed. -/
def lambdaInFunction : ScopeTree Unit :=
  ((new ()).recordAll [(0, .store ⟨1⟩), (0, .nest .function (some ⟨2⟩) ()), (1, .load ⟨1⟩),
    (1, .store ⟨0⟩), (1, .nest .lambda none ()), (2, .load ⟨0⟩)]).finish

theorem outline_faithful_lambdaInFunction :
    let spell (n : Ident) : String := (["y", "x", "f"][n.index]?).getD ""
    let entries (s : ScopeId) := (lambdaInFunction.entries s).reverse
    lambdaInFunction.Reachable ∧ lambdaInFunction.Lists entries ∧
      lambdaInFunction.write spell entries = lambdaInFunction.outline spell ∧
      lambdaInFunction.preOrder ScopeId.root = [0, 1, 2] ∧
      lambdaInFunction.qualifiedName spell "/" 2 = "f/<lambda>" ∧
      lambdaInFunction.outlineLine spell 2 = "    lambda(<lambda>): L=[]; NL=[y]; U=\x7by: f\x7d\n" := by
  intro spell entries
  have h : lambdaInFunction.Reachable := (Reachable.recordAll _ (.new ())).step (.finish _)
  have lists : lambdaInFunction.Lists entries := fun s => List.reverse_perm _
  have outlines := outline_faithful spell h lists
  refine ⟨h, lists, outlines.same.symm, by decide +kernel, ?_, ?_⟩
  · rw [outlines.named]
    decide +kernel
  · have entries : lambdaInFunction.entries 2 = [(⟨0⟩, .captured 1)] := by decide +kernel
    simp only [outlineLine, listing, locals, nonlocals, globals, uses, entries, List.filterMap_cons,
      List.filterMap_nil, List.filter_cons, List.filter_nil, List.map_cons, List.map_nil, reduceCtorEq,
      if_false, List.mergeSort_nil,
      List.mergeSort_singleton]
    decide +kernel

end ScopeTree

end Scoping
