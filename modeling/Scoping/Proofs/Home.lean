import Scoping.Proofs.Targets
import Scoping.Proofs.Resolution

/-! Where names live. The home of a name is the scope at hand if that scope binds the name, and
    otherwise a sound target or the global scope. So a home is the scope at hand or one around it, it
    binds the name unless it is the global scope, and from the home itself the name lives there too. The
    scopes around that may be a home are those that can be a target, hence never the body of a class. -/

namespace Scoping

namespace ScopeTree

variable {π : Type} {t : ScopeTree π} {s : ScopeId} {n : Ident}

theorem home_of_bound (bound : t.entryAt? s n = some .bound) : t.home s n = s := by
  simp only [home, bound]

theorem home_of_captured {target : ScopeId} (captured : t.entryAt? s n = some (.captured target)) :
    t.home s n = target := by
  simp only [home, captured]

theorem home_of_global {declared : Bool} (global : t.entryAt? s n = some (.global declared)) :
    t.home s n = ScopeId.root := by
  simp only [home, global]

/-! ### The three ways to a home -/

/-- A name lives in the scope at hand, which binds it, or in a sound target, or in the global scope. -/
theorem TargetsSound.home_cases (k : t.TargetsSound) (h : t.WellFormed) (s : ScopeId) (n : Ident) :
    t.entryAt? s n = some .bound ∧ t.home s n = s ∨ SoundTarget t s n (t.home s n) ∨
      t.home s n = ScopeId.root := by
  have searched (free : t.Undecided s n) :
      SoundTarget t s n (t.home s n) ∨ t.home s n = ScopeId.root := by
    rw [home_of_undecided free]
    cases found : t.capture? s n with
    | none => exact .inr rfl
    | some target => exact .inl (k.capture h found)
  cases entry : t.entryAt? s n with
  | none => exact .inr (searched (.inl entry))
  | some e =>
    cases e with
    | used => exact .inr (searched (.inr entry))
    | bound => exact .inl ⟨rfl, home_of_bound entry⟩
    | captured target =>
      rw [home_of_captured entry]
      exact .inr (.inl (k s n target entry))
    | global declared => exact .inr (.inr (home_of_global entry))

/-- Every name that the global scope knows or does not know lives there, as seen from there. -/
theorem TargetsSound.home_root (k : t.TargetsSound) (h : t.WellFormed) (n : Ident) :
    t.home ScopeId.root n = ScopeId.root := by
  rcases k.home_cases h ScopeId.root n with ⟨-, here⟩ | sound | root
  · exact here
  · have around := sound.around
    rw [h.enclosing_root] at around
    cases around
  · exact root

theorem TargetsSound.home_mem_path (k : t.TargetsSound) (h : t.WellFormed) (hs : s ∈ t) (n : Ident) :
    t.home s n ∈ t.path s := by
  rcases k.home_cases h s n with ⟨-, here⟩ | sound | root
  · rw [here]
    exact List.mem_cons_self
  · exact List.mem_cons_of_mem s sound.around
  · rw [root]
    exact h.root_mem_path hs

theorem TargetsSound.home_bound (k : t.TargetsSound) (h : t.WellFormed) (s : ScopeId) (n : Ident) :
    t.entryAt? (t.home s n) n = some .bound ∨ t.home s n = ScopeId.root := by
  rcases k.home_cases h s n with ⟨bound, here⟩ | sound | root
  · rw [here]
    exact .inl bound
  · exact .inl sound.bound
  · exact .inr root

theorem TargetsSound.home_home (k : t.TargetsSound) (h : t.WellFormed) (s : ScopeId) (n : Ident) :
    t.home (t.home s n) n = t.home s n := by
  rcases k.home_bound h s n with bound | root
  · exact home_of_bound bound
  · rw [root]
    exact k.home_root h n

/-- A home around a scope is visible from there. -/
theorem TargetsSound.home_kind (k : t.TargetsSound) (h : t.WellFormed) (away : t.home s n ≠ s) :
    t.home s n = ScopeId.root ∨ t.isClosed (t.home s n) ∨ t.kind? (t.home s n) = some .toplevel := by
  rcases k.home_cases h s n with ⟨-, here⟩ | sound | root
  · exact absurd here away
  · exact .inr sound.kind
  · exact .inl root

/-- What can be the home of a name of another scope is no class. -/
theorem WellFormed.kind_ne_classBody (h : t.WellFormed)
    (visible : s = ScopeId.root ∨ t.isClosed s ∨ t.kind? s = some .toplevel) :
    t.kind? s ≠ some .classBody := by
  intro body
  rcases visible with rfl | closed | top
  · rw [h.kind_root] at body
    cases body
  · rw [isClosed, body] at closed
    cases closed
  · rw [top] at body
    cases body

/-! ### Main result -/

/-- The home of a name is the scope at hand or one around it, and binds the name unless it is the
    global scope; a class is a home for its own body alone. -/
theorem home_sound (h : t.Reachable) (hs : s ∈ t) (n : Ident) :
    (t.home s n = s ∨ t.home s n ∈ t.enclosing s) ∧
      (t.entryAt? (t.home s n) n = some .bound ∨ t.home s n = ScopeId.root) ∧
      t.home (t.home s n) n = t.home s n ∧
      (t.home s n ≠ s →
        (t.home s n = ScopeId.root ∨ t.isClosed (t.home s n) ∨ t.kind? (t.home s n) = some .toplevel) ∧
        t.kind? (t.home s n) ≠ some .classBody) := by
  have k := h.targetsSound
  have wf := h.wellFormed
  refine ⟨List.mem_cons.mp (k.home_mem_path wf hs n), k.home_bound wf s n, k.home_home wf s n, ?_⟩
  intro away
  have visible := k.home_kind wf away
  exact ⟨visible, wf.kind_ne_classBody visible⟩

/-- A lambda in a method reads a name that the class binds and one that the method binds. -/
theorem home_sound_methodInClass :
    methodInClass.Reachable ∧ 3 ∈ methodInClass ∧
      methodInClass.kind? 1 = some .classBody ∧ methodInClass.entryAt? 1 ⟨2⟩ = some .bound ∧
      methodInClass.home 3 ⟨2⟩ = ScopeId.root ∧ methodInClass.home 3 ⟨1⟩ = 2 ∧
      methodInClass.entryAt? 2 ⟨1⟩ = some .bound := by
  have h : methodInClass.Reachable := Reachable.recordAll _ (Reachable.new ())
  have mem : 3 ∈ methodInClass := by decide
  have home : methodInClass.home 3 ⟨1⟩ = 2 := by decide
  obtain ⟨-, bound, -⟩ := home_sound h mem ⟨1⟩
  rw [home] at bound
  exact ⟨h, mem, by decide, by decide, by decide, home, bound.resolve_right (by decide)⟩

end ScopeTree

end Scoping
