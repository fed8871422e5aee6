import Mathlib.Order.Defs.Unbundled
import Scoping.Steps

/-! Steps that stay within a relation. What steps leave is related to what they found, whether they
    fail or not. Steps in turn stay within a preorder if each of them does, whatever they work on,
    so the rules for code that is put together are stated here for all of it. That a property is
    kept is such a preorder. -/

namespace Scoping

section bind

variable {ε τ α β : Type} {m : EStateM ε τ α} {f : α → EStateM ε τ β} {x y z : τ}

/-- Two pieces of code in turn fail where the first fails, and otherwise end as the second does. -/
theorem bind_cases (m : EStateM ε τ α) (f : α → EStateM ε τ β) (x : τ) :
    (∃ e y, m x = .error e y ∧ (m >>= f) x = .error e y) ∨
      ∃ a y, m x = .ok a y ∧ (m >>= f) x = f a y := by
  change (∃ e y, m x = .error e y ∧ EStateM.bind m f x = .error e y) ∨
    ∃ a y, m x = .ok a y ∧ EStateM.bind m f x = f a y
  rw [EStateM.bind]
  cases m x with
  | error e y => exact .inl ⟨e, y, rfl, rfl⟩
  | ok a y => exact .inr ⟨a, y, rfl, rfl⟩

theorem bind_of_ok {a : α} (done : m x = .ok a y) (f : α → EStateM ε τ β) : (m >>= f) x = f a y := by
  change EStateM.bind m f x = _
  rw [EStateM.bind, done]

theorem bind_of_error {e : ε} (stopped : m x = .error e y) (f : α → EStateM ε τ β) :
    (m >>= f) x = .error e y := by
  change EStateM.bind m f x = _
  rw [EStateM.bind, stopped]

theorem bind_eq_ok {b : β} (done : (m >>= f) x = .ok b z) : ∃ a y, m x = .ok a y ∧ f a y = .ok b z := by
  rcases bind_cases m f x with ⟨e, y, -, failed⟩ | ⟨a, y, first, further⟩
  · rw [failed] at done
    cases done
  · exact ⟨a, y, first, further ▸ done⟩

end bind

namespace Steps

variable {ε τ α β : Type} {m : EStateM ε τ α} {f : α → EStateM ε τ β} {x y : τ} {R : τ → τ → Prop}

/-- Steps that stay within a relation, whether they fail or not. -/
def Within (R : τ → τ → Prop) (m : EStateM ε τ α) : Prop := ∀ x, R x (left (m x))

instance isPreorder_imp (P : τ → Prop) : IsPreorder τ fun x y => P x → P y where
  refl _ := id
  trans _ _ _ first second := second ∘ first

namespace Within

theorem of_ok (within : Within R m) {a : α} (done : m x = .ok a y) : R x y := by
  have related := within x
  rwa [done] at related

theorem of_error (within : Within R m) {e : ε} (stopped : m x = .error e y) : R x y := by
  have related := within x
  rwa [stopped] at related

theorem discard (within : Within R m) : Within R (Functor.discard m) := by
  intro x
  change R x (left (EStateM.map (fun _ => ()) m x))
  have related := within x
  rw [EStateM.map]
  cases run : m x <;> rw [run] at related <;> exact related

variable [IsPreorder τ R]

theorem pure (a : α) : Within R (Pure.pure a : EStateM ε τ α) := refl

theorem throw (e : ε) : Within R (MonadExcept.throw e : EStateM ε τ α) := refl

theorem bind (first : Within R m) (further : ∀ a, Within R (f a)) : Within R (m >>= f) := by
  intro x
  rcases bind_cases m f x with ⟨e, y, stopped, eq⟩ | ⟨a, y, done, eq⟩
  · rw [eq]
    exact first.of_error stopped
  · rw [eq]
    exact IsTrans.trans _ _ _ (first.of_ok done) (further a y)

theorem forM {f : α → EStateM ε τ Unit} (each : ∀ a, Within R (f a)) : ∀ l : List α, Within R (l.forM f)
  | [] => .pure ()
  | a :: l => .bind (each a) fun _ => forM each l

end Within

end Steps

end Scoping
