import Mathlib.Data.Nat.Notation
import Mathlib.Tactic.TypeStar

/-!
# What steps leave alone

A step that may fail is taken over and over. Where a part of the state can be replaced without
any difference to the step, but that the part is replaced afterwards, this is so for every number
of steps.
-/
namespace Coursework

variable {σ ε ε' α α' β β' : Type*}

/-- Both outcomes are changed. -/
def relabel (f : α → α') (g : ε → ε') (x : Except ε α) : Except ε' α' := (x.map f).mapError g

variable {f : α → α'} {f' : β → β'} {g : ε → ε'}

@[simp] theorem relabel_ok (a : α) : relabel f g (.ok a) = .ok (f a) := rfl

@[simp] theorem relabel_error (e : ε) : relabel f g (.error e : Except ε α) = .error (g e) := rfl

theorem relabel_ite {c : Prop} [Decidable c] {x y : Except ε α} {x' y' : Except ε' α'}
    (hx : x' = relabel f g x) (hy : y' = relabel f g y) :
    (if c then x' else y') = relabel f g (if c then x else y) := by
  rw [hx, hy, apply_ite (relabel f g)]

/-- Two computations one after the other. -/
theorem relabel_bind {x : Except ε α} {k : α → Except ε β} {k' : α' → Except ε' β'}
    (h : ∀ a, x = .ok a → k' (f a) = relabel f' g (k a)) :
    (relabel f g x).bind k' = relabel f' g (x.bind k) := by
  cases x with
  | error e => rfl
  | ok a => exact h a rfl

/-- `n` steps, up to the first one that fails. -/
def steps (step : σ → Except ε σ) : ℕ → σ → Except ε σ
  | 0, s => .ok s
  | n + 1, s => (step s).bind (steps step n)

/-- The step does not notice the replacement `put`, and keeps it. -/
structure Untouched (step : σ → Except ε σ) (I : σ → Prop) (put : σ → σ) (putError : ε → ε) :
    Prop where
  step_put {s : σ} : I s → step (put s) = relabel put putError (step s)
  keeps {s s' : σ} : I s → step s = .ok s' → I s'

namespace Untouched
variable {step : σ → Except ε σ} {I : σ → Prop} {put : σ → σ} {putError : ε → ε} {s s' : σ}

theorem steps_put (h : Untouched step I put putError) (n : ℕ) (hs : I s) :
    steps step n (put s) = relabel put putError (steps step n s) := by
  induction n generalizing s with
  | zero => rfl
  | succ n ih =>
    rw [steps, steps, h.step_put hs]
    exact relabel_bind fun a ha => ih (h.keeps hs ha)

end Untouched
end Coursework
