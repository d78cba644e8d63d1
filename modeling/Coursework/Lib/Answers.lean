import Mathlib.Data.Option.Basic
import Mathlib.Data.List.Basic

/-!
# Operations that answer

An operation on a state may fail, or gives a state and an answer. One system simulates
another when it can follow each of its steps with the same answer, and then its runs give the
same answers.
-/
namespace Coursework

variable {σ τ ε δ ρ α : Type*}

/-- The answers of a list of operations, one after the other. -/
def answers (step : σ → ε → Option (σ × ρ)) : σ → List ε → Option (σ × List ρ)
  | s, [] => some (s, [])
  | s, e :: es => do
    let (s, r) ← step s e
    let (s, rs) ← answers step s es
    some (s, r :: rs)

variable {step : σ → ε → Option (σ × ρ)}

theorem answers_cons_eq_some {s s' : σ} {e : ε} {es : List ε} {rs : List ρ} :
    answers step s (e :: es) = some (s', rs) ↔
      ∃ u r rs', step s e = some (u, r) ∧ answers step u es = some (s', rs') ∧ rs = r :: rs' := by
  rw [answers]
  simp only [Option.bind_eq_bind, Option.bind_eq_some_iff, Prod.exists, Option.some.injEq,
    Prod.mk.injEq]
  constructor
  · rintro ⟨u, r, hs, s'', rs', hrs, rfl, rfl⟩
    exact ⟨u, r, rs', hs, hrs, rfl⟩
  · rintro ⟨u, r, rs', hs, hrs, rfl⟩
    exact ⟨u, r, hs, s', rs', hrs, rfl, rfl⟩

/-- A step that follows every step of the abstract system makes a run that follows every run. -/
theorem answers_simulate {step' : τ → δ → Option (τ × α)} {R : σ → τ → Prop} {P : ε → Prop}
    {op : ε → δ} {ans : α → ρ}
    (hstep : ∀ s t e t' a, R s t → P e → step' t (op e) = some (t', a) →
      ∃ s', step s e = some (s', ans a) ∧ R s' t')
    {s : σ} {t t' : τ} {es : List ε} {as : List α} (hr : R s t) (hes : ∀ e ∈ es, P e)
    (h : answers step' t (es.map op) = some (t', as)) :
    ∃ s', answers step s es = some (s', as.map ans) ∧ R s' t' := by
  induction es generalizing s t as with
  | nil =>
    cases h
    exact ⟨s, rfl, hr⟩
  | cons e es ih =>
    obtain ⟨u, a, as', hu, has, rfl⟩ := answers_cons_eq_some.mp h
    obtain ⟨v, hv, hr'⟩ := hstep s t e u a hr (hes e List.mem_cons_self) hu
    obtain ⟨s', hs', hr''⟩ := ih hr' (fun o ho => hes o (.tail _ ho)) has
    exact ⟨s', answers_cons_eq_some.mpr ⟨v, ans a, as'.map ans, hv, hs', rfl⟩, hr''⟩

end Coursework
