import Coursework.Lib.Machine

/-!
# Machines inside a machine

A component of a state moves when a step of the whole is also a step of the component. What is
known of the component's own runs then holds of it inside the whole, and its onlooker sees a
part of what is seen of the whole.
-/
namespace Coursework.Machine

variable {σ ε α τ δ β : Type*}

/-- The component stays where it is, or it takes a step of its own that meets `ok`. -/
inductive Follows (N : Machine τ δ) (see : τ → δ → List β) (ok : τ × List β → δ → Prop)
    (p : τ × List β) : List β → τ → Prop where
  | idle : Follows N see ok p [] p.1
  | step {d t'} (hok : ok p d) (hs : N.step p.1 d = some t') : Follows N see ok p (see p.1 d) t'

variable {N : Machine τ δ} {see : τ → δ → List β} {ok : τ × List β → δ → Prop}

theorem Follows.of_eq {p : τ × List β} {l : List β} {t' : τ} (hl : l = []) (ht : t' = p.1) :
    Follows N see ok p l t' := by
  subst hl ht
  exact .idle

theorem Reach.follows {p : τ × List β} {l : List β} {t' : τ} (hr : (N.observe see).Reach ok p)
    (hf : Follows N see ok p l t') : (N.observe see).Reach ok (t', p.2 ++ l) := by
  cases hf with
  | idle => rwa [List.append_nil]
  | step hok hs => exact hr.step hok (observe_step.mpr ⟨hs, rfl⟩)

/-- A component that follows every step of the whole is on a run of its own. -/
theorem Reach.component {M : Machine σ ε} {seeM : σ → ε → List α} {okM : σ × List α → ε → Prop}
    (π : σ → τ) (view : α → Option β) (h0 : ∀ s, M.init s → N.init (π s))
    (hstep : ∀ p e s', okM p e → M.step p.1 e = some s' →
      Follows N see ok (π p.1, p.2.filterMap view) ((seeM p.1 e).filterMap view) (π s'))
    {p : σ × List α} (hr : (M.observe seeM).Reach okM p) :
    (N.observe see).Reach ok (π p.1, p.2.filterMap view) := by
  induction hr with
  | @init p hi => exact .init ⟨h0 _ hi.1, by rw [hi.2, List.filterMap_nil]⟩
  | @step p p' e hr hok hs ih =>
    obtain ⟨hs, hseen⟩ := observe_step.mp hs
    have hf := ih.follows (hstep p e _ hok hs)
    rwa [← List.filterMap_append, ← hseen] at hf

end Coursework.Machine
