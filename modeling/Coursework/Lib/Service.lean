import Coursework.Lib.Answers

/-!
# Services

A service says in each of its states which calls are allowed, and which answers a call may have with
which state after it. What follows an allowed call step by step answers whole lists of calls as the
service may.
-/
namespace Coursework

structure Service (τ κ ρ : Type*) where
  allows : τ → κ → Prop
  step : τ → κ → ρ → τ → Prop

namespace Service
variable {σ τ κ ρ : Type*}

/-- Each call is allowed, whatever the answers to the calls before it are. -/
def AllowsAll (S : Service τ κ ρ) : τ → List κ → Prop
  | _, [] => True
  | t, c :: cs => S.allows t c ∧ ∀ r t', S.step t c r t' → S.AllowsAll t' cs

inductive Run (S : Service τ κ ρ) : τ → List κ → List ρ → τ → Prop where
  | nil (t : τ) : S.Run t [] [] t
  | cons {t t' t'' : τ} {c : κ} {r : ρ} {cs : List κ} {rs : List ρ} (h : S.step t c r t')
      (hs : S.Run t' cs rs t'') : S.Run t (c :: cs) (r :: rs) t''

/-- An allowed call is answered as the service may, and the states after it are related again. -/
def Implements (S : Service τ κ ρ) (call : σ → κ → Option (σ × ρ)) (R : σ → τ → Prop) : Prop :=
  ∀ s t c, R s t → S.allows t c → ∃ s' r t', call s c = some (s', r) ∧ S.step t c r t' ∧ R s' t'

variable {S : Service τ κ ρ} {call : σ → κ → Option (σ × ρ)} {R : σ → τ → Prop}

theorem Implements.answers (h : S.Implements call R) {s : σ} {t : τ} (hR : R s t) {cs : List κ}
    (hcs : S.AllowsAll t cs) :
    ∃ s' rs t', Coursework.answers call s cs = some (s', rs) ∧ S.Run t cs rs t' ∧ R s' t' := by
  induction cs generalizing s t with
  | nil => exact ⟨s, [], t, rfl, .nil t, hR⟩
  | cons c cs ih =>
    obtain ⟨u, r, v, hcall, hstep, hR⟩ := h s t c hR hcs.1
    obtain ⟨s', rs, t', hrun, hrs, hR'⟩ := ih hR (hcs.2 r v hstep)
    exact ⟨s', r :: rs, t', answers_cons_eq_some.mpr ⟨u, r, rs, hcall, hrun, rfl⟩,
      .cons hstep hrs, hR'⟩

end Service
end Coursework
