import Mathlib.Data.Set.Basic
import Mathlib.Order.WellFounded

/-!
# Processes that wait for what others hold

A circular wait is a set of processes each of which waits for something that a process of the
set holds. Where whoever waits asks for less than everything it holds, in an order without
infinite descent, there is none, and so in every set of processes somebody is not held up.
-/
namespace Coursework

variable {π ρ : Type*} {waits holds : π → ρ → Prop} {lt : ρ → ρ → Prop} {S : Set π}

def CircularWait (waits holds : π → ρ → Prop) (S : Set π) : Prop :=
  S.Nonempty ∧ ∀ p ∈ S, ∃ r, waits p r ∧ ∃ q ∈ S, holds q r

/-- What a process waits for comes before all that it holds. -/
def TakenInOrder (lt : ρ → ρ → Prop) (waits holds : π → ρ → Prop) : Prop :=
  ∀ p r r', waits p r → holds p r' → lt r r'

namespace TakenInOrder

theorem not_circularWait (h : TakenInOrder lt waits holds) (hlt : WellFounded lt) :
    ¬ CircularWait waits holds S := by
  rintro ⟨⟨p, hp⟩, hall⟩
  -- the holder of `r` waits for something below `r`, which a process of the set holds too
  have hnone (r : ρ) : ¬ ∃ q ∈ S, holds q r := by
    induction r using hlt.induction with
    | _ r ih =>
      rintro ⟨q, hq, hholds⟩
      obtain ⟨r', hwaits, hheld⟩ := hall q hq
      exact ih r' (h q r' r hwaits hholds) hheld
  obtain ⟨r, -, hheld⟩ := hall p hp
  exact hnone r hheld

/-- In a set that is not empty somebody waits for nothing that the set holds. -/
theorem exists_not_held_up (h : TakenInOrder lt waits holds) (hlt : WellFounded lt)
    (hS : S.Nonempty) : ∃ p ∈ S, ∀ r, waits p r → ∀ q ∈ S, ¬ holds q r := by
  by_contra hcon
  apply h.not_circularWait (S := S) hlt
  refine ⟨hS, fun p hp => ?_⟩
  by_contra hfree
  apply hcon
  refine ⟨p, hp, fun r hwaits q hq hholds => ?_⟩
  exact hfree ⟨r, hwaits, q, hq, hholds⟩

end TakenInOrder
end Coursework
