import Mathlib.Data.List.Basic

/-!
# What is true of each event of a history

An event is looked at together with the events before it.
-/
namespace Coursework

variable {α : Type*} {P : List α → α → Prop} {h : List α} {x : α}

/-- Each event of `h` satisfies `P` with what came before it. -/
def EachAfter (P : List α → α → Prop) (h : List α) : Prop :=
  ∀ before x after, h = before ++ x :: after → P before x

namespace EachAfter

theorem nil : EachAfter P [] := by
  intro before x after heq
  have hlen := congrArg List.length heq
  simp at hlen

theorem concat_iff : EachAfter P (h ++ [x]) ↔ EachAfter P h ∧ P h x := by
  constructor
  · intro hall
    refine ⟨fun before y after heq => hall before y (after ++ [x]) ?_, hall h x [] rfl⟩
    rw [heq, List.append_assoc, List.cons_append]
  · rintro ⟨hall, hx⟩ before y after heq
    rcases List.eq_nil_or_concat after with rfl | ⟨after', z, rfl⟩
    · obtain ⟨rfl, hy⟩ := List.append_inj' heq rfl
      cases hy
      exact hx
    · rw [List.concat_eq_append, ← List.cons_append, ← List.append_assoc] at heq
      obtain ⟨rfl, -⟩ := List.append_inj' heq rfl
      exact hall before y after' rfl

theorem cons_iff : EachAfter P (x :: h) ↔ P [] x ∧ EachAfter (fun before => P (x :: before)) h := by
  constructor
  · intro hall
    refine ⟨hall [] x h rfl, fun before y after heq => hall (x :: before) y after ?_⟩
    rw [heq, List.cons_append]
  · rintro ⟨hx, hall⟩ before y after heq
    cases before with
    | nil =>
      cases heq
      exact hx
    | cons z before =>
      cases heq
      exact hall before y after rfl

theorem concat (hall : EachAfter P h) (hx : P h x) : EachAfter P (h ++ [x]) :=
  concat_iff.mpr ⟨hall, hx⟩

end EachAfter
end Coursework
