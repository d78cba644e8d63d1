import Mathlib.Data.List.Basic

/-!
# First in, first out

A queue keeps its law, that what went out followed by what is inside is what went in,
when every step keeps it for what moves in that step.
-/
namespace Coursework

variable {α : Type*}

theorem fifo_step {out out' now now' into into' : List α} (hi : out ++ now = into)
    (hs : now ++ into' = out' ++ now') : out ++ out' ++ now' = into ++ into' := by
  rw [← hi, List.append_assoc, ← hs, List.append_assoc]

/-! Events that carry one item each, in a record that keeps some of them. -/

theorem filterMap_map_of_some {β : Type*} {f : α → β} {g : β → Option α}
    (hg : ∀ x, g (f x) = some x) (l : List α) : (l.map f).filterMap g = l := by
  induction l with
  | nil => rfl
  | cons x l ih => rw [List.map_cons, List.filterMap_cons_some (hg x), ih]

theorem filterMap_map_of_none {β γ : Type*} {f : α → β} {g : β → Option γ}
    (hg : ∀ x, g (f x) = none) (l : List α) : (l.map f).filterMap g = [] := by
  induction l with
  | nil => rfl
  | cons x l ih => rw [List.map_cons, List.filterMap_cons_none (hg x), ih]

/-- A view that keeps less of a record. -/
theorem filterMap_sublist_of_imp {β : Type*} {f g : β → Option α}
    (h : ∀ y x, f y = some x → g y = some x) (l : List β) :
    (l.filterMap f).Sublist (l.filterMap g) := by
  induction l with
  | nil => exact List.nil_sublist _
  | cons y l ih =>
    cases hf : f y with
    | none =>
      rw [List.filterMap_cons_none hf]
      cases hg : g y with
      | none => rwa [List.filterMap_cons_none hg]
      | some z =>
        rw [List.filterMap_cons_some hg]
        exact ih.cons z
    | some x =>
      rw [List.filterMap_cons_some hf, List.filterMap_cons_some (h y x hf)]
      exact ih.cons_cons x

end Coursework
