import Mathlib.Data.List.Sort
import Mathlib.Data.List.TakeWhile
import Mathlib.Order.Defs.LinearOrder

/-!
# Lists in the order of their keys

An entry is put behind all entries whose key is not greater, so that entries with equal keys
stay in the order in which they came.
-/
namespace Coursework

variable {κ α : Type*} [LinearOrder κ] {e : κ × α} {l l₁ l₂ : List (κ × α)}

def insertByKey (e : κ × α) (l : List (κ × α)) : List (κ × α) :=
  l.orderedInsert (fun a b => a.1 < b.1) e

/-- Keys do not decrease along the list. -/
def KeySorted (l : List (κ × α)) : Prop := l.Pairwise fun a b => a.1 ≤ b.1

theorem insertByKey_perm : (insertByKey e l).Perm (e :: l) := List.perm_orderedInsert _ e l

theorem mem_insertByKey {x : κ × α} : x ∈ insertByKey e l ↔ x = e ∨ x ∈ l := by
  rw [insertByKey_perm.mem_iff, List.mem_cons]

theorem insertByKey_cons_of_lt {x : κ × α} (h : e.1 < x.1) :
    insertByKey e (x :: l) = e :: x :: l :=
  List.orderedInsert_cons_of_le _ l h

theorem insertByKey_cons_of_le {x : κ × α} (h : x.1 ≤ e.1) :
    insertByKey e (x :: l) = x :: insertByKey e l :=
  List.orderedInsert_of_not_le _ l (not_lt_of_ge h)

/-- The place of an entry is where the keys become greater. -/
theorem insertByKey_append (h₁ : ∀ x ∈ l₁, x.1 ≤ e.1) (h₂ : ∀ y ∈ l₂.head?, e.1 < y.1) :
    insertByKey e (l₁ ++ l₂) = l₁ ++ e :: l₂ := by
  induction l₁ with
  | nil =>
    cases l₂ with
    | nil => rfl
    | cons y l₂ => exact insertByKey_cons_of_lt (h₂ y rfl)
  | cons x l₁ ih =>
    rw [List.cons_append, insertByKey_cons_of_le (h₁ x List.mem_cons_self), List.cons_append,
      ih fun z hz => h₁ z (List.mem_cons_of_mem x hz)]

/-- An entry goes before the first one whose key is greater. -/
theorem insertByKey_eq (e : κ × α) (l : List (κ × α)) :
    insertByKey e l = (l.takeWhile fun x => x.1 ≤ e.1) ++ e :: l.dropWhile fun x => x.1 ≤ e.1 := by
  rw [insertByKey, List.orderedInsert_eq_take_drop]
  simp only [not_lt]

theorem KeySorted.insert (hl : KeySorted l) : KeySorted (insertByKey e l) := by
  induction l with
  | nil => exact List.pairwise_singleton _ e
  | cons x l ih =>
    obtain ⟨hx, hl⟩ := List.pairwise_cons.mp hl
    rcases lt_or_ge e.1 x.1 with h | h
    · rw [insertByKey_cons_of_lt h]
      refine List.pairwise_cons.mpr ⟨?_, List.pairwise_cons.mpr ⟨hx, hl⟩⟩
      intro y hy
      rcases List.mem_cons.mp hy with rfl | hy
      · exact h.le
      · exact h.le.trans (hx y hy)
    · rw [insertByKey_cons_of_le h]
      refine List.pairwise_cons.mpr ⟨?_, ih hl⟩
      intro y hy
      rcases mem_insertByKey.mp hy with rfl | hy
      · exact h
      · exact hx y hy

theorem KeySorted.head_le {x : κ × α} (hl : KeySorted (x :: l)) : ∀ y ∈ l, x.1 ≤ y.1 :=
  (List.pairwise_cons.mp hl).1

theorem KeySorted.tail {x : κ × α} (hl : KeySorted (x :: l)) : KeySorted l :=
  (List.pairwise_cons.mp hl).2

/-- In a sorted list an entry goes behind all entries with its key. -/
theorem KeySorted.insert_split (hl : KeySorted l) (e : κ × α) :
    ∃ l₁ l₂, l = l₁ ++ l₂ ∧ insertByKey e l = l₁ ++ e :: l₂ ∧ (∀ x ∈ l₁, x.1 ≤ e.1) ∧
      ∀ y ∈ l₂, e.1 < y.1 := by
  refine ⟨_, _, List.takeWhile_append_dropWhile.symm, insertByKey_eq e l, fun x hx => ?_, ?_⟩
  · have hle := List.mem_takeWhile_imp hx
    exact of_decide_eq_true hle
  · cases hdrop : l.dropWhile fun x => x.1 ≤ e.1 with
    | nil => exact nofun
    | cons y l₂ =>
      have hy : e.1 < y.1 := by
        have hhead := List.head_dropWhile_not (fun x : κ × α => x.1 ≤ e.1) (l := l) (by simp [hdrop])
        simpa [hdrop] using hhead
      have hsorted : KeySorted (y :: l₂) :=
        hl.sublist (hdrop ▸ List.dropWhile_sublist _)
      intro z hz
      rcases List.mem_cons.mp hz with rfl | hz
      · exact hy
      · exact hy.trans_le (hsorted.head_le z hz)

end Coursework
