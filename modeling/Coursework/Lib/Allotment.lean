import Mathlib.Data.List.Nodup
import Mathlib.Logic.Function.Basic

/-!
# Units that are allotted to owners

Marks say which units are in use. Each owner has a block of units, and the marks are right
when a unit is marked exactly if it is in a block, no two owners share a unit and no block
lists one twice. A new block of unmarked units and the return of a block keep this.
-/
namespace Coursework

variable {ι α : Type*} {marked marked' : α → Prop} {block block' : ι → List α} {i j : ι}
  {l : List α} {x : α}

structure Allotted (marked : α → Prop) (block : ι → List α) : Prop where
  nodup : ∀ i, (block i).Nodup
  disjoint : ∀ ⦃i j⦄, i ≠ j → (block i).Disjoint (block j)
  marked_iff : ∀ x, marked x ↔ ∃ i, x ∈ block i

namespace Allotted

theorem marked_of_mem (h : Allotted marked block) (hx : x ∈ block i) : marked x :=
  (h.marked_iff x).mpr ⟨i, hx⟩

/-- A unit has one owner. -/
theorem owner_unique (h : Allotted marked block) (hi : x ∈ block i) (hj : x ∈ block j) : i = j := by
  by_contra hij
  exact h.disjoint hij hi hj

/-- Marks and blocks matter only up to what they contain. -/
theorem congr (h : Allotted marked block) (hm : ∀ x, marked' x ↔ marked x)
    (hb : ∀ i, block' i = block i) : Allotted marked' block' := by
  obtain rfl : block' = block := funext hb
  exact ⟨h.nodup, h.disjoint, fun x => (hm x).trans (h.marked_iff x)⟩

/-- The units of different owners are one list without repetition. -/
theorem nodup_flatMap (h : Allotted marked block) {is : List ι} (his : is.Nodup) :
    (is.flatMap block).Nodup := by
  apply List.nodup_flatMap.mpr
  exact ⟨fun i _ => h.nodup i, his.imp fun hij => h.disjoint hij⟩

theorem marked_iff_mem (h : Allotted marked block) {is : List ι}
    (hall : ∀ i, i ∉ is → block i = []) : marked x ↔ x ∈ is.flatMap block := by
  rw [h.marked_iff, List.mem_flatMap]
  constructor
  · rintro ⟨i, hi⟩
    refine ⟨i, ?_, hi⟩
    by_contra hnot
    rw [hall i hnot] at hi
    cases hi
  · rintro ⟨i, -, hi⟩
    exact ⟨i, hi⟩

variable [DecidableEq ι]

/-- An owner without units gets a block of unmarked ones. -/
theorem allot (h : Allotted marked block) (hempty : block i = []) (hl : l.Nodup)
    (hfree : ∀ x ∈ l, ¬ marked x) (hm : ∀ x, marked' x ↔ marked x ∨ x ∈ l) :
    Allotted marked' (Function.update block i l) where
  nodup j := by
    by_cases hj : j = i
    · subst hj
      rwa [Function.update_self]
    · rw [Function.update_of_ne hj]
      exact h.nodup j
  disjoint j k hjk x hj hk := by
    by_cases hji : j = i
    · subst hji
      rw [Function.update_self] at hj
      rw [Function.update_of_ne hjk.symm] at hk
      exact hfree x hj (h.marked_of_mem hk)
    · rw [Function.update_of_ne hji] at hj
      by_cases hki : k = i
      · subst hki
        rw [Function.update_self] at hk
        exact hfree x hk (h.marked_of_mem hj)
      · rw [Function.update_of_ne hki] at hk
        exact h.disjoint hjk hj hk
  marked_iff x := by
    rw [hm, h.marked_iff]
    constructor
    · rintro (⟨j, hj⟩ | hx)
      · have hji : j ≠ i := by
          rintro rfl
          rw [hempty] at hj
          cases hj
        exact ⟨j, by rwa [Function.update_of_ne hji]⟩
      · exact ⟨i, by rwa [Function.update_self]⟩
    · rintro ⟨j, hj⟩
      by_cases hji : j = i
      · subst hji
        rw [Function.update_self] at hj
        exact .inr hj
      · rw [Function.update_of_ne hji] at hj
        exact .inl ⟨j, hj⟩

/-- An owner gives its block back. -/
theorem giveBack (h : Allotted marked block) (hm : ∀ x, marked' x ↔ marked x ∧ x ∉ block i) :
    Allotted marked' (Function.update block i []) where
  nodup j := by
    by_cases hj : j = i
    · subst hj
      rw [Function.update_self]
      exact List.nodup_nil
    · rw [Function.update_of_ne hj]
      exact h.nodup j
  disjoint j k hjk x hj hk := by
    have hji : j ≠ i := by
      rintro rfl
      rw [Function.update_self] at hj
      cases hj
    have hki : k ≠ i := by
      rintro rfl
      rw [Function.update_self] at hk
      cases hk
    rw [Function.update_of_ne hji] at hj
    rw [Function.update_of_ne hki] at hk
    exact h.disjoint hjk hj hk
  marked_iff x := by
    rw [hm, h.marked_iff]
    constructor
    · rintro ⟨⟨j, hj⟩, hx⟩
      have hji : j ≠ i := by
        rintro rfl
        exact hx hj
      exact ⟨j, by rwa [Function.update_of_ne hji]⟩
    · rintro ⟨j, hj⟩
      have hji : j ≠ i := by
        rintro rfl
        rw [Function.update_self] at hj
        cases hj
      rw [Function.update_of_ne hji] at hj
      exact ⟨⟨j, hj⟩, fun hx => h.disjoint hji hj hx⟩

end Allotted
end Coursework
