import Mathlib.Data.List.Basic
import Mathlib.Data.List.TakeWhile

/-!
# Strings in an array of characters

An array holds a string when the string and a zero byte stand at its start. A write beyond the
end of the array is `none`.
-/
namespace Coursework.CString

/-- The characters before the first zero. -/
def text (b : List UInt8) : List UInt8 := b.takeWhile (· ≠ 0)

/-- `b[i] = c`. -/
def store (b : List UInt8) (i : ℕ) (c : UInt8) : Option (List UInt8) :=
  if i < b.length then some (b.set i c) else none

/-- `strcpy(&b[i], s)`. -/
def strcpy (b : List UInt8) (i : ℕ) (s : List UInt8) : Option (List UInt8) :=
  if i + s.length < b.length then some (b.take i ++ s ++ 0 :: b.drop (i + s.length + 1)) else none

/-- `strcat(b, s)`. -/
def strcat (b s : List UInt8) : Option (List UInt8) := strcpy b (text b).length s

/-- `strncpy(b, s, n)`. -/
def strncpy (b s : List UInt8) (n : ℕ) : Option (List UInt8) :=
  if n ≤ b.length then some (s.take n ++ List.replicate (n - s.length) 0 ++ b.drop n) else none

/-- The end of `s` from the last `c` onward. -/
def strrchr (s : List UInt8) (c : UInt8) : Option (List UInt8) :=
  match s with
  | [] => none
  | x :: s => (strrchr s c).or (if x = c then some (x :: s) else none)

/-- The array starts with the string and its end. -/
structure Holds (b s : List UInt8) : Prop where
  nonzero : 0 ∉ s
  starts : s ++ [0] <+: b

variable {b b' p s : List UInt8} {c : UInt8}

theorem Holds.startsWith (h : Holds b s) : s <+: b := (List.prefix_append s [0]).trans h.starts

theorem Holds.length_lt (h : Holds b s) : s.length < b.length := by
  have hle := h.starts.length_le
  rwa [List.length_append, List.length_singleton] at hle

theorem Holds.text_eq (h : Holds b s) : text b = s := by
  obtain ⟨rest, rfl⟩ := h.starts
  have hall : ∀ x ∈ s, decide (x ≠ 0) = true := by
    intro x hx
    exact decide_eq_true fun h0 => h.nonzero (h0 ▸ hx)
  rw [text, List.append_assoc, List.takeWhile_append_of_pos hall]
  exact List.append_nil s

theorem strcpy_holds (hp : p <+: b) (h0 : 0 ∉ p ++ s) (hfits : (p ++ s).length < b.length) :
    ∃ b', strcpy b p.length s = some b' ∧ Holds b' (p ++ s) ∧ b'.length = b.length := by
  obtain ⟨rest, rfl⟩ := hp
  rw [List.length_append] at hfits
  refine ⟨_, if_pos hfits, ⟨h0, ?_⟩, ?_⟩
  · rw [List.take_left]
    exact (List.prefix_append_right_inj (p ++ s)).mpr (List.prefix_append [0] _)
  · simp only [List.length_append, List.length_cons, List.length_take, List.length_drop] at *
    omega

theorem strcat_holds (h : Holds b p) (h0 : 0 ∉ p ++ s) (hfits : (p ++ s).length < b.length) :
    ∃ b', strcat b s = some b' ∧ Holds b' (p ++ s) ∧ b'.length = b.length := by
  rw [strcat, h.text_eq]
  exact strcpy_holds h.startsWith h0 hfits

theorem strncpy_holds {n : ℕ} (h0 : 0 ∉ s) (hs : s.length < n) (hn : n ≤ b.length) :
    ∃ b', strncpy b s n = some b' ∧ Holds b' s ∧ b'.length = b.length := by
  obtain ⟨k, hk⟩ : ∃ k, n - s.length = k + 1 := Nat.exists_eq_succ_of_ne_zero (by omega)
  refine ⟨_, if_pos hn, ⟨h0, List.replicate k 0 ++ b.drop n, ?_⟩, ?_⟩
  · rw [List.take_of_length_le hs.le, hk, List.replicate_succ]
    simp
  · simp only [List.length_append, List.length_take, List.length_replicate, List.length_drop]
    omega

/-- A character is written over the end of the string, and an end behind it. -/
theorem store_holds (h : Holds b s) (hc : c ≠ 0) (hfits : (s ++ [c]).length < b.length) :
    ∃ b₁ b', store b s.length c = some b₁ ∧ store b₁ (s.length + 1) 0 = some b' ∧
      Holds b' (s ++ [c]) ∧ b'.length = b.length := by
  obtain ⟨rest, hrest⟩ := h.starts
  have hlen : (s ++ [c]).length = s.length + 1 := List.length_append
  rw [hlen] at hfits
  refine ⟨_, _, if_pos h.length_lt, if_pos ?_, ⟨?_, ?_⟩, ?_⟩
  · rwa [List.length_set]
  · intro hmem
    rcases List.mem_append.mp hmem with hs | hs
    · exact h.nonzero hs
    · exact hc (List.mem_singleton.mp hs).symm
  · cases rest with
    | nil =>
      rw [← hrest] at hfits
      simp at hfits
    | cons x rest =>
      rw [← hrest]
      refine ⟨rest, ?_⟩
      simp
  · rw [List.length_set, List.length_set]

/-- The string is cut before a character of it. -/
theorem store_cut (hp : s ++ [c] <+: b) (h0 : 0 ∉ s) :
    ∃ b', store b s.length 0 = some b' ∧ Holds b' s ∧ b'.length = b.length := by
  obtain ⟨rest, rfl⟩ := hp
  refine ⟨_, if_pos ?_, ⟨h0, rest, ?_⟩, List.length_set⟩
  · simp only [List.length_append, List.length_singleton]
    omega
  · simp

theorem strrchr_of_not_mem (h : c ∉ s) : strrchr s c = none := by
  induction s with
  | nil => rfl
  | cons x s ih =>
    rw [List.mem_cons, not_or] at h
    rw [strrchr, ih h.2, if_neg (Ne.symm h.1)]
    rfl

theorem isSome_strrchr (h : c ∈ s) : (strrchr s c).isSome := by
  induction s with
  | nil => cases h
  | cons x s ih =>
    rw [strrchr, Option.isSome_or, Bool.or_eq_true]
    rcases List.mem_cons.mp h with rfl | hs
    · rw [if_pos rfl]
      exact .inr rfl
    · exact .inl (ih hs)

theorem strrchr_append (p : List UInt8) (h : c ∉ s) : strrchr (p ++ c :: s) c = some (c :: s) := by
  induction p with
  | nil =>
    rw [List.nil_append, strrchr, strrchr_of_not_mem h, if_pos rfl]
    rfl
  | cons x p ih =>
    rw [List.cons_append, strrchr, ih]
    rfl

end Coursework.CString
