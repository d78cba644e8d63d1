import Mathlib.Data.Int.Notation
import Mathlib.Algebra.Order.Ring.Int
import Mathlib.Data.Nat.Notation
import Mathlib.Logic.Function.Basic
import Mathlib.Tactic.SplitIfs

/-!
# Memory as bytes, and words in it

A pointer gives a byte for each offset. Copies change a range of offsets and words are four
bytes, the least significant one first. The image of an array of words is its memory, and
reading words from an image gives the array back. Strings end at the first zero byte, and
`strncmp` compares as many characters as it is told.
-/
namespace Coursework

/-- The bytes from a pointer onward. -/
abbrev Mem := ℕ → UInt8

/-- Byte `i` of a word. -/
def byteOf (w : BitVec 32) (i : ℕ) : UInt8 := UInt8.ofNat (w.toNat / 256 ^ i)

theorem getLsbD_byteOf (w : BitVec 32) (i : ℕ) {j : ℕ} (hj : j < 8) :
    (byteOf w i).toBitVec.getLsbD j = w.getLsbD (8 * i + j) := by
  have hpow : 256 ^ i = 2 ^ (8 * i) := by rw [Nat.pow_mul]
  rw [byteOf, UInt8.toBitVec_ofNat', BitVec.getLsbD_ofNat, hpow, Nat.testBit_div_two_pow,
    decide_eq_true hj, Bool.true_and, Nat.add_comm, BitVec.getLsbD]

/-- A byte is its bits. -/
theorem byteOf_congr {w w' : BitVec 32} {i i' : ℕ}
    (h : ∀ j < 8, w.getLsbD (8 * i + j) = w'.getLsbD (8 * i' + j)) : byteOf w i = byteOf w' i' := by
  apply UInt8.toBitVec_inj.mp
  apply BitVec.eq_of_getLsbD_eq
  intro j hj
  rw [getLsbD_byteOf w i hj, getLsbD_byteOf w' i' hj, h j hj]

/-- Words with the same lowest bytes. -/
theorem mod_of_bytes {w w' : BitVec 32} {n : ℕ} (h : ∀ i < n, byteOf w i = byteOf w' i) :
    w.toNat % 2 ^ (8 * n) = w'.toNat % 2 ^ (8 * n) := by
  apply Nat.eq_of_testBit_eq
  intro k
  rw [Nat.testBit_mod_two_pow, Nat.testBit_mod_two_pow]
  by_cases hk : k < 8 * n
  · have hbit := congrArg (fun b : UInt8 => b.toBitVec.getLsbD (k % 8)) (h (k / 8) (by omega))
    simp only [getLsbD_byteOf _ _ (Nat.mod_lt k (by decide : 0 < 8)), Nat.div_add_mod] at hbit
    rw [decide_eq_true hk, Bool.true_and, Bool.true_and]
    exact hbit
  · rw [decide_eq_false hk, Bool.false_and, Bool.false_and]

namespace Mem

/-- `n` bytes from `src` are copied to offset `at`. -/
def copy (m : Mem) (off n : ℕ) (src : Mem) : Mem := fun j =>
  if off ≤ j ∧ j < off + n then src (j - off) else m j

/-- The pointer to offset `off`. -/
def drop (m : Mem) (off : ℕ) : Mem := fun j => m (off + j)

/-- The word whose bytes start at offset `off`. -/
def word (m : Mem) (off : ℕ) : BitVec 32 :=
  .ofNat 32 ((m off).toNat + 256 * (m (off + 1)).toNat + 256 ^ 2 * (m (off + 2)).toNat +
    256 ^ 3 * (m (off + 3)).toNat)

/-- The memory of an array of words. -/
def image (w : ℕ → BitVec 32) : Mem := fun j => byteOf (w (j / 4)) (j % 4)

/-- The memory of a structure of words. -/
def words (l : List (BitVec 32)) : Mem := image fun i => l.getD i 0

/-- The first `n` bytes. -/
def bytes (m : Mem) (n : ℕ) : List UInt8 := (List.range n).map m

/-- The first `n` characters of a string, with zeros from its end onward. -/
def chars (n : ℕ) (s : Mem) : Mem := fun j => if j < n ∧ ∀ k < j, s k ≠ 0 then s j else 0

/-- The standard function: the difference of the first characters that are not the same. -/
def strncmp (s t : Mem) : ℕ → ℤ
  | 0 => 0
  | n + 1 =>
    if s 0 ≠ t 0 then ((s 0).toNat : ℤ) - (t 0).toNat
    else if s 0 = 0 then 0
    else strncmp (s.drop 1) (t.drop 1) n

/-- The standard function, into offset `off`; the rest of the `n` bytes is filled with zeros. -/
def strncpy (m : Mem) (off : ℕ) (s : Mem) (n : ℕ) : Mem := m.copy off n (s.chars n)

/-- The first `n` bytes are the same. -/
def Agree (n : ℕ) (m m' : Mem) : Prop := ∀ j < n, m j = m' j

variable {m m' src : Mem} {n k off : ℕ} {w : BitVec 32}

theorem copy_of_mem {j : ℕ} (h : off ≤ j) (h' : j < off + n) :
    m.copy off n src j = src (j - off) := if_pos ⟨h, h'⟩

theorem copy_of_not_mem {j : ℕ} (h : j < off ∨ off + n ≤ j) : m.copy off n src j = m j :=
  if_neg (by omega)

theorem copy_zero : m.copy off 0 src = m := by
  funext j
  exact copy_of_not_mem (by omega)

theorem Agree.trans {m₁ m₂ m₃ : Mem} (h : Agree n m₁ m₂) (h' : Agree n m₂ m₃) :
    Agree n m₁ m₃ := fun j hj => (h j hj).trans (h' j hj)

theorem Agree.mono (h : Agree n m m') (hk : k ≤ n) : Agree k m m' := fun j hj => h j (by omega)

theorem agree_copy : Agree n (m.copy 0 n src) src := fun j hj => copy_of_mem (by omega) (by omega)

/-- Four bytes of `w` in memory are the word `w`. -/
theorem word_of_bytes (h : ∀ i < 4, m (off + i) = byteOf w i) : m.word off = w := by
  have h0 : (m off).toNat = w.toNat % 256 := by
    have h0 := h 0 (by omega)
    rw [Nat.add_zero] at h0
    simp [h0, byteOf]
  have h1 : (m (off + 1)).toNat = w.toNat / 256 % 256 := by simp [h 1, byteOf]
  have h2 : (m (off + 2)).toNat = w.toNat / 65536 % 256 := by simp [h 2, byteOf]
  have h3 : (m (off + 3)).toNat = w.toNat / 16777216 % 256 := by simp [h 3, byteOf]
  apply BitVec.eq_of_toNat_eq
  have hw := w.isLt
  rw [word, BitVec.toNat_ofNat, h0, h1, h2, h3]
  omega

theorem byteOf_word (m : Mem) (off : ℕ) {i : ℕ} (hi : i < 4) :
    byteOf (m.word off) i = m (off + i) := by
  have h0 := (m off).toNat_lt
  have h1 := (m (off + 1)).toNat_lt
  have h2 := (m (off + 2)).toNat_lt
  have h3 := (m (off + 3)).toNat_lt
  apply UInt8.toNat_inj.mp
  rw [byteOf, word, BitVec.toNat_ofNat, UInt8.toNat_ofNat']
  have hcases : i = 0 ∨ i = 1 ∨ i = 2 ∨ i = 3 := by omega
  rcases hcases with rfl | rfl | rfl | rfl
  · change _ = (m off).toNat
    omega
  all_goals omega

/-- A word is read from its four bytes. -/
theorem word_congr (h : ∀ i < 4, m (off + i) = m' (k + i)) : m.word off = m'.word k := by
  have h0 : m off = m' k := h 0 (by omega)
  rw [word, word, h0, h 1 (by omega), h 2 (by omega), h 3 (by omega)]

theorem word_image (w : ℕ → BitVec 32) (k : ℕ) : (image w).word (4 * k) = w k := by
  apply word_of_bytes
  intro i hi
  rw [image, show (4 * k + i) / 4 = k by omega, show (4 * k + i) % 4 = i by omega]

theorem word_words (l : List (BitVec 32)) (k : ℕ) : (words l).word (4 * k) = l.getD k 0 :=
  word_image _ k

theorem bytes_congr (h : Agree n m m') : m.bytes n = m'.bytes n := by
  apply List.map_congr_left
  intro j hj
  exact h j (List.mem_range.mp hj)

theorem bytes_append (m : Mem) (n k : ℕ) : m.bytes n ++ (m.drop n).bytes k = m.bytes (n + k) := by
  rw [bytes, bytes, bytes, List.range_add, List.map_append, List.map_map]
  rfl

theorem length_bytes (m : Mem) (n : ℕ) : (m.bytes n).length = n := by
  rw [bytes, List.length_map, List.length_range]

theorem getD_bytes {j : ℕ} (hj : j < n) : (m.bytes n).getD j 0 = m j := by
  rw [List.getD_eq_getElem?_getD, bytes, List.getElem?_map, List.getElem?_range hj]
  rfl

theorem bytes_take {p len : ℕ} (h : p ≤ len) : (m.bytes len).take p = m.bytes p := by
  rw [← Nat.add_sub_of_le h, ← bytes_append, List.take_left' (length_bytes m p)]

theorem bytes_drop {p len : ℕ} (h : p ≤ len) :
    (m.bytes len).drop p = (m.drop p).bytes (len - p) := by
  nth_rewrite 1 [← Nat.add_sub_of_le h]
  rw [← bytes_append, List.drop_left' (length_bytes m p)]

/-- The bytes of a copy: some are new, those before and those behind are old. -/
theorem bytes_copy {p len : ℕ} (h : p + n ≤ len) : (m.copy p n src).bytes len =
    (m.bytes len).take p ++ src.bytes n ++ (m.bytes len).drop (p + n) := by
  have hsplit : p + n + (len - (p + n)) = len := Nat.add_sub_of_le h
  have hold : (m.copy p n src).bytes p = m.bytes p :=
    bytes_congr fun j hj => copy_of_not_mem (.inl hj)
  have hnew : ((m.copy p n src).drop p).bytes n = src.bytes n := by
    apply bytes_congr
    intro j hj
    rw [drop, copy_of_mem (by omega) (by omega), Nat.add_sub_cancel_left]
  have hrest : ((m.copy p n src).drop (p + n)).bytes (len - (p + n)) =
      (m.drop (p + n)).bytes (len - (p + n)) := by
    apply bytes_congr
    intro j _
    rw [drop, copy_of_not_mem (.inr (by omega)), drop]
  rw [bytes_take (by omega), bytes_drop h]
  nth_rewrite 1 [← hsplit]
  rw [← bytes_append, ← bytes_append, hold, hnew, hrest]

theorem bytes_getD (l : List UInt8) : bytes (fun j => l.getD j 0) l.length = l := by
  apply List.ext_getElem
  · rw [bytes, List.length_map, List.length_range]
  · intro j hj hj'
    simp only [bytes, List.getElem_map, List.getElem_range, List.getD_eq_getElem?_getD,
      List.getElem?_eq_getElem hj', Option.getD_some]

theorem drop_zero (m : Mem) : m.drop 0 = m := by
  funext j
  rw [drop, Nat.zero_add]

theorem drop_drop (m : Mem) (n k : ℕ) : (m.drop n).drop k = m.drop (n + k) := by
  funext j
  rw [drop, drop, drop, Nat.add_assoc]

theorem Agree.word (h : Agree n m m') (hk : off + 4 ≤ n) : m.word off = m'.word off :=
  word_congr fun i hi => h (off + i) (by omega)

theorem Agree.drop (h : Agree (off + n) m m') : Agree n (m.drop off) (m'.drop off) :=
  fun j hj => h (off + j) (by omega)

/-! ### Strings -/

variable {s t : Mem}

theorem chars_congr (h : Agree n s t) : s.chars n = t.chars n := by
  funext j
  rw [chars, chars]
  by_cases hj : j < n
  · rw [h j hj]
    have hall : (∀ k < j, s k ≠ 0) ↔ ∀ k < j, t k ≠ 0 := by
      apply forall₂_congr
      intro k hk
      rw [h k (by omega)]
    simp only [hall]
  · rw [if_neg fun hj' => hj hj'.1, if_neg fun hj' => hj hj'.1]

theorem chars_chars : (s.chars n).chars n = s.chars n := by
  funext j
  by_cases hj : j < n ∧ ∀ k < j, s.chars n k ≠ 0
  · rw [chars, if_pos hj]
  · rw [chars, if_neg hj, chars, if_neg]
    rintro ⟨hjn, hall⟩
    apply hj
    refine ⟨hjn, fun k hk => ?_⟩
    rw [chars, if_pos ⟨by omega, fun i hi => hall i (by omega)⟩]
    exact hall k hk

theorem chars_strncpy : ((m.strncpy off s n).drop off).chars n = s.chars n := by
  have hagree : Agree n ((m.strncpy off s n).drop off) (s.chars n) := by
    intro j hj
    rw [drop, strncpy, copy_of_mem (by omega) (by omega), Nat.add_sub_cancel_left]
  rw [chars_congr hagree, chars_chars]

theorem chars_succ_zero : s.chars (n + 1) 0 = s 0 :=
  if_pos ⟨Nat.succ_pos n, fun k hk => absurd hk (Nat.not_lt_zero k)⟩

theorem chars_succ_succ (j : ℕ) :
    s.chars (n + 1) (j + 1) = if s 0 = 0 then 0 else (s.drop 1).chars n j := by
  rw [chars, chars]
  have hall : (∀ k < j + 1, s k ≠ 0) ↔ s 0 ≠ 0 ∧ ∀ k < j, s.drop 1 k ≠ 0 := by
    simp only [drop, Nat.add_comm 1, Nat.forall_lt_succ_left]
  simp only [hall, Nat.add_lt_add_iff_right]
  by_cases h0 : s 0 = 0
  · rw [if_pos h0, if_neg fun h => h.2.1 h0]
  · rw [if_neg h0, drop, Nat.add_comm 1 j]
    simp only [ne_eq, h0, not_false_eq_true, true_and]

/-- `strncmp` is zero exactly on strings with the same first characters. -/
theorem strncmp_eq_zero : strncmp s t n = 0 ↔ s.chars n = t.chars n := by
  induction n generalizing s t with
  | zero =>
    apply iff_of_true rfl
    funext j
    rw [chars, if_neg (by omega), chars, if_neg (by omega)]
  | succ n ih =>
    rw [strncmp]
    by_cases hne : s 0 ≠ t 0
    · rw [if_pos hne]
      apply iff_of_false
      · intro h
        apply hne
        apply UInt8.toNat_inj.mp
        omega
      · intro h
        apply hne
        rw [← chars_succ_zero (s := s) (n := n), h, chars_succ_zero]
    · have heq := not_not.mp hne
      rw [if_neg hne]
      by_cases h0 : s 0 = 0
      · rw [if_pos h0]
        apply iff_of_true rfl
        funext j
        cases j with
        | zero => rw [chars_succ_zero, chars_succ_zero, heq]
        | succ j => rw [chars_succ_succ, chars_succ_succ, ← heq, if_pos h0, if_pos h0]
      · rw [if_neg h0, ih]
        constructor
        · intro h
          funext j
          cases j with
          | zero => rw [chars_succ_zero, chars_succ_zero, heq]
          | succ j => rw [chars_succ_succ, chars_succ_succ, ← heq, h]
        · intro h
          funext j
          have hj := congrFun h (j + 1)
          rwa [chars_succ_succ, chars_succ_succ, ← heq, if_neg h0, if_neg h0] at hj

/-! ### The text of a string -/

/-- The characters before the end of the string, `n` of them at most. -/
def text (n : ℕ) (s : Mem) : List UInt8 := (s.bytes n).takeWhile (· ≠ 0)

theorem text_succ (s : Mem) (n : ℕ) :
    s.text (n + 1) = if s 0 = 0 then [] else s 0 :: (s.drop 1).text n := by
  have hbytes : s.bytes (n + 1) = s 0 :: (s.drop 1).bytes n := by
    rw [bytes, bytes, List.range_succ_eq_map, List.map_cons, List.map_map]
    congr 1
    apply List.map_congr_left
    intro j _
    rw [drop, Nat.add_comm]
    rfl
  rw [text, hbytes, List.takeWhile_cons, text]
  by_cases h0 : s 0 = 0
  · rw [if_pos h0, h0]
    rfl
  · rw [if_neg h0, if_pos (decide_eq_true h0)]

theorem strncmp_eq_zero_iff_text : strncmp s t n = 0 ↔ s.text n = t.text n := by
  induction n generalizing s t with
  | zero => exact iff_of_true rfl rfl
  | succ n ih =>
    rw [strncmp, text_succ, text_succ]
    by_cases hne : s 0 = t 0
    · rw [if_neg (not_not.mpr hne), ← hne]
      by_cases h0 : s 0 = 0
      · rw [if_pos h0, if_pos h0, if_pos h0]
        exact iff_of_true rfl rfl
      · rw [if_neg h0, if_neg h0, if_neg h0, ih, List.cons_inj_right]
    · rw [if_pos hne]
      apply iff_of_false
      · intro h
        apply hne
        apply UInt8.toNat_inj.mp
        omega
      · intro h
        by_cases h0 : s 0 = 0
        · have ht : t 0 ≠ 0 := fun ht => hne (h0.trans ht.symm)
          rw [if_pos h0, if_neg ht] at h
          cases h
        · rw [if_neg h0] at h
          by_cases ht : t 0 = 0
          · rw [if_pos ht] at h
            cases h
          · rw [if_neg ht] at h
            exact hne (List.cons.inj h).1

/-- Strings with the same text are the same to `strncmp`, and only these. -/
theorem text_eq_iff : s.text n = t.text n ↔ s.chars n = t.chars n :=
  strncmp_eq_zero_iff_text.symm.trans strncmp_eq_zero

/-- A string that has an end is its text, whatever number of characters is allowed beyond it. -/
theorem text_of_zero (h : s k = 0) (hk : k ≤ n) : s.text n = s.text k := by
  induction k generalizing s n with
  | zero =>
    cases n with
    | zero => rfl
    | succ n =>
      rw [text_succ, if_pos h]
      rfl
  | succ k ih =>
    cases n with
    | zero => omega
    | succ n =>
      rw [text_succ, text_succ, ih (s := s.drop 1) (n := n) (by rw [drop, Nat.add_comm, h]) (by omega)]

theorem length_text_le : (s.text n).length ≤ n :=
  (List.takeWhile_sublist _).length_le.trans (by rw [bytes, List.length_map, List.length_range])

/-- The text is shorter than allowed when the string ends there. -/
theorem length_text_lt_iff : (s.text n).length < n ↔ ∃ k < n, s k = 0 := by
  induction n generalizing s with
  | zero => simp
  | succ n ih =>
    rw [text_succ, Nat.exists_lt_succ_left]
    by_cases h0 : s 0 = 0
    · rw [if_pos h0]
      exact iff_of_true (Nat.succ_pos n) (.inl h0)
    · rw [if_neg h0, List.length_cons, Nat.add_lt_add_iff_right, ih]
      simp [h0, drop, Nat.add_comm 1]

end Mem
end Coursework
