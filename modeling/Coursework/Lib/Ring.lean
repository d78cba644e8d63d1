import Mathlib.Data.List.Rotate
import Mathlib.Data.Nat.ModEq

/-!
# A window on a ring

A list is read as a ring: a window is `n` elements from position `head` onward, and the
position after the last one is the first. A window no longer than the ring holds each
position once.
-/
namespace Coursework

variable {α : Type*} {l : List α} {head m n k : ℕ} {x : α}

/-- `n` elements of the ring from `head` onward. -/
def window (l : List α) (head n : ℕ) : List α := (l.rotate head).take n

theorem window_mod (l : List α) (head n : ℕ) : window l (head % l.length) n = window l head n := by
  rw [window, List.rotate_mod, window]

theorem length_window (hn : n ≤ l.length) : (window l head n).length = n := by
  rw [window, List.length_take, List.length_rotate, Nat.min_eq_left hn]

/-- A window is the window of its first elements and the one that starts after them. -/
theorem window_add (head : ℕ) (h : m + n ≤ l.length) :
    window l head (m + n) = window l head m ++ window l (head + m) n := by
  have hm : m ≤ (l.rotate head).length := by
    rw [List.length_rotate]
    omega
  have hn : n ≤ ((l.rotate head).drop m).length := by
    rw [List.length_drop, List.length_rotate]
    omega
  rw [window, List.take_add, window, window, ← List.rotate_rotate,
    List.rotate_eq_drop_append_take hm, List.take_append_of_le_length hn]

theorem window_succ (hn : n < l.length) (hx : l[(head + n) % l.length]? = some x) :
    window l head (n + 1) = window l head n ++ [x] := by
  have hget : (l.rotate head)[n]? = some x := by
    rw [List.getElem?_rotate hn, Nat.add_comm n head, hx]
  rw [window, List.take_add_one, hget, Option.toList_some, window]

theorem window_cons (hn : n < l.length) (hx : l[head % l.length]? = some x) :
    window l head (n + 1) = x :: window l (head + 1) n := by
  have hadd := window_add (l := l) (m := 1) (n := n) head (by omega)
  have hone : window l head (0 + 1) = window l head 0 ++ [x] := window_succ (by omega) hx
  rw [Nat.add_comm n 1, hadd, hone]
  rfl

/-- Positions of a ring at different distances below its length are different. -/
theorem ring_index_inj {i N : ℕ} (hk : k < N) (hi : i < N)
    (h : (head + k) % N = (head + i) % N) : k = i := by
  have hmod : head + k ≡ head + i [MOD N] := h
  exact (Nat.ModEq.add_left_cancel' head hmod).eq_of_lt_of_lt hk hi

theorem rotate_set (hk : k < l.length) :
    (l.set ((head + k) % l.length) x).rotate head = (l.rotate head).set k x := by
  apply List.ext_getElem?
  intro i
  rcases Nat.lt_or_ge i l.length with hi | hi
  · rw [List.getElem?_rotate (by simpa using hi), List.getElem?_set, List.getElem?_set,
      List.getElem?_rotate hi, List.length_set, List.length_rotate]
    have hpos : (head + k) % l.length < l.length := Nat.mod_lt _ (by omega)
    by_cases hik : k = i
    · subst hik
      simp only [Nat.add_comm k head, if_true, hpos, hk]
    · have hne : (head + k) % l.length ≠ (i + head) % l.length := by
        rw [Nat.add_comm i head]
        exact fun h => hik (ring_index_inj hk hi h)
      rw [if_neg hne, if_neg hik]
  · rw [List.getElem?_eq_none (by simpa using hi), List.getElem?_eq_none (by simpa using hi)]

/-- A write after the window does not change it. -/
theorem window_set (head : ℕ) (x : α) (hk : k < l.length) (hn : n ≤ k) :
    window (l.set ((head + k) % l.length) x) head n = window l head n := by
  rw [window, rotate_set hk, List.take_set_of_le hn, window]

/-- A write at the end of the window and one more element. -/
theorem window_push (head : ℕ) (x : α) (hn : n < l.length) :
    window (l.set ((head + n) % l.length) x) head (n + 1) = window l head n ++ [x] := by
  have hget : (l.set ((head + n) % l.length) x)[(head + n) % l.length]? = some x := by
    rw [List.getElem?_set_self (Nat.mod_lt _ (by omega))]
  rw [window_succ (by simpa using hn) (by simpa using hget), window_set head x hn le_rfl]

end Coursework
