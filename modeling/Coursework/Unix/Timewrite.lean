import Coursework.Lib.CInt
import Coursework.Lib.Memory
import Mathlib.Algebra.Order.Floor.Div

/-!
# `timewrite`

`main` writes what it has read once for each buffer size, in pieces of that size, and doubles the
size. The condition of the loop is `buffersize <= 8,388,608`, with two comma operators, so that
the loop goes on until the size overflows. `lseek` and `times` succeed.
-/
namespace Coursework.Unix.Timewrite

/-- How a loop ends. -/
inductive End where
  /-- The condition of the loop is false. -/
  | finished
  /-- An `int` overflows. -/
  | overflow
  /-- A write is not in full. -/
  | exited
  /-- It goes on after the rounds that are given. -/
  | running
  deriving DecidableEq

/-- One run of the inner loop, with the bytes of each write. -/
structure Iteration where
  buffersize : ℤ
  writes : List (List UInt8)
  cnt : ℤ
  deriving DecidableEq

def BUFFERSIZE : ℕ := 1073741824

/-- The operator: the value of the second operand. -/
def comma (_ y : ℤ) : ℤ := y

/-- `buffersize <= 8,388,608`. -/
def condition (buffersize : ℤ) : ℤ :=
  comma (comma (if buffersize ≤ 8 then 1 else 0) 388) 608

def checked (x : ℤ) : Except End ℤ := (int x).elim (.error .overflow) .ok

variable (write : List UInt8 → ℤ) (buf : Mem) (length : ℤ)

/-- The inner loop, for a number of rounds; `write` tells how much of its bytes is written. -/
def inner (buffersize : ℤ) : ℕ → (i cnt : ℤ) → Except End (List (List UInt8) × ℤ)
  | 0, _, _ => .error .running
  | rounds + 1, i, cnt =>
    if i < length then do
      let writesize := length - i
      let writesize := if buffersize < writesize then buffersize else writesize
      let bytes := (buf.drop i.toNat).bytes writesize.toNat
      if write bytes ≠ writesize then throw .exited
      let cnt ← checked (cnt + 1)
      let i ← checked (i + buffersize)
      let (writes, cnt) ← inner buffersize rounds i cnt
      pure (bytes :: writes, cnt)
    else pure ([], cnt)

/-- The outer loop: the iterations that come to their end, and its own. Each round of the inner
loop moves `i` on by one at least. -/
def outer : ℕ → (buffersize : ℤ) → List Iteration × End
  | 0, _ => ([], .running)
  | rounds + 1, buffersize =>
    if condition buffersize ≠ 0 then
      match inner write buf length buffersize (length.toNat + 1) 0 0 with
      | .error e => ([], e)
      | .ok (writes, cnt) =>
        match checked (buffersize * 2) with
        | .error e => ([⟨buffersize, writes, cnt⟩], e)
        | .ok doubled =>
          let (its, e) := outer rounds doubled
          (⟨buffersize, writes, cnt⟩ :: its, e)
    else ([], .finished)

/-- The iterations that `main` performs, in so many rounds. -/
def main (rounds : ℕ) : List Iteration × End := outer write buf length rounds 256

/-! ### One iteration -/

/-- The writes concatenate to what was read, and there are as many as the size takes. -/
structure Faithful (it : Iteration) : Prop where
  writes : it.writes.flatten = buf.bytes length.toNat
  size : ∀ bytes ∈ it.writes, (bytes.length : ℤ) ≤ it.buffersize
  cnt : it.cnt = (length.toNat ⌈/⌉ it.buffersize.toNat : ℕ)

variable {write buf length} {n k : ℕ}

theorem checked_natCast (h : n ≤ 2147483647) : checked n = .ok (n : ℤ) := by
  have hint : int n = some (n : ℤ) :=
    int_eq_some (by unfold intMax; omega) (by unfold intMax; omega)
  rw [checked, hint]
  rfl

theorem checked_add (h : n + k ≤ 2147483647) : checked ((n : ℤ) + k) = .ok ((n + k : ℕ) : ℤ) := by
  rw [← Int.natCast_add]
  exact checked_natCast h

/-- One more piece is counted. -/
theorem ceilDiv_sub (hk : 0 < k) (hn : 0 < n) : n ⌈/⌉ k = (n - k) ⌈/⌉ k + 1 := by
  rw [Nat.ceilDiv_eq_add_pred_div, Nat.ceilDiv_eq_add_pred_div]
  by_cases hkn : k ≤ n
  · have hsplit : n + k - 1 = (n - k + k - 1) + k := by omega
    rw [hsplit, Nat.add_div_right _ hk]
  · have hone : n + k - 1 = (n - 1) + k := by omega
    rw [hone, Nat.add_div_right _ hk, Nat.div_eq_of_lt (by omega), Nat.div_eq_of_lt (by omega)]

theorem checked_succ (h : n + 1 ≤ 2147483647) : checked ((n : ℤ) + 1) = .ok ((n + 1 : ℕ) : ℤ) := by
  rw [← Int.natCast_succ]
  exact checked_natCast h

theorem ok_bind {α β : Type} (a : α) (f : α → Except End β) : (Except.ok a >>= f) = f a := rfl

theorem length_bytes (m : Mem) (n : ℕ) : (m.bytes n).length = n := by
  rw [Mem.bytes, List.length_map, List.length_range]

/-- The pieces that are left, from `i` on. -/
theorem inner_eq (buf : Mem) (hwrite : ∀ bytes, write bytes = bytes.length) (hk : 0 < k)
    (hn : n + k ≤ 2147483648) (rounds i c : ℕ) (hrounds : n - i < rounds)
    (hc : c + (n - i) ≤ 2147483647) :
    ∃ writes, inner write buf n k rounds i c = .ok (writes, (c + (n - i) ⌈/⌉ k : ℕ)) ∧
      writes.flatten = (buf.drop i).bytes (n - i) ∧ ∀ bytes ∈ writes, bytes.length ≤ k := by
  induction rounds generalizing i c with
  | zero => omega
  | succ rounds ih =>
    rw [inner]
    by_cases hi : i < n
    · obtain ⟨writes, hinner, hflatten, hsize⟩ := ih (i := i + k) (c := c + 1) (by omega) (by omega)
      have hpiece : (if (k : ℤ) < (n : ℤ) - i then (k : ℤ) else (n : ℤ) - i) =
          (min k (n - i) : ℕ) := by
        split_ifs <;> omega
      have hcnt : checked ((c : ℤ) + 1) = .ok ((c + 1 : ℕ) : ℤ) := checked_succ (by omega)
      have hnext : checked ((i : ℤ) + k) = .ok ((i + k : ℕ) : ℤ) := checked_add (by omega)
      have hceil : c + 1 + (n - (i + k)) ⌈/⌉ k = c + (n - i) ⌈/⌉ k := by
        rw [ceilDiv_sub hk (by omega : 0 < n - i), Nat.sub_sub]
        omega
      have hrest : (buf.drop i).bytes (min k (n - i)) ++ (buf.drop (i + k)).bytes (n - (i + k)) =
          (buf.drop i).bytes (n - i) := by
        by_cases hlast : k ≤ n - i
        · have hsplit : n - i = k + (n - (i + k)) := by omega
          rw [Nat.min_eq_left hlast, ← Mem.drop_drop, Mem.bytes_append, ← hsplit]
        · rw [Nat.min_eq_right (by omega), Nat.sub_eq_zero_of_le (by omega : n ≤ i + k)]
          exact List.append_nil _
      refine ⟨(buf.drop i).bytes (min k (n - i)) :: writes, ?_, ?_, ?_⟩
      · have hfull : write ((buf.drop i).bytes (min k (n - i))) = (min k (n - i) : ℕ) := by
          rw [hwrite, length_bytes]
        have hlt : (i : ℤ) < n := Int.ofNat_lt.mpr hi
        rw [if_pos hlt]
        simp only [hpiece, Int.toNat_natCast]
        rw [if_neg (not_not.mpr hfull), hcnt, ok_bind, hnext, ok_bind, hinner, ok_bind, hceil]
        rfl
      · rw [List.flatten_cons, hflatten, hrest]
      · rintro bytes (_ | ⟨_, hmem⟩)
        · rw [length_bytes]
          exact Nat.min_le_left k _
        · exact hsize bytes hmem
    · have hzero : n - i = 0 := by omega
      refine ⟨[], ?_, ?_, nofun⟩
      · rw [if_neg (by omega), hzero, zero_ceilDiv]
        rfl
      · rw [hzero]
        rfl

theorem inner_faithful (buf : Mem) (hwrite : ∀ bytes, write bytes = bytes.length) (hk : 0 < k)
    (hk' : k ≤ BUFFERSIZE) (hn : n ≤ BUFFERSIZE) :
    ∃ writes cnt, inner write buf n k ((n : ℤ).toNat + 1) 0 0 = .ok (writes, cnt) ∧
      Faithful buf n ⟨k, writes, cnt⟩ := by
  unfold BUFFERSIZE at hk' hn
  obtain ⟨writes, hinner, hflatten, hsize⟩ :=
    inner_eq buf hwrite hk (n := n) (by omega) (n + 1) 0 0 (by omega) (by omega)
  refine ⟨writes, _, hinner, ⟨?_, ?_, ?_⟩⟩
  · rw [hflatten, Mem.drop_zero]
    rfl
  · exact fun bytes hmem => Int.ofNat_le.mpr (hsize bytes hmem)
  · rw [Nat.zero_add, Nat.sub_zero]
    rfl

/-! ### The outer loop -/

/-- The sizes that the loop is meant for. -/
def sizes : List ℤ := (List.range 16).map fun j => 256 * 2 ^ j

/-- The loop comes to its end behind the last size, and every iteration is faithful. -/
def Terminates (write : List UInt8 → ℤ) (buf : Mem) (length : ℤ) : Prop :=
  ∃ rounds its, main write buf length rounds = (its, .finished) ∧
    its.map Iteration.buffersize = sizes ∧ ∀ it ∈ its, Faithful buf length it

/-- The condition is the constant 608. -/
theorem condition_ne_zero (b : ℤ) : condition b ≠ 0 := by
  change (608 : ℤ) ≠ 0
  decide

theorem bind_error {α β : Type} {x : Except End α} {f : α → Except End β} {e : End}
    (h : (x >>= f) = .error e) : x = .error e ∨ ∃ a, x = .ok a ∧ f a = .error e := by
  cases x with
  | error e' =>
    cases h
    exact .inl rfl
  | ok a => exact .inr ⟨a, rfl, h⟩

theorem checked_error {x : ℤ} {e : End} (h : checked x = .error e) : e = .overflow := by
  rw [checked] at h
  cases hint : int x with
  | none =>
    rw [hint] at h
    exact (Except.error.inj h).symm
  | some y =>
    rw [hint] at h
    cases h

theorem inner_not_finished {b : ℤ} {rounds : ℕ} {i cnt : ℤ} {e : End}
    (h : inner write buf length b rounds i cnt = .error e) : e ≠ .finished := by
  induction rounds generalizing i cnt with
  | zero =>
    cases h
    decide
  | succ rounds ih =>
    rw [inner] at h
    by_cases hi : i < length
    · simp only [if_pos hi] at h
      generalize (if b < length - i then b else length - i) = writesize at h
      split_ifs at h
      · cases h
        decide
      · rcases bind_error h with hcnt | ⟨cnt', _, h⟩
        · rw [checked_error hcnt]
          decide
        rcases bind_error h with hnext | ⟨i', _, h⟩
        · rw [checked_error hnext]
          decide
        rcases bind_error h with hinner | ⟨r, _, h⟩
        · exact ih hinner
        · cases h
    · rw [if_neg hi] at h
      cases h

/-- The condition is not what ends the loop. -/
theorem outer_not_finished (rounds : ℕ) (b : ℤ) :
    (outer write buf length rounds b).2 ≠ .finished := by
  induction rounds generalizing b with
  | zero =>
    rw [outer]
    decide
  | succ rounds ih =>
    rw [outer, if_pos (condition_ne_zero b)]
    cases hinner : inner write buf length b (length.toNat + 1) 0 0 with
    | error e => exact inner_not_finished hinner
    | ok r =>
      cases hdoubled : checked (b * 2) with
      | error e =>
        simp only
        rw [checked_error hdoubled]
        decide
      | ok doubled =>
        simp only
        exact ih doubled

/-- The loop does not come to its end, whatever is read. -/
theorem not_terminates (write : List UInt8 → ℤ) (buf : Mem) (length : ℤ) :
    ¬ Terminates write buf length := by
  rintro ⟨rounds, its, hmain, -⟩
  exact outer_not_finished rounds 256 (congrArg Prod.snd hmain)

/-- Nothing is read and nothing is written. -/
theorem empty_not_terminates : ¬ Terminates (fun bytes => bytes.length) (fun _ => 0) 0 := by
  rintro ⟨rounds, its, hmain, -⟩
  exact outer_not_finished rounds 256 (congrArg Prod.snd hmain)

theorem two_pow_le {e : ℕ} (he : e ≤ 30) : 2 ^ e ≤ BUFFERSIZE :=
  Nat.pow_le_pow_right (by decide) he

theorem outer_overflows (hwrite : ∀ bytes, write bytes = bytes.length) (hn : n ≤ BUFFERSIZE)
    (e left : ℕ) (he : e + left = 30) (rounds : ℕ) :
    ∃ its, outer write buf n (rounds + left + 1) (2 ^ e : ℕ) = (its, .overflow) ∧
      its.map Iteration.buffersize =
        (List.range (left + 1)).map (fun j => ((2 ^ (e + j) : ℕ) : ℤ)) ∧
      ∀ it ∈ its, Faithful buf n it := by
  induction left generalizing e with
  | zero =>
    obtain ⟨writes, cnt, hinner, hfaithful⟩ :=
      inner_faithful buf hwrite (Nat.two_pow_pos e) (two_pow_le (by omega)) hn
    have hdoubled : checked (((2 ^ e : ℕ) : ℤ) * 2) = .error .overflow := by
      obtain rfl : e = 30 := by omega
      rfl
    refine ⟨[⟨(2 ^ e : ℕ), writes, cnt⟩], ?_, rfl, ?_⟩
    · rw [outer, if_pos (condition_ne_zero _), hinner]
      simp only [hdoubled]
    · rintro it (_ | ⟨_, ⟨⟩⟩)
      exact hfaithful
  | succ left ih =>
    obtain ⟨writes, cnt, hinner, hfaithful⟩ :=
      inner_faithful buf hwrite (Nat.two_pow_pos e) (two_pow_le (by omega)) hn
    obtain ⟨its, houter, hmap, hall⟩ := ih (e + 1) (by omega)
    have hdoubled : checked (((2 ^ e : ℕ) : ℤ) * 2) = .ok ((2 ^ (e + 1) : ℕ) : ℤ) := by
      have hpow : ((2 ^ e : ℕ) : ℤ) * 2 = (2 ^ (e + 1) : ℕ) := by
        rw [Nat.pow_succ, Int.natCast_mul]
        rfl
      have hle : 2 ^ (e + 1) ≤ BUFFERSIZE := two_pow_le (by omega)
      rw [hpow]
      exact checked_natCast (hle.trans (by decide))
    refine ⟨⟨(2 ^ e : ℕ), writes, cnt⟩ :: its, ?_, ?_, ?_⟩
    · rw [outer, if_pos (condition_ne_zero _), hinner]
      simp only [hdoubled]
      rw [← Nat.add_assoc rounds left 1, houter]
    · rw [List.map_cons, hmap, List.range_succ_eq_map (n := left + 1), List.map_cons, List.map_map]
      congr 1
      apply List.map_congr_left
      intro j _
      rw [Function.comp_apply, Nat.succ_eq_add_one, Nat.add_right_comm, Nat.add_assoc]
    · rintro it (_ | ⟨_, hmem⟩)
      · exact hfaithful
      · exact hall it hmem

/-- Every iteration is faithful up to the one whose size cannot be doubled. -/
theorem main_overflows (hwrite : ∀ bytes, write bytes = bytes.length) (hn : n ≤ BUFFERSIZE)
    {rounds : ℕ} (hrounds : 23 ≤ rounds) :
    ∃ its, main write buf n rounds = (its, .overflow) ∧
      its.map Iteration.buffersize = (List.range 23).map (fun j => ((2 ^ (8 + j) : ℕ) : ℤ)) ∧
      ∀ it ∈ its, Faithful buf n it := by
  obtain ⟨rest, rfl⟩ := Nat.exists_eq_add_of_le' hrounds
  exact outer_overflows hwrite hn 8 22 rfl rest

end Coursework.Unix.Timewrite
