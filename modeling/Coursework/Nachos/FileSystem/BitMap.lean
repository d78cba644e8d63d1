import Coursework.Lib.CInt
import Coursework.Lib.Memory
import Mathlib.Data.List.Count
import Mathlib.Data.List.Range
import Mathlib.Data.Finset.Card

/-!
# The bitmap of `bitmap.cc`

Bits are kept in words of 32. `Mark`, `Clear` and `Test` assert that the bit is one of the
map; `Find` marks the first clear bit.
-/
namespace Coursework.Nachos

/-- `class BitMap`; the bits are `map[0]` onward. -/
structure BitMap where
  numBits : ℕ
  map : ℕ → BitVec 32

namespace BitMap

/-- `map[which / BitsInWord] & (1 << (which % BitsInWord))` -/
def bit (m : BitMap) (which : ℕ) : Bool :=
  m.map (which / 32) &&& (1#32 <<< (which % 32)) ≠ 0#32

/-- `map[which / BitsInWord] |= 1 << (which % BitsInWord)` -/
def setBit (m : BitMap) (which : ℕ) : BitMap :=
  { m with
    map := Function.update m.map (which / 32) (m.map (which / 32) ||| (1#32 <<< (which % 32))) }

/-- `map[which / BitsInWord] &= ~(1 << (which % BitsInWord))` -/
def clearBit (m : BitMap) (which : ℕ) : BitMap :=
  { m with
    map := Function.update m.map (which / 32) (m.map (which / 32) &&& ~~~(1#32 <<< (which % 32))) }

def mark (m : BitMap) (which : ℤ) : Option BitMap :=
  if 0 ≤ which ∧ which < m.numBits then some (m.setBit which.toNat) else none

def clear (m : BitMap) (which : ℤ) : Option BitMap :=
  if 0 ≤ which ∧ which < m.numBits then some (m.clearBit which.toNat) else none

def test (m : BitMap) (which : ℤ) : Option Bool :=
  if 0 ≤ which ∧ which < m.numBits then some (m.bit which.toNat) else none

/-- The constructor: the words are as the memory was, and then each bit is cleared. -/
def new (nitems : ℕ) (garbage : ℕ → BitVec 32) : BitMap :=
  (List.range nitems).foldl clearBit ⟨nitems, garbage⟩

/-- The first clear bit is marked and returned. -/
def find (m : BitMap) : ℤ × BitMap :=
  match (List.range m.numBits).find? fun i => !m.bit i with
  | some i => (i, m.setBit i)
  | none => (-1, m)

def numClear (m : BitMap) : ℕ := (List.range m.numBits).countP fun i => !m.bit i

variable {m : BitMap} {i j n : ℕ}

/-- The words of a map are those of its memory. -/
def image (m : BitMap) : Mem := Mem.image m.map

@[simp] theorem setBit_numBits : (m.setBit i).numBits = m.numBits := rfl

@[simp] theorem clearBit_numBits : (m.clearBit i).numBits = m.numBits := rfl

theorem setBit_map (m : BitMap) (i : ℕ) : (m.setBit i).map =
    Function.update m.map (i / 32) (m.map (i / 32) ||| (1#32 <<< (i % 32))) := rfl

theorem clearBit_map (m : BitMap) (i : ℕ) : (m.clearBit i).map =
    Function.update m.map (i / 32) (m.map (i / 32) &&& ~~~(1#32 <<< (i % 32))) := rfl

theorem and_shift_ne_zero (w : BitVec 32) {k : ℕ} (hk : k < 32) :
    (w &&& (1#32 <<< k) ≠ 0#32) ↔ w.getLsbD k = true := by
  constructor
  · intro hne
    by_contra hbit
    apply hne
    apply BitVec.eq_of_getLsbD_eq
    intro b hb
    by_cases hbk : b = k
    · subst hbk
      simp [hbit]
    · simp [BitVec.getLsbD_shiftLeft]
      omega
  · rintro hbit hzero
    have hget := congrArg (fun v => v.getLsbD k) hzero
    simp [hk] at hget
    rw [BitVec.getLsbD_eq_getElem hk, hget] at hbit
    cases hbit

theorem bit_eq (m : BitMap) (i : ℕ) : m.bit i = (m.map (i / 32)).getLsbD (i % 32) := by
  have hk : i % 32 < 32 := Nat.mod_lt _ (by omega)
  cases hb : (m.map (i / 32)).getLsbD (i % 32) with
  | false =>
    have hz := (not_congr (and_shift_ne_zero (m.map (i / 32)) hk)).mpr (by simp [hb])
    simpa [bit] using hz
  | true =>
    have hz := (and_shift_ne_zero (m.map (i / 32)) hk).mpr hb
    simpa [bit] using hz

theorem getLsbD_shift (k b : ℕ) (hb : b < 32) : (1#32 <<< k).getLsbD b = decide (b = k) := by
  by_cases hbk : b = k
  · subst hbk
    simp [hb]
  · simp [BitVec.getLsbD_shiftLeft, hbk]
    omega

theorem bit_setBit : (m.setBit i).bit j = (decide (j = i) || m.bit j) := by
  have hj : j % 32 < 32 := Nat.mod_lt _ (by omega)
  rw [bit_eq, bit_eq, setBit_map]
  by_cases hw : j / 32 = i / 32
  · have hiff : j % 32 = i % 32 ↔ j = i := by omega
    rw [hw, Function.update_self, BitVec.getLsbD_or, getLsbD_shift _ _ hj, Bool.or_comm,
      decide_eq_decide.mpr hiff]
  · have hne : j ≠ i := fun h => hw (by rw [h])
    rw [Function.update_of_ne hw, decide_eq_false hne, Bool.false_or]

theorem bit_clearBit : (m.clearBit i).bit j = (decide (j ≠ i) && m.bit j) := by
  have hj : j % 32 < 32 := Nat.mod_lt _ (by omega)
  rw [bit_eq, bit_eq, clearBit_map]
  by_cases hw : j / 32 = i / 32
  · have hiff : j % 32 = i % 32 ↔ j = i := by omega
    rw [hw, Function.update_self, BitVec.getLsbD_and, BitVec.getLsbD_not, getLsbD_shift _ _ hj,
      Bool.and_comm]
    simp [hj, hiff]
  · have hne : j ≠ i := fun h => hw (by rw [h])
    rw [Function.update_of_ne hw, decide_eq_true hne, Bool.true_and]

theorem bit_new (nitems : ℕ) (garbage : ℕ → BitVec 32) {i : ℕ} (hi : i < nitems) :
    (new nitems garbage).numBits = nitems ∧ (new nitems garbage).bit i = false := by
  have hall (n : ℕ) : ((List.range n).foldl clearBit ⟨nitems, garbage⟩).numBits = nitems ∧
      ∀ i < n, ((List.range n).foldl clearBit ⟨nitems, garbage⟩).bit i = false := by
    induction n with
    | zero => exact ⟨rfl, fun i hi => absurd hi (Nat.not_lt_zero i)⟩
    | succ n ih =>
      rw [List.range_succ, List.foldl_append, List.foldl_cons, List.foldl_nil]
      refine ⟨ih.1, fun i hi => ?_⟩
      rw [bit_clearBit]
      by_cases hin : i = n
      · simp [hin]
      · rw [ih.2 i (by omega), Bool.and_false]
  exact ⟨(hall nitems).1, (hall nitems).2 i hi⟩

/-! ### Counting clear bits -/

theorem numClear_pos (h : 0 < m.numClear) : ∃ i < m.numBits, m.bit i = false := by
  obtain ⟨i, hi, hbit⟩ := List.countP_pos_iff.mp h
  exact ⟨i, List.mem_range.mp hi, by simpa using hbit⟩

theorem countP_range_flip {p q : ℕ → Bool} (hp : p i = true) (hq : q i = false)
    (hother : ∀ j, j ≠ i → q j = p j) :
    (List.range n).countP q + (if i < n then 1 else 0) = (List.range n).countP p := by
  induction n with
  | zero => rfl
  | succ n ih =>
    rw [List.range_succ, List.countP_append, List.countP_append, List.countP_singleton,
      List.countP_singleton, ← ih]
    by_cases hin : n = i
    · subst hin
      simp [hp, hq]
    · have hlt : i < n + 1 ↔ i < n := by omega
      simp only [hother n hin, hlt]
      omega

theorem numClear_new (nitems : ℕ) (garbage : ℕ → BitVec 32) :
    (new nitems garbage).numClear = nitems := by
  have hlen : (new nitems garbage).numClear = (List.range nitems).length := by
    cases nitems with
    | zero => rfl
    | succ n =>
      rw [numClear, (bit_new (n + 1) garbage (Nat.succ_pos n)).1]
      apply List.countP_eq_length.mpr
      intro i hi
      rw [(bit_new (n + 1) garbage (List.mem_range.mp hi)).2]
      rfl
  rw [hlen, List.length_range]

/-- Marking a clear bit leaves one clear bit less. -/
theorem numClear_setBit (hi : i < m.numBits) (hbit : m.bit i = false) :
    (m.setBit i).numClear + 1 = m.numClear := by
  have hflip := countP_range_flip (p := fun j => !m.bit j) (q := fun j => !(m.setBit i).bit j)
    (i := i) (n := m.numBits) (by simp [hbit]) (by simp [bit_setBit])
    (fun j hj => by simp [bit_setBit, hj])
  rwa [if_pos hi] at hflip

/-! ### The marked bits -/

/-- A bit of the map that is set. -/
def Marked (m : BitMap) (x : ℤ) : Prop := m.test x = some true

variable {x : ℤ} {m' : BitMap}

theorem marked_iff : m.Marked x ↔ (0 ≤ x ∧ x < m.numBits) ∧ m.bit x.toNat = true := by
  rw [Marked, test, Option.ite_none_right_eq_some, Option.some.injEq]

theorem not_marked_new (nitems : ℕ) (garbage : ℕ → BitVec 32) (x : ℤ) :
    ¬ (new nitems garbage).Marked x := by
  intro hx
  obtain ⟨⟨hlow, hhigh⟩, hbit⟩ := marked_iff.mp hx
  cases nitems with
  | zero => exact absurd hhigh (not_lt.mpr hlow)
  | succ n =>
    rw [(bit_new (n + 1) garbage (Nat.succ_pos n)).1] at hhigh
    rw [(bit_new (n + 1) garbage (by omega)).2] at hbit
    cases hbit

/-- A new map without its construction. -/
theorem exists_new (nitems : ℕ) (garbage : ℕ → BitVec 32) (hn : 0 < nitems) :
    ∃ m, new nitems garbage = m ∧ m.numBits = nitems ∧ m.numClear = nitems ∧ ∀ x, ¬ m.Marked x :=
  ⟨_, rfl, (bit_new nitems garbage hn).1, numClear_new nitems garbage,
    not_marked_new nitems garbage⟩

theorem marked_natCast (hi : i < m.numBits) : m.Marked i ↔ m.bit i = true := by
  rw [marked_iff, Int.toNat_natCast]
  exact and_iff_right ⟨Int.natCast_nonneg i, Int.ofNat_lt.mpr hi⟩

theorem marked_setBit (hi : i < m.numBits) : (m.setBit i).Marked x ↔ m.Marked x ∨ x = i := by
  rw [marked_iff, marked_iff, bit_setBit, setBit_numBits]
  simp only [Bool.or_eq_true, decide_eq_true_eq]
  constructor
  · rintro ⟨hx, hxi | hbit⟩
    · right
      omega
    · exact .inl ⟨hx, hbit⟩
  · rintro (⟨hx, hbit⟩ | rfl)
    · exact ⟨hx, .inr hbit⟩
    · exact ⟨by omega, .inl (Int.toNat_natCast i)⟩

theorem mark_eq (hi : i < m.numBits) : m.mark i = some (m.setBit i) := by
  rw [mark, if_pos (by omega), Int.toNat_natCast]

/-- A marked bit passes the test of `Deallocate` and is cleared. -/
theorem Marked.clear (h : m.Marked x) : ∃ m', m.clear x = some m' ∧ m'.numBits = m.numBits ∧
    ∀ y, m'.Marked y ↔ m.Marked y ∧ y ≠ x := by
  have hx := (marked_iff.mp h).1
  refine ⟨m.clearBit x.toNat, if_pos hx, rfl, fun y => ?_⟩
  rw [marked_iff, marked_iff, bit_clearBit, clearBit_numBits]
  simp only [Bool.and_eq_true, decide_eq_true_eq]
  constructor
  · rintro ⟨hy, hne, hbit⟩
    refine ⟨⟨hy, hbit⟩, ?_⟩
    rintro rfl
    exact hne rfl
  · rintro ⟨⟨hy, hbit⟩, hne⟩
    refine ⟨hy, ?_, hbit⟩
    omega

/-- `Find` takes the first clear bit, if there is one. -/
theorem find_cases (m : BitMap) :
    (∃ i < m.numBits, ¬ m.Marked i ∧ (∀ x : ℤ, 0 ≤ x → x < i → m.Marked x) ∧
      m.find = ((i : ℤ), m.setBit i)) ∨
    (∀ x : ℤ, 0 ≤ x → x < m.numBits → m.Marked x) ∧ m.find = (-1, m) := by
  rw [find]
  cases h : (List.range m.numBits).find? fun i => !m.bit i with
  | some i =>
    obtain ⟨hbit, hi, hfirst⟩ := List.find?_range_eq_some.mp h
    rw [List.mem_range] at hi
    rw [Bool.not_eq_true'] at hbit
    left
    refine ⟨i, hi, ?_, fun x hpos hx => ?_, rfl⟩
    · rw [marked_natCast hi, hbit]
      exact Bool.false_ne_true
    · obtain ⟨j, rfl⟩ := Int.eq_ofNat_of_zero_le hpos
      have hj := hfirst j (by omega)
      rw [Bool.not_not] at hj
      exact (marked_natCast (by omega)).mpr hj
  | none =>
    right
    refine ⟨fun x hpos hx => ?_, rfl⟩
    obtain ⟨j, rfl⟩ := Int.eq_ofNat_of_zero_le hpos
    have hj := List.find?_range_eq_none.mp h j (by omega)
    rw [Bool.not_not] at hj
    exact (marked_natCast (by omega)).mpr hj

end BitMap
end Coursework.Nachos
