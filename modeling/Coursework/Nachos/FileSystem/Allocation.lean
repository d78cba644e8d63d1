import Coursework.Nachos.FileSystem.FileHeader

/-!
# What the bitmap stands for

A map of any size stands for the set of its marked indices. Each operation of the map is an
operation of the set, and `Deallocate` undoes `Allocate`.
-/
namespace Coursework.Nachos
open Disk

namespace BitMap

/-- The indices whose bit is set: bit `i % 32` of word `i / 32`. -/
def marks (m : BitMap) : Finset ℕ :=
  {i ∈ Finset.range m.numBits | (m.map (i / 32)).getLsbD (i % 32) = true}

/-- The indices whose bit is not set. -/
def absent (m : BitMap) : Finset ℕ := Finset.range m.numBits \ m.marks

variable {m m' : BitMap} {i j : ℕ}

theorem mem_marks : i ∈ m.marks ↔ i < m.numBits ∧ m.bit i = true := by
  rw [marks, Finset.mem_filter, Finset.mem_range, bit_eq]

theorem mem_absent : i ∈ m.absent ↔ i < m.numBits ∧ m.bit i = false := by
  rw [absent, Finset.mem_sdiff, Finset.mem_range, mem_marks]
  cases m.bit i <;> simp

theorem marked_iff_mem : m.Marked i ↔ i ∈ m.marks := by
  rw [marked_iff, mem_marks, Int.toNat_natCast, Nat.cast_lt]
  exact and_congr_left fun _ => and_iff_right (Int.natCast_nonneg i)

theorem marks_setBit (hi : i < m.numBits) : (m.setBit i).marks = insert i m.marks := by
  ext j
  rw [Finset.mem_insert, mem_marks, mem_marks, setBit_numBits, bit_setBit, Bool.or_eq_true,
    decide_eq_true_iff]
  constructor
  · rintro ⟨hj, rfl | hbit⟩
    · exact .inl rfl
    · exact .inr ⟨hj, hbit⟩
  · rintro (rfl | ⟨hj, hbit⟩)
    · exact ⟨hi, .inl rfl⟩
    · exact ⟨hj, .inr hbit⟩

theorem marks_clearBit : (m.clearBit i).marks = m.marks.erase i := by
  ext j
  rw [Finset.mem_erase, mem_marks, mem_marks, clearBit_numBits, bit_clearBit, Bool.and_eq_true,
    decide_eq_true_iff, and_left_comm]

theorem test_eq (hi : i < m.numBits) : m.test i = some (decide (i ∈ m.marks)) := by
  have hmem : i ∈ m.marks ↔ m.bit i = true := mem_marks.trans (and_iff_right hi)
  rw [test, if_pos (by omega), Int.toNat_natCast]
  congr 1
  rw [Bool.eq_iff_iff, decide_eq_true_iff, hmem]

theorem clear_eq (hi : i < m.numBits) : m.clear i = some (m.clearBit i) := by
  rw [clear, if_pos (by omega), Int.toNat_natCast]

theorem marks_new (nitems : ℕ) (garbage : ℕ → BitVec 32) : (new nitems garbage).marks = ∅ := by
  ext i
  rw [← marked_iff_mem]
  simpa using not_marked_new nitems garbage i

/-- `NumClear` is the number of the indices that are absent. -/
theorem numClear_eq_card (m : BitMap) : m.numClear = m.absent.card := by
  have hset : m.absent = ((List.range m.numBits).filter fun i => !m.bit i).toFinset := by
    ext i
    rw [mem_absent, List.mem_toFinset, List.mem_filter, List.mem_range, Bool.not_eq_true']
  rw [hset, List.toFinset_card_of_nodup (List.nodup_range.filter _), numClear,
    List.countP_eq_length_filter]

theorem find_of_absent (hne : m.absent.Nonempty) :
    ∃ i ∈ m.absent, (∀ j ∈ m.absent, i ≤ j) ∧ m.find = ((i : ℤ), m.setBit i) := by
  rcases m.find_cases with ⟨i, hi, hnew, hfirst, hfind⟩ | ⟨hall, -⟩
  · rw [marked_natCast hi, Bool.not_eq_true] at hnew
    refine ⟨i, mem_absent.mpr ⟨hi, hnew⟩, fun j hj => ?_, hfind⟩
    obtain ⟨hlt, hbit⟩ := mem_absent.mp hj
    by_contra hij
    have hmarked := (marked_natCast hlt).mp (hfirst j (Int.natCast_nonneg j) (by omega))
    rw [hbit] at hmarked
    cases hmarked
  · obtain ⟨j, hj⟩ := hne
    obtain ⟨hlt, hbit⟩ := mem_absent.mp hj
    have hmarked := (marked_natCast hlt).mp (hall j (Int.natCast_nonneg j) (by omega))
    rw [hbit] at hmarked
    cases hmarked

theorem find_of_full (hfull : m.absent = ∅) : m.find = (-1, m) := by
  rcases m.find_cases with ⟨i, hi, hnew, -, -⟩ | ⟨-, hfind⟩
  · rw [marked_natCast hi, Bool.not_eq_true] at hnew
    have hmem : i ∈ m.absent := mem_absent.mpr ⟨hi, hnew⟩
    rw [hfull] at hmem
    exact absurd hmem (Finset.notMem_empty i)
  · exact hfind

end BitMap

namespace FileHeader
open BitMap

variable {m m' : BitMap} {h : FileHeader} {size : ℤ} {ds : ℕ → ℤ} {n : ℕ}

/-- The data sectors of `h` are the indices of `l`. -/
def Lists (h : FileHeader) (l : List ℕ) : Prop := h.sectors = l.map Nat.cast

theorem Lists.length {l : List ℕ} (hl : h.Lists l) (hpos : 0 ≤ h.numSectors) :
    (l.length : ℤ) = h.numSectors := by
  have hlen := congrArg List.length hl
  rw [FileHeader.sectors, List.length_map, List.length_map, List.length_range] at hlen
  omega

/-- The first `n` elements of the array, as indices. -/
def indices (ds : ℕ → ℤ) (n : ℕ) : List ℕ := (List.range n).map fun k => (ds k).toNat

theorem mem_indices {i : ℕ} : i ∈ indices ds n ↔ ∃ k < n, (ds k).toNat = i := by
  simp [indices]

theorem Found.lists (hf : Found m n ds m') : (indices ds n).map Nat.cast = (List.range n).map ds := by
  rw [indices, List.map_map]
  apply List.map_congr_left
  intro k hk
  exact Int.toNat_of_nonneg (hf.range k (List.mem_range.mp hk)).1

theorem Found.nodup (hf : Found m n ds m') : (indices ds n).Nodup := by
  apply (List.nodup_map_iff_inj_on List.nodup_range).mpr
  intro i hi j hj heq
  rw [List.mem_range] at hi hj
  have hri := (hf.range i hi).1
  have hrj := (hf.range j hj).1
  exact hf.inj i hi j hj (by omega)

theorem Found.mem_absent (hf : Found m n ds m') : ∀ i ∈ indices ds n, i ∈ m.absent := by
  intro i hi
  obtain ⟨k, hk, rfl⟩ := mem_indices.mp hi
  have hrange := hf.range k hk
  have hclear := hf.clear k hk
  rw [marked_iff, not_and, Bool.not_eq_true] at hclear
  exact BitMap.mem_absent.mpr ⟨by omega, hclear hrange⟩

theorem Found.marks (hf : Found m n ds m') : m'.marks = m.marks ∪ (indices ds n).toFinset := by
  ext i
  rw [← marked_iff_mem, hf.marked, Finset.mem_union, ← marked_iff_mem, List.mem_toFinset,
    mem_indices]
  apply or_congr_right
  constructor
  · rintro ⟨k, hk, heq⟩
    exact ⟨k, hk, by omega⟩
  · rintro ⟨k, hk, heq⟩
    have hrange := (hf.range k hk).1
    exact ⟨k, hk, by omega⟩

/-- With too few absent indices the map is left as it is. -/
theorem allocate_of_few (g : FileHeader) (hfew : m.absent.card < (size + 127) / 128) :
    ∃ h, g.allocate m size = some (false, h, m) := by
  rw [← numClear_eq_card, ← divRoundUp_eq] at hfew
  exact ⟨_, if_pos hfew⟩

/-- The header that `Allocate` makes lists different absent indices, and these are added. -/
theorem allocate_of_enough (g : FileHeader) (hmax : size ≤ maxFileSize)
    (henough : (size + 127) / 128 ≤ m.absent.card) :
    ∃ h m' l, g.allocate m size = some (true, h, m') ∧ h.numSectors = (size + 127) / 128 ∧
      h.Lists l ∧ l.Nodup ∧ (∀ i ∈ l, i ∈ m.absent) ∧ m'.numBits = m.numBits ∧
      m'.marks = m.marks ∪ l.toFinset := by
  have hdirect : divRoundUp size sectorSize ≤ numDirect := by
    rw [divRoundUp_eq]
    rw [maxFileSize, numDirect, sectorSize] at hmax
    rw [numDirect, sectorSize]
    omega
  rw [← numClear_eq_card] at henough
  have hcount : ¬ (m.numClear : ℤ) < divRoundUp size sectorSize := by
    rw [divRoundUp_eq]
    omega
  have hf := found g.dataSectors (m := m) (n := (divRoundUp size sectorSize).toNat) (by omega)
  rw [allocate]
  simp only [if_neg hcount, if_neg (not_lt.mpr hdirect)]
  exact ⟨_, _, _, rfl, divRoundUp_eq size, hf.lists.symm, hf.nodup, hf.mem_absent, hf.numBits,
    hf.marks⟩

/-- `Deallocate` takes out the indices that the header lists. -/
theorem deallocate_of_lists {l : List ℕ} (hle : h.numSectors ≤ numDirect) (hl : h.Lists l)
    (hnodup : l.Nodup) (hmem : ∀ i ∈ l, i ∈ m.marks) :
    ∃ m', h.deallocate m = some m' ∧ m'.numBits = m.numBits ∧ m'.marks = m.marks \ l.toFinset := by
  have hsectors : h.sectors = l.map Nat.cast := hl
  obtain ⟨m', hd, hbits, hmarked⟩ := deallocate_eq (m := m) hle
    (hsectors ▸ hnodup.map Nat.cast_injective) fun s hs => by
      rw [hsectors] at hs
      obtain ⟨i, hi, rfl⟩ := List.mem_map.mp hs
      exact marked_iff_mem.mpr (hmem i hi)
  refine ⟨m', hd, hbits, ?_⟩
  ext i
  rw [← marked_iff_mem, hmarked, marked_iff_mem, Finset.mem_sdiff, List.mem_toFinset, hsectors]
  simp

/-- The operations of a map of any size are those of the set it stands for; `Allocate` fails
exactly when too few indices are absent, and `Deallocate` gives back what `Allocate` took. -/
theorem allocation_exact (m : BitMap) :
    (∀ i < m.numBits, m.test i = some (decide (i ∈ m.marks)) ∧
      (∃ m', m.mark i = some m' ∧ m'.numBits = m.numBits ∧ m'.marks = insert i m.marks) ∧
      ∃ m', m.clear i = some m' ∧ m'.numBits = m.numBits ∧ m'.marks = m.marks.erase i) ∧
    ((∃ i ∈ m.absent, (∀ j ∈ m.absent, i ≤ j) ∧
        ∃ m', m.find = ((i : ℤ), m') ∧ m'.numBits = m.numBits ∧ m'.marks = insert i m.marks) ∨
      m.absent = ∅ ∧ m.find = (-1, m)) ∧
    m.numClear = m.absent.card ∧
    ∀ (g : FileHeader) (fileSize : ℤ), 0 ≤ fileSize → fileSize ≤ maxFileSize →
      (m.absent.card < (fileSize + 127) / 128 →
        ∃ h, g.allocate m fileSize = some (false, h, m)) ∧
      (¬ m.absent.card < (fileSize + 127) / 128 →
        ∃ h m' l, g.allocate m fileSize = some (true, h, m') ∧
          h.numSectors = (fileSize + 127) / 128 ∧ h.Lists l ∧ l.length = h.numSectors ∧ l.Nodup ∧
          (∀ i ∈ l, i ∈ m.absent) ∧ m'.numBits = m.numBits ∧ m'.marks = m.marks ∪ l.toFinset ∧
          ∃ m₂, h.deallocate m' = some m₂ ∧ m₂.numBits = m.numBits ∧ m₂.marks = m.marks) := by
  refine ⟨fun i hi => ⟨test_eq hi, ⟨_, mark_eq hi, setBit_numBits, marks_setBit hi⟩,
    ⟨_, clear_eq hi, clearBit_numBits, marks_clearBit⟩⟩, ?_, numClear_eq_card m, ?_⟩
  · rcases m.absent.eq_empty_or_nonempty with hfull | hne
    · exact .inr ⟨hfull, find_of_full hfull⟩
    · obtain ⟨i, hi, hfirst, hfind⟩ := find_of_absent hne
      exact .inl ⟨i, hi, hfirst, _, hfind, setBit_numBits, marks_setBit (mem_absent.mp hi).1⟩
  · intro g fileSize hpos hmax
    refine ⟨allocate_of_few g, fun henough => ?_⟩
    obtain ⟨h, m', l, ha, hn, hl, hnodup, habsent, hbits, hmarks⟩ :=
      allocate_of_enough g hmax (not_lt.mp henough)
    have hlen := hl.length (by omega)
    have hle : h.numSectors ≤ numDirect := by
      rw [maxFileSize, numDirect, sectorSize] at hmax
      rw [numDirect, sectorSize]
      omega
    obtain ⟨m₂, hd, hbits₂, hmarks₂⟩ := deallocate_of_lists (m := m') hle hl hnodup fun i hi =>
      hmarks ▸ Finset.mem_union_right _ (List.mem_toFinset.mpr hi)
    refine ⟨h, m', l, ha, hn, hl, hlen, hnodup, habsent, hbits, hmarks, m₂, hd,
      hbits₂.trans hbits, ?_⟩
    have hdisjoint : Disjoint m.marks l.toFinset := Finset.disjoint_left.mpr fun i hi hil =>
      (Finset.mem_sdiff.mp (habsent i (List.mem_toFinset.mp hil))).2 hi
    rw [hmarks₂, hmarks, Finset.union_sdiff_cancel_right hdisjoint]

/-- A file of two sectors takes the top bit of one word and the only bit of the next. -/
theorem allocation_exact_two :
    let m : BitMap := ⟨33, fun k => if k = 0 then 0x7fffffff#32 else 0#32⟩
    m.absent = {31, 32} ∧ ∃ h m' l, allocate ⟨0, 0, fun _ => 0⟩ m 200 = some (true, h, m') ∧
      h.Lists l ∧ l.length = 2 ∧ m'.marks = m.marks ∪ l.toFinset ∧
      ∃ m₂, h.deallocate m' = some m₂ ∧ m₂.marks = m.marks := by
  intro m
  refine ⟨by decide, ?_⟩
  obtain ⟨h, m', l, ha, hn, hl, hlen, -, -, -, hmarks, m₂, hd, -, hmarks₂⟩ :=
    ((allocation_exact m).2.2.2 ⟨0, 0, fun _ => 0⟩ 200 (by decide) (by decide)).2 (by decide)
  exact ⟨h, m', l, ha, hl, by omega, hmarks, m₂, hd, hmarks₂⟩

end FileHeader
end Coursework.Nachos
