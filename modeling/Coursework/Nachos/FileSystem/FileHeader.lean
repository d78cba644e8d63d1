import Coursework.Nachos.Disk
import Coursework.Nachos.FileSystem.BitMap

/-!
# The file header of `filehdr.cc`

A header is the image of one sector: the size in bytes, the number of data sectors and
their numbers. `Allocate` takes the sectors one by one from the map of free sectors.
-/
namespace Coursework.Nachos
open Disk

/-- `class FileHeader`; `dataSectors` has `numDirect` elements. -/
structure FileHeader where
  numBytes : ℤ
  numSectors : ℤ
  dataSectors : ℕ → ℤ

/-- `divRoundUp` of `utility.h`. -/
def divRoundUp (n s : ℤ) : ℤ := n.tdiv s + if n.tmod s > 0 then 1 else 0

namespace FileHeader

def numDirect : ℕ := (sectorSize - 2 * 4) / 4

def maxFileSize : ℕ := numDirect * sectorSize

/-- The words of the object in memory. -/
def words (h : FileHeader) : ℕ → BitVec 32
  | 0 => .ofInt 32 h.numBytes
  | 1 => .ofInt 32 h.numSectors
  | k + 2 => .ofInt 32 (h.dataSectors k)

def image (h : FileHeader) : Mem := Mem.image h.words

/-- The object whose memory is `m`. -/
def ofImage (m : Mem) : FileHeader where
  numBytes := (m.word 0).toInt
  numSectors := (m.word 4).toInt
  dataSectors k := (m.word (4 * (k + 2))).toInt

def fetchFrom (h : FileHeader) (d : Disk) (sector : ℤ) : Option FileHeader :=
  (d.readSector sector h.image).map ofImage

def writeBack (h : FileHeader) (d : Disk) (sector : ℤ) : Option Disk :=
  d.writeSector sector h.image

/-- The loop of `Allocate`: `dataSectors[i] = freeMap->Find()` for the first `n` elements. -/
def findSectors (dataSectors : ℕ → ℤ) (freeMap : BitMap) : ℕ → (ℕ → ℤ) × BitMap
  | 0 => (dataSectors, freeMap)
  | n + 1 =>
    let (ds, m) := findSectors dataSectors freeMap n
    let (sector, m') := m.find
    (Function.update ds n sector, m')

/-- `none` where the loop leaves the array; `h` is the object as it was. -/
def allocate (h : FileHeader) (freeMap : BitMap) (fileSize : ℤ) :
    Option (Bool × FileHeader × BitMap) :=
  let numSectors := divRoundUp fileSize sectorSize
  if freeMap.numClear < numSectors then
    some (false, { h with numBytes := fileSize, numSectors := numSectors }, freeMap)
  else if numDirect < numSectors then none
  else
    let (dataSectors, m) := findSectors h.dataSectors freeMap numSectors.toNat
    some (true, ⟨fileSize, numSectors, dataSectors⟩, m)

/-- The loop of `Deallocate` for the first `n` data sectors. -/
def clearSectors (h : FileHeader) (freeMap : BitMap) : ℕ → Option BitMap
  | 0 => some freeMap
  | n + 1 => do
    let m ← clearSectors h freeMap n
    let marked ← m.test (h.dataSectors n)
    -- `ASSERT(freeMap->Test((int) dataSectors[i]))`
    if marked then m.clear (h.dataSectors n) else none

def deallocate (h : FileHeader) (freeMap : BitMap) : Option BitMap :=
  if numDirect < h.numSectors then none else clearSectors h freeMap h.numSectors.toNat

def byteToSector (h : FileHeader) (offset : ℕ) : Option ℤ :=
  if offset / sectorSize < numDirect then some (h.dataSectors (offset / sectorSize)) else none

/-- The data sectors that the header lists. -/
def sectors (h : FileHeader) : List ℤ := (List.range h.numSectors.toNat).map h.dataSectors

/-- The sectors hold the bytes, and the array holds the sectors. -/
structure Valid (h : FileHeader) : Prop where
  numBytes_nonneg : 0 ≤ h.numBytes
  numSectors_nonneg : 0 ≤ h.numSectors
  bytes_le : h.numBytes ≤ sectorSize * h.numSectors
  sectors_le : h.numSectors ≤ numDirect
  isSector : ∀ s ∈ h.sectors, IsSector s

/-- The words hold the numbers, and the array holds the sectors. -/
structure Storable (h : FileHeader) : Prop where
  le_numBytes : -intMax - 1 ≤ h.numBytes
  numBytes_le : h.numBytes ≤ intMax
  le_numSectors : -intMax - 1 ≤ h.numSectors
  sectors_le : h.numSectors ≤ numDirect
  isSector : ∀ s ∈ h.sectors, IsSector s

/-- Headers that say the same about a file; the rest of the array is as the memory was. -/
structure Same (h h' : FileHeader) : Prop where
  numBytes : h.numBytes = h'.numBytes
  numSectors : h.numSectors = h'.numSectors
  dataSectors : ∀ k : ℕ, k < h.numSectors → h.dataSectors k = h'.dataSectors k

variable {h h' : FileHeader} {m m' : BitMap} {d : Disk} {n : ℕ} {s : ℤ} {ds : ℕ → ℤ}

theorem Same.sectors (hs : h.Same h') : h.sectors = h'.sectors := by
  rw [FileHeader.sectors, FileHeader.sectors, ← hs.numSectors]
  apply List.map_congr_left
  intro k hk
  have hlt := List.mem_range.mp hk
  exact hs.dataSectors k (by omega)

theorem Same.valid (hs : h.Same h') (hv : h'.Valid) : h.Valid where
  numBytes_nonneg := hs.numBytes ▸ hv.numBytes_nonneg
  numSectors_nonneg := hs.numSectors ▸ hv.numSectors_nonneg
  bytes_le := by
    rw [hs.numBytes, hs.numSectors]
    exact hv.bytes_le
  sectors_le := hs.numSectors ▸ hv.sectors_le
  isSector := hs.sectors ▸ hv.isSector

theorem Same.symm (hs : h.Same h') : h'.Same h where
  numBytes := hs.numBytes.symm
  numSectors := hs.numSectors.symm
  dataSectors k hk := (hs.dataSectors k (hs.numSectors.symm ▸ hk)).symm

theorem Valid.numBytes_le (hv : h.Valid) : h.numBytes ≤ 3840 := by
  have hbytes := hv.bytes_le
  have hle := hv.sectors_le
  rw [numDirect, sectorSize] at hle
  rw [sectorSize] at hbytes
  omega

theorem Valid.storable (hv : h.Valid) : h.Storable := by
  have hpos := hv.numBytes_nonneg
  have hpos' := hv.numSectors_nonneg
  have hle := hv.numBytes_le
  refine ⟨?_, ?_, ?_, hv.sectors_le, hv.isSector⟩ <;> unfold intMax <;> omega

theorem mem_sectors {k : ℕ} (hk : k < h.numSectors) : h.dataSectors k ∈ h.sectors :=
  List.mem_map.mpr ⟨k, List.mem_range.mpr (by omega), rfl⟩

theorem toInt_ofInt {x : ℤ} (hlow : -intMax - 1 ≤ x) (hhigh : x ≤ intMax) :
    (BitVec.ofInt 32 x).toInt = x := by
  unfold intMax at *
  rw [BitVec.toInt_ofInt, Int.bmod_eq_of_le (by omega) (by omega)]

/-! ### Headers on the disk -/

/-- The header in a sector. -/
def onDisk (d : Disk) (s : ℤ) : FileHeader := ofImage (d s)

theorem ofImage_copy (m data : Mem) :
    (ofImage (m.copy 0 sectorSize data)).numBytes = (ofImage data).numBytes ∧
    (ofImage (m.copy 0 sectorSize data)).numSectors = (ofImage data).numSectors ∧
    ∀ k < numDirect, (ofImage (m.copy 0 sectorSize data)).dataSectors k =
      (ofImage data).dataSectors k := by
  have hword (off : ℕ) (hoff : off + 4 ≤ sectorSize) :
      (m.copy 0 sectorSize data).word off = data.word off := by
    apply Mem.word_congr
    intro i hi
    exact Mem.agree_copy _ (by omega)
  refine ⟨?_, ?_, fun k hk => ?_⟩
  · rw [ofImage, hword 0 (by decide), ofImage]
  · rw [ofImage, hword 4 (by decide), ofImage]
  · rw [numDirect, sectorSize] at hk
    rw [ofImage, ofImage]
    simp only
    rw [hword _ (by rw [sectorSize]; omega)]

theorem same_copy (m : Mem) {data : Mem} (hle : (ofImage data).numSectors ≤ numDirect) :
    (ofImage (m.copy 0 sectorSize data)).Same (ofImage data) := by
  obtain ⟨hbytes, hsectors, hdata⟩ := ofImage_copy m data
  refine ⟨hbytes, hsectors, fun k hk => hdata k ?_⟩
  omega

/-- A header is read from its sector when the array holds its sectors. -/
theorem fetchFrom_eq (g : FileHeader) (hs : IsSector s)
    (hle : (onDisk d s).numSectors ≤ numDirect) :
    ∃ h, g.fetchFrom d s = some h ∧ h.Same (onDisk d s) := by
  refine ⟨_, ?_, same_copy g.image hle⟩
  rw [fetchFrom, readSector_eq hs, Option.map_some]

theorem Storable.ofImage_image (hs : h.Storable) : (ofImage h.image).Same h := by
  have hle := hs.sectors_le
  rw [numDirect, sectorSize] at hle
  have hword (k : ℕ) : h.image.word (4 * k) = h.words k := Mem.word_image h.words k
  have hnum : (ofImage h.image).numSectors = h.numSectors := by
    have h1 := hword 1
    rw [ofImage]
    simp only
    rw [h1, words, toInt_ofInt hs.le_numSectors (by unfold intMax; omega)]
  refine ⟨?_, hnum, fun k hk => ?_⟩
  · have h0 := hword 0
    rw [ofImage]
    simp only
    rw [h0, words, toInt_ofInt hs.le_numBytes hs.numBytes_le]
  · rw [hnum] at hk
    obtain ⟨hlow, hhigh⟩ := hs.isSector _ (mem_sectors hk)
    have hsize : (Disk.numSectors : ℤ) = 1024 := rfl
    rw [ofImage]
    simp only
    rw [hword, words, toInt_ofInt (by unfold intMax; omega) (by unfold intMax; omega)]

theorem Same.trans {h₁ h₂ h₃ : FileHeader} (h : h₁.Same h₂) (h' : h₂.Same h₃) : h₁.Same h₃ where
  numBytes := h.numBytes.trans h'.numBytes
  numSectors := h.numSectors.trans h'.numSectors
  dataSectors k hk := (h.dataSectors k hk).trans (h'.dataSectors k (h.numSectors ▸ hk))

/-- A header that is written to a sector is on the disk, and the other sectors are as they
were. -/
theorem writeBack_eq (hs : IsSector s) (hst : h.Storable) :
    ∃ d', h.writeBack d s = some d' ∧ (∀ x, x ≠ s → d' x = d x) ∧ (onDisk d' s).Same h := by
  refine ⟨_, writeSector_eq hs, fun x hx => Function.update_of_ne hx _ _, ?_⟩
  rw [onDisk, Function.update_self]
  have himage := hst.ofImage_image
  exact (same_copy (d s) (himage.numSectors.trans_le hst.sectors_le)).trans himage

/-! ### Allocation -/

/-- `ds` lists `n` different clear bits of `m`, the first ones, and `m'` has them marked too. -/
structure Found (m : BitMap) (n : ℕ) (ds : ℕ → ℤ) (m' : BitMap) : Prop where
  numBits : m'.numBits = m.numBits
  first : ∀ k < n, ∀ x, 0 ≤ x → x < ds k → m.Marked x ∨ ∃ j < n, ds j = x
  range : ∀ k < n, 0 ≤ ds k ∧ ds k < m.numBits
  clear : ∀ k < n, ¬ m.Marked (ds k)
  inj : ∀ k < n, ∀ j < n, ds k = ds j → k = j
  marked : ∀ x, m'.Marked x ↔ m.Marked x ∨ ∃ k < n, ds k = x
  numClear : m'.numClear + n = m.numClear

/-- One more call of `Find` gives the first bit that is still clear. -/
theorem Found.succ {ds : ℕ → ℤ} {m' : BitMap} {i : ℕ} (hf : Found m n ds m') (hi : i < m'.numBits)
    (hnew : ¬ m'.Marked i) (hfirst : ∀ x : ℤ, 0 ≤ x → x < i → m'.Marked x) :
    Found m (n + 1) (Function.update ds n (i : ℤ)) (m'.setBit i) := by
  have hself : Function.update ds n (i : ℤ) n = i := Function.update_self ..
  have hold (k : ℕ) (hk : k < n) : Function.update ds n (i : ℤ) k = ds k :=
    Function.update_of_ne hk.ne _ _
  have hne (k : ℕ) (hk : k < n) : ds k ≠ i := fun heq =>
    hnew ((hf.marked i).mpr (.inr ⟨k, hk, heq⟩))
  have hlisted (x : ℤ) : (∃ k < n + 1, Function.update ds n (i : ℤ) k = x) ↔
      (∃ k < n, ds k = x) ∨ (i : ℤ) = x := by
    rw [Nat.exists_lt_succ_right, hself]
    apply or_congr_left
    exact exists_congr fun k => and_congr_right fun hk => by rw [hold k hk]
  refine ⟨hf.numBits, ?_, ?_, ?_, ?_, fun x => ?_, ?_⟩
  · intro k hk x hpos hx
    rw [hlisted, ← or_assoc, ← hf.marked]
    left
    rcases Nat.lt_succ_iff_lt_or_eq.mp hk with hk | rfl
    · rw [hold k hk] at hx
      exact (hf.marked x).mpr (hf.first k hk x hpos hx)
    · rw [hself] at hx
      exact hfirst x hpos hx
  · rw [Nat.forall_lt_succ_right, hself]
    constructor
    · intro k hk
      rw [hold k hk]
      exact hf.range k hk
    · rw [← hf.numBits]
      omega
  · rw [Nat.forall_lt_succ_right, hself]
    constructor
    · intro k hk
      rw [hold k hk]
      exact hf.clear k hk
    · exact fun hm => hnew ((hf.marked i).mpr (.inl hm))
  · intro k hk j hj heq
    rcases Nat.lt_succ_iff_lt_or_eq.mp hk with hk | hk
    · rcases Nat.lt_succ_iff_lt_or_eq.mp hj with hj | hj
      · rw [hold k hk, hold j hj] at heq
        exact hf.inj k hk j hj heq
      · rw [hold k hk, hj, hself] at heq
        exact absurd heq (hne k hk)
    · rcases Nat.lt_succ_iff_lt_or_eq.mp hj with hj | hj
      · rw [hk, hself, hold j hj] at heq
        exact absurd heq.symm (hne j hj)
      · rw [hk, hj]
  · rw [BitMap.marked_setBit hi, hf.marked, or_assoc, hlisted, eq_comm]
  · have hcount := hf.numClear
    rw [BitMap.marked_natCast hi] at hnew
    have hone := BitMap.numClear_setBit hi (Bool.eq_false_iff.mpr hnew)
    omega

theorem found (ds : ℕ → ℤ) (hn : n ≤ m.numClear) :
    Found m n (findSectors ds m n).1 (findSectors ds m n).2 := by
  induction n with
  | zero => exact ⟨rfl, nofun, nofun, nofun, nofun, fun x => by simp [findSectors], rfl⟩
  | succ n ih =>
    have hf := ih (by omega)
    have hcount := hf.numClear
    obtain ⟨j, hj, hbit⟩ := BitMap.numClear_pos (m := (findSectors ds m n).2) (by omega)
    rcases (findSectors ds m n).2.find_cases with ⟨i, hi, hnew, hfirst, hfind⟩ | ⟨hfull, -⟩
    · rw [findSectors]
      simp only [hfind]
      exact hf.succ hi hnew hfirst
    · have hmarked := hfull j (Int.natCast_nonneg j) (by omega)
      rw [BitMap.marked_natCast hj, hbit] at hmarked
      cases hmarked

theorem divRoundUp_spec {size : ℤ} (h : 0 ≤ size) :
    0 ≤ divRoundUp size sectorSize ∧ size ≤ sectorSize * divRoundUp size sectorSize ∧
      sectorSize * divRoundUp size sectorSize < size + sectorSize := by
  rw [divRoundUp, Int.tdiv_eq_ediv_of_nonneg h, Int.tmod_eq_emod_of_nonneg h, sectorSize]
  split_ifs <;> omega

/-- The number of sectors for `size` bytes is the quotient that is rounded up. -/
theorem divRoundUp_eq (size : ℤ) : divRoundUp size sectorSize = (size + 127) / 128 := by
  have hdiv := tdiv_cases size 128
  have hmod := Int.mul_tdiv_add_tmod size 128
  rw [divRoundUp, show (sectorSize : ℤ) = 128 from rfl]
  split_ifs <;> omega

/-- `h` is the header of a new file: its sectors are the first clear bits of `m`, and `m'` has
them marked too. -/
structure Allocated (m : BitMap) (size : ℤ) (h : FileHeader) (m' : BitMap) : Prop where
  valid : h.Valid
  numBytes : h.numBytes = size
  numSectors : h.numSectors = divRoundUp size sectorSize
  nodup : h.sectors.Nodup
  clear : ∀ s ∈ h.sectors, ¬ m.Marked s
  first : ∀ s ∈ h.sectors, ∀ x, 0 ≤ x → x < s → m.Marked x ∨ x ∈ h.sectors
  numBits : m'.numBits = m.numBits
  marked : ∀ x, m'.Marked x ↔ m.Marked x ∨ x ∈ h.sectors
  numClear : m'.numClear + h.numSectors = m.numClear

/-- The sectors of `h` are different clear bits of `m`, the first ones, and `m'` has them marked
too. -/
structure Taken (m : BitMap) (h : FileHeader) (m' : BitMap) : Prop where
  isSector : ∀ s ∈ h.sectors, IsSector s
  nodup : h.sectors.Nodup
  clear : ∀ s ∈ h.sectors, ¬ m.Marked s
  first : ∀ s ∈ h.sectors, ∀ x, 0 ≤ x → x < s → m.Marked x ∨ x ∈ h.sectors
  numBits : m'.numBits = m.numBits
  marked : ∀ x, m'.Marked x ↔ m.Marked x ∨ x ∈ h.sectors

theorem Found.taken {size k : ℤ} (hf : Found m k.toNat ds m') (hm : m.numBits = Disk.numSectors) :
    Taken m ⟨size, k, ds⟩ m' := by
  have hmem (x : ℤ) : x ∈ FileHeader.sectors ⟨size, k, ds⟩ ↔ ∃ j < k.toNat, ds j = x := by
    simp [FileHeader.sectors]
  constructor
  · intro s hs
    obtain ⟨j, hj, rfl⟩ := (hmem s).mp hs
    have hrange := hf.range j hj
    rwa [hm] at hrange
  · apply (List.nodup_map_iff_inj_on (List.nodup_range)).mpr
    intro i hi j hj heq
    exact hf.inj i (List.mem_range.mp hi) j (List.mem_range.mp hj) heq
  · intro s hs
    obtain ⟨j, hj, rfl⟩ := (hmem s).mp hs
    exact hf.clear j hj
  · intro s hs x hx hlt
    obtain ⟨j, hj, rfl⟩ := (hmem s).mp hs
    rw [hmem]
    exact hf.first j hj x hx hlt
  · exact hf.numBits
  · intro x
    rw [hf.marked, hmem]

theorem Allocated.taken {size : ℤ} (ha : Allocated m size h m') : Taken m h m' :=
  ⟨ha.valid.isSector, ha.nodup, ha.clear, ha.first, ha.numBits, ha.marked⟩

/-- Whatever the size, an allocation that succeeds makes a header that can be stored. -/
theorem taken_of_allocate {g : FileHeader} {size : ℤ} (hm : m.numBits = Disk.numSectors)
    (hlow : -intMax - 1 ≤ size) (hhigh : size ≤ intMax)
    (ha : g.allocate m size = some (true, h, m')) : h.Storable ∧ Taken m h m' := by
  rw [allocate] at ha
  split_ifs at ha with hfew hdirect
  · cases ha
  · cases ha
    have hf := found g.dataSectors (m := m) (n := (divRoundUp size sectorSize).toNat) (by omega)
    have htaken : Taken m ⟨size, _, _⟩ _ := hf.taken (k := divRoundUp size sectorSize) hm
    refine ⟨⟨hlow, hhigh, ?_, not_lt.mp hdirect, htaken.isSector⟩, htaken⟩
    simp only
    rw [divRoundUp_eq]
    unfold intMax at *
    omega

/-- What `Allocate` does: it finds too few clear bits and leaves the map alone, or makes the
header of a new file. -/
theorem allocate_cases (g : FileHeader) (m : BitMap) {size : ℤ} (hm : m.numBits = Disk.numSectors)
    (hpos : 0 ≤ size) (hmax : size ≤ maxFileSize) :
    (∃ h, g.allocate m size = some (false, h, m) ∧ m.numClear < divRoundUp size sectorSize) ∨
    ∃ h m', g.allocate m size = some (true, h, m') ∧ Allocated m size h m' := by
  obtain ⟨hn, hle, hlt⟩ := divRoundUp_spec hpos
  have hdirect : divRoundUp size sectorSize ≤ numDirect := by
    rw [maxFileSize, numDirect] at hmax
    rw [numDirect]
    rw [sectorSize] at *
    omega
  rw [allocate]
  by_cases hfew : (m.numClear : ℤ) < divRoundUp size sectorSize
  · left
    simp only [if_pos hfew]
    exact ⟨_, rfl, hfew⟩
  · right
    simp only [if_neg hfew, if_neg (not_lt.mpr hdirect)]
    have hf := found g.dataSectors (m := m) (n := (divRoundUp size sectorSize).toNat) (by omega)
    have ht : Taken m ⟨size, _, _⟩ _ := hf.taken (k := divRoundUp size sectorSize) hm
    have hcount := hf.numClear
    refine ⟨_, _, rfl, ⟨hpos, hn, hle, hdirect, ht.isSector⟩, rfl, rfl, ht.nodup, ht.clear, ht.first,
      ht.numBits, ht.marked, ?_⟩
    simp only
    omega

/-- When the data sectors are marked and different, `Deallocate` clears them. -/
theorem deallocate_eq (hle : h.numSectors ≤ numDirect) (hnodup : h.sectors.Nodup)
    (hmarked : ∀ s ∈ h.sectors, m.Marked s) :
    ∃ m', h.deallocate m = some m' ∧ m'.numBits = m.numBits ∧
      ∀ x, m'.Marked x ↔ m.Marked x ∧ x ∉ h.sectors := by
  have hloop (n : ℕ) (hn : n ≤ h.numSectors.toNat) :
      ∃ m', h.clearSectors m n = some m' ∧ m'.numBits = m.numBits ∧
        ∀ x, m'.Marked x ↔ m.Marked x ∧ ∀ k < n, h.dataSectors k ≠ x := by
    induction n with
    | zero => exact ⟨m, rfl, rfl, fun x => by simp⟩
    | succ n ih =>
      obtain ⟨m₁, hm₁, hbits, hmarks⟩ := ih (by omega)
      have htest : m₁.Marked (h.dataSectors n) := by
        refine (hmarks _).mpr ⟨hmarked _ (mem_sectors (by omega)), fun k hk heq => ?_⟩
        rw [FileHeader.sectors, List.nodup_map_iff_inj_on List.nodup_range] at hnodup
        have hkn := hnodup k (List.mem_range.mpr (by omega)) n (List.mem_range.mpr (by omega)) heq
        omega
      obtain ⟨m₂, hm₂, hbits₂, hmarks₂⟩ := htest.clear
      refine ⟨m₂, ?_, hbits₂.trans hbits, fun x => ?_⟩
      · rw [BitMap.Marked] at htest
        rw [clearSectors, hm₁, Option.bind_eq_bind, Option.bind_some, htest, Option.bind_eq_bind,
          Option.bind_some, if_pos rfl, hm₂]
      · rw [hmarks₂, hmarks, and_assoc]
        apply and_congr_right
        intro _
        constructor
        · rintro ⟨hother, hx⟩ k hk
          by_cases hkn : k = n
          · rw [hkn]
            exact fun heq => hx heq.symm
          · exact hother k (by omega)
        · intro hall
          exact ⟨fun k hk => hall k (by omega), fun heq => hall n (by omega) heq.symm⟩
  obtain ⟨m', hm', hbits, hmarks⟩ := hloop _ le_rfl
  refine ⟨m', by rw [deallocate, if_neg (not_lt.mpr hle), hm'], hbits, fun x => ?_⟩
  rw [hmarks, FileHeader.sectors]
  simp

end FileHeader
end Coursework.Nachos
