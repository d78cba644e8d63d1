import Coursework.Nachos.FileSystem.Transfer

/-!
# Requests to an open file with arithmetic that wraps

`ReadAt` and `WriteAt` by the memory they use: elements of the array of sectors, bytes of
their buffer and bytes of the file. Positions and sizes are machine integers here. A request
keeps to the bounds when its position is not negative and its end fits an `int`, and never
otherwise.
-/
namespace Coursework.Nachos.Request
open Disk FileHeader

/-- What a transfer uses: `dataSectors[i]`; `count` bytes of a buffer of `size` bytes; `count`
bytes of the file, which are those that are copied between the buffer and the caller. -/
inductive Access
  | entry (i : ℤ)
  | buf (size first count : ℤ)
  | file (first count : ℤ)
  deriving DecidableEq

/-- The size that is left of a request after the checks at the start. -/
def cut (fileLength numBytes position : Int32) : Int32 :=
  if position + numBytes > fileLength then fileLength - position else numBytes

def firstSector (position : Int32) : Int32 := position / 128

def lastSector (position numBytes : Int32) : Int32 := (position + numBytes - 1) / 128

/-- The size of `buf`, which is `numSectors * SectorSize`. -/
def bufSize (position numBytes : Int32) : Int32 :=
  (1 + lastSector position numBytes - firstSector position) * 128

/-- The loop from `firstSector` to `lastSector` that reads or writes a sector at a time. -/
def sectorLoop (position numBytes : Int32) : List Access :=
  let first := firstSector position
  let last := lastSector position numBytes
  (List.range (last.toInt + 1 - first.toInt).toNat).flatMap fun k =>
    let i := first + Int32.ofNat k
    [.entry (i * 128 / 128).toInt,
      .buf (bufSize position numBytes).toInt ((i - first) * 128).toInt sectorSize]

/-- The copy between the buffer and the memory of the caller. -/
def copyPart (position numBytes : Int32) : List Access :=
  [.buf (bufSize position numBytes).toInt (position - firstSector position * 128).toInt
      numBytes.toInt,
    .file position.toInt numBytes.toInt]

/-- The checks that `ReadAt` and `WriteAt` begin with, and the count that they return. -/
def request (fileLength numBytes position : Int32) (transfer : Int32 → List Access) :
    List Access × Int32 :=
  if numBytes ≤ 0 ∨ position ≥ fileLength then ([], 0)
  else
    let numBytes := cut fileLength numBytes position
    (transfer numBytes, numBytes)

/-- The accesses of `ReadAt`, and its result. -/
def readAt (fileLength numBytes position : Int32) : List Access × Int32 :=
  request fileLength numBytes position fun numBytes =>
    sectorLoop position numBytes ++ copyPart position numBytes

/-- A sector is read into offset `off` of a buffer of `size` bytes. -/
def readPart (fileLength size off sector : Int32) : List Access :=
  let t := readAt fileLength 128 (sector * 128)
  t.1 ++ [.buf size.toInt off.toInt t.2.toInt]

/-- The first and the last sector of a write are read in, if they are to be partially modified. -/
def readEnds (fileLength numBytes position : Int32) : List Access :=
  let first := firstSector position
  let last := lastSector position numBytes
  let size := bufSize position numBytes
  let firstAligned := position = first * 128
  let lastAligned := position + numBytes = (last + 1) * 128
  (if ¬ firstAligned then readPart fileLength size 0 first else []) ++
    if ¬ lastAligned ∧ (first ≠ last ∨ firstAligned) then
      readPart fileLength size ((last - first) * 128) last
    else []

/-- The accesses of `WriteAt`, and its result. -/
def writeAt (fileLength numBytes position : Int32) : List Access × Int32 :=
  request fileLength numBytes position fun numBytes =>
    readEnds fileLength numBytes position ++ copyPart position numBytes ++
      sectorLoop position numBytes

/-- The access stays in the header's sectors, in the buffer, in the file. -/
def Access.InBounds (fileLength : Int32) : Access → Prop
  | .entry i => 0 ≤ i ∧ i < divRoundUp fileLength.toInt sectorSize
  | .buf size first count => 0 ≤ first ∧ first + count ≤ size
  | .file first count => 0 ≤ first ∧ first + count ≤ fileLength.toInt

/-- Nothing is transferred, or all accesses are in bounds and the count is at most the one
that was asked for. -/
def Sound (fileLength numBytes : Int32) (t : List Access × Int32) : Prop :=
  t.2 = 0 ∨ (∀ a ∈ t.1, a.InBounds fileLength) ∧ 0 ≤ t.2 ∧ t.2 ≤ numBytes

variable {fileLength numBytes position count size off sector : Int32}

theorem toInt_128 : (128 : Int32).toInt = 128 := by decide

theorem toInt_one : (1 : Int32).toInt = 1 := by decide

theorem toInt_zero : (0 : Int32).toInt = 0 := by decide

theorem toInt_div_128 (a : Int32) : (a / 128).toInt = a.toInt.tdiv 128 := by
  rw [Int32.toInt_div_of_ne_right _ _ (by decide), toInt_128]

/-! ### Requests that stay in bounds -/

/-- Part of a file that is not larger than a file can be. -/
structure Within (fileLength position count : Int32) : Prop where
  nonneg : 0 ≤ position.toInt
  pos : 0 < count.toInt
  le : position.toInt + count.toInt ≤ fileLength.toInt
  size : fileLength.toInt ≤ maxFileSize

namespace Within

theorem bound (h : Within fileLength position count) : fileLength.toInt ≤ 3840 := h.size

theorem firstSector_eq (h : Within fileLength position count) :
    (firstSector position).toInt = position.toInt / 128 := by
  rw [firstSector, toInt_div_128, Int.tdiv_eq_ediv_of_nonneg h.nonneg]

theorem end_eq (h : Within fileLength position count) :
    (position + count).toInt = position.toInt + count.toInt := by
  have hbound := h.bound
  obtain ⟨hnonneg, hpos, hle, -⟩ := h
  exact toInt_add_of_le (by omega) (by omega)

theorem lastSector_eq (h : Within fileLength position count) :
    (lastSector position count).toInt = (position.toInt + count.toInt - 1) / 128 := by
  have hend := h.end_eq
  have hbound := h.bound
  obtain ⟨hnonneg, hpos, hle, -⟩ := h
  have hsub : (position + count - 1).toInt = position.toInt + count.toInt - 1 := by
    rw [toInt_sub_of_le (by rw [toInt_one]; omega) (by rw [toInt_one]; omega), hend, toInt_one]
  rw [lastSector, toInt_div_128, hsub, Int.tdiv_eq_ediv_of_nonneg (by omega)]

theorem bufSize_eq (h : Within fileLength position count) :
    (bufSize position count).toInt =
      (1 + (position.toInt + count.toInt - 1) / 128 - position.toInt / 128) * 128 := by
  have hfirst := h.firstSector_eq
  have hlast := h.lastSector_eq
  have hbound := h.bound
  obtain ⟨hnonneg, hpos, hle, -⟩ := h
  have hadd : (1 + lastSector position count).toInt =
      1 + (position.toInt + count.toInt - 1) / 128 := by
    rw [toInt_add_of_le (by rw [toInt_one]; omega) (by rw [toInt_one]; omega), toInt_one, hlast]
  have hsub : (1 + lastSector position count - firstSector position).toInt =
      1 + (position.toInt + count.toInt - 1) / 128 - position.toInt / 128 := by
    rw [toInt_sub_of_le (by omega) (by omega), hadd, hfirst]
  rw [bufSize, toInt_mul_of_le (by rw [toInt_128]; omega) (by rw [toInt_128]; omega), toInt_128,
    hsub]

/-- The place of a sector in the array, and of its data in the buffer. -/
theorem index_eq (h : Within fileLength position count) {k : ℕ}
    (hk : k < ((position.toInt + count.toInt - 1) / 128 + 1 - position.toInt / 128).toNat) :
    ((firstSector position + Int32.ofNat k) * 128 / 128).toInt = position.toInt / 128 + k ∧
      ((firstSector position + Int32.ofNat k - firstSector position) * 128).toInt = k * 128 := by
  have hfirst := h.firstSector_eq
  have hbound := h.bound
  obtain ⟨hnonneg, hpos, hle, -⟩ := h
  have hkint : (Int32.ofNat k).toInt = k := Int32.toInt_ofNat_of_lt (by omega)
  have hi : (firstSector position + Int32.ofNat k).toInt = position.toInt / 128 + k := by
    rw [toInt_add_of_le (by omega) (by omega), hfirst, hkint]
  have hsub : (firstSector position + Int32.ofNat k - firstSector position).toInt = k := by
    rw [toInt_sub_of_le (by omega) (by omega), hi, hfirst]
    omega
  constructor
  · rw [toInt_div_128, toInt_mul_of_le (by rw [toInt_128]; omega) (by rw [toInt_128]; omega), hi,
      toInt_128, Int.mul_tdiv_cancel _ (by decide)]
  · rw [toInt_mul_of_le (by rw [toInt_128]; omega) (by rw [toInt_128]; omega), hsub, toInt_128]

/-- The place of the last sector in the buffer. -/
theorem lastOffset_eq (h : Within fileLength position count) :
    ((lastSector position count - firstSector position) * 128).toInt =
      ((position.toInt + count.toInt - 1) / 128 - position.toInt / 128) * 128 := by
  have hfirst := h.firstSector_eq
  have hlast := h.lastSector_eq
  have hbound := h.bound
  obtain ⟨hnonneg, hpos, hle, -⟩ := h
  have hsub : (lastSector position count - firstSector position).toInt =
      (position.toInt + count.toInt - 1) / 128 - position.toInt / 128 := by
    rw [toInt_sub_of_le (by omega) (by omega), hlast, hfirst]
  rw [toInt_mul_of_le (by rw [toInt_128]; omega) (by rw [toInt_128]; omega), hsub, toInt_128]

theorem sectorLoop_inBounds (h : Within fileLength position count) :
    ∀ a ∈ sectorLoop position count, a.InBounds fileLength := by
  intro a ha
  rw [sectorLoop, h.lastSector_eq, h.firstSector_eq] at ha
  obtain ⟨k, hk, ha⟩ := List.mem_flatMap.mp ha
  have hk := List.mem_range.mp hk
  obtain ⟨hentry, hbuf⟩ := h.index_eq hk
  have hsectors := divRoundUp_eq fileLength.toInt
  have hsize := h.bufSize_eq
  obtain ⟨hnonneg, hpos, hle, -⟩ := h
  simp only [hentry, hbuf, hsize] at ha
  rcases List.mem_pair.mp ha with rfl | rfl
  · rw [Access.InBounds, hsectors]
    omega
  · rw [Access.InBounds, sectorSize]
    omega

theorem copyPart_inBounds (h : Within fileLength position count) :
    ∀ a ∈ copyPart position count, a.InBounds fileLength := by
  intro a ha
  have hfirst := h.firstSector_eq
  have hsize := h.bufSize_eq
  have hbound := h.bound
  obtain ⟨hnonneg, hpos, hle, -⟩ := h
  have hmul : (firstSector position * 128).toInt = position.toInt / 128 * 128 := by
    rw [toInt_mul_of_le (by rw [toInt_128]; omega) (by rw [toInt_128]; omega), hfirst, toInt_128]
  have hoff : (position - firstSector position * 128).toInt =
      position.toInt - position.toInt / 128 * 128 := by
    rw [toInt_sub_of_le (by omega) (by omega), hmul]
  rw [copyPart, hoff, hsize] at ha
  rcases List.mem_pair.mp ha with rfl | rfl
  · rw [Access.InBounds]
    omega
  · exact ⟨hnonneg, hle⟩

end Within

/-! ### Checked requests -/

/-- Requests that are refused at once, or whose position is not negative and whose end fits. -/
def Checked (fileLength numBytes position : Int32) : Prop :=
  numBytes ≤ 0 ∨ fileLength ≤ position ∨
    0 ≤ position ∧ position.toInt + numBytes.toInt ≤ intMax

instance : Decidable (Checked fileLength numBytes position) :=
  inferInstanceAs (Decidable (_ ∨ _ ∨ _))

theorem le_zero_iff : numBytes ≤ 0 ↔ numBytes.toInt ≤ 0 := by
  rw [Int32.le_iff_toInt_le, toInt_zero]

theorem not_refused (h : ¬ (numBytes ≤ 0 ∨ position ≥ fileLength)) :
    0 < numBytes.toInt ∧ position.toInt < fileLength.toInt := by
  rw [le_zero_iff, ge_iff_le, Int32.le_iff_toInt_le] at h
  omega

section Cut
variable (hpos : 0 < numBytes.toInt) (hlt : position.toInt < fileLength.toInt)
include hpos hlt

/-- What is left of a request whose end can be computed. -/
theorem cut_of_end (hend : (position + numBytes).toInt = position.toInt + numBytes.toInt) :
    (cut fileLength numBytes position).toInt =
      min numBytes.toInt (fileLength.toInt - position.toInt) := by
  have hnum := numBytes.toInt_lt
  rw [cut]
  split_ifs with hgt
  · have hgt := Int32.lt_iff_toInt_lt.mp hgt
    rw [toInt_sub_of_le (by omega) (by omega)]
    omega
  · have hle := mt Int32.lt_iff_toInt_lt.mpr hgt
    omega

/-- What is left of a request after the checks. -/
theorem cut_eq (hnonneg : 0 ≤ position.toInt) (hfits : position.toInt + numBytes.toInt ≤ intMax) :
    (cut fileLength numBytes position).toInt =
      min numBytes.toInt (fileLength.toInt - position.toInt) := by
  rw [intMax] at hfits
  exact cut_of_end hpos hlt (toInt_add_of_le (by omega) (by omega))

theorem within_cut (hsize : fileLength.toInt ≤ maxFileSize) (hnonneg : 0 ≤ position.toInt)
    (hfits : position.toInt + numBytes.toInt ≤ intMax) :
    Within fileLength position (cut fileLength numBytes position) := by
  have hcut := cut_eq hpos hlt hnonneg hfits
  exact ⟨hnonneg, by omega, by omega, hsize⟩

/-- A negative position leaves a positive size. -/
theorem cut_pos_of_neg (hneg : position.toInt < 0) :
    0 < (cut fileLength numBytes position).toInt := by
  have hnum := numBytes.toInt_lt
  have hlow := position.le_toInt
  rw [cut_of_end hpos hlt (toInt_add_of_le (by omega) (by omega))]
  omega

/-- An end that does not fit is negative, and the request is not cut. -/
theorem cut_of_overflow (hover : intMax < position.toInt + numBytes.toInt) :
    cut fileLength numBytes position = numBytes := by
  rw [intMax] at hover
  have hnum := numBytes.toInt_lt
  have hposition := position.toInt_lt
  have hend : (position + numBytes).toInt = position.toInt + numBytes.toInt - 2 ^ 32 :=
    toInt_add_of_lt (by omega)
  refine if_neg fun hgt => ?_
  have hgt := Int32.lt_iff_toInt_lt.mp hgt
  omega

end Cut

/-! ### Both operations -/

variable {transfer : Int32 → List Access}

theorem transfer_read (h : Within fileLength position count) :
    ∀ a ∈ sectorLoop position count ++ copyPart position count, a.InBounds fileLength := by
  intro a ha
  rcases List.mem_append.mp ha with ha | ha
  · exact h.sectorLoop_inBounds a ha
  · exact h.copyPart_inBounds a ha

section InBounds
variable (hsize : fileLength.toInt ≤ maxFileSize)
include hsize

/-- What a request does from a position in the file on, it does in bounds. -/
theorem request_inBounds
    (h : ∀ {count}, Within fileLength position count → ∀ a ∈ transfer count, a.InBounds fileLength)
    (hnonneg : 0 ≤ position.toInt) (hfits : position.toInt + numBytes.toInt ≤ intMax) :
    (∀ a ∈ (request fileLength numBytes position transfer).1, a.InBounds fileLength) ∧
      0 ≤ (request fileLength numBytes position transfer).2.toInt ∧
      (request fileLength numBytes position transfer).2.toInt ≤ max 0 numBytes.toInt := by
  rw [request]
  split_ifs with hrefused
  · exact ⟨nofun, toInt_zero.ge, by rw [toInt_zero]; omega⟩
  · obtain ⟨hpos, hlt⟩ := not_refused hrefused
    have hwithin := within_cut hpos hlt hsize hnonneg hfits
    have hcut := cut_eq hpos hlt hnonneg hfits
    refine ⟨h hwithin, hwithin.pos.le, ?_⟩
    change (cut fileLength numBytes position).toInt ≤ _
    omega

/-- A sector that is written in part is read into its place in the buffer. -/
theorem readPart_inBounds (hsector : 0 ≤ sector.toInt) (hlt : sector.toInt < numDirect)
    (hoff : 0 ≤ off.toInt) (hbuf : off.toInt + sectorSize ≤ size.toInt) :
    ∀ a ∈ readPart fileLength size off sector, a.InBounds fileLength := by
  rw [show (numDirect : ℤ) = 30 from rfl] at hlt
  rw [sectorSize] at hbuf
  have hmul : (sector * 128).toInt = sector.toInt * 128 := by
    rw [toInt_mul_of_le (by rw [toInt_128]; omega) (by rw [toInt_128]; omega), toInt_128]
  have hfits : (sector * 128).toInt + (128 : Int32).toInt ≤ intMax := by
    rw [hmul, toInt_128, intMax]
    omega
  obtain ⟨hall, hnonneg, hle⟩ := request_inBounds hsize transfer_read (by omega) hfits
  rw [toInt_128] at hle
  intro a ha
  rcases List.mem_append.mp ha with ha | ha
  · exact hall a ha
  · rw [List.mem_singleton.mp ha, Access.InBounds, readAt]
    omega

theorem readEnds_inBounds (h : Within fileLength position count) :
    ∀ a ∈ readEnds fileLength count position, a.InBounds fileLength := by
  have hfirst := h.firstSector_eq
  have hlast := h.lastSector_eq
  have hoff := h.lastOffset_eq
  have hbuf := h.bufSize_eq
  have hbound := h.bound
  obtain ⟨hnonneg, hpos, hle, -⟩ := h
  have hdirect : (numDirect : ℤ) = 30 := rfl
  intro a ha
  rcases List.mem_append.mp ha with ha | ha
  · split_ifs at ha
    · cases ha
    · refine readPart_inBounds hsize ?_ ?_ toInt_zero.ge ?_ a ha
      · omega
      · omega
      · rw [toInt_zero, hbuf, sectorSize]
        omega
  · split_ifs at ha
    · refine readPart_inBounds hsize ?_ ?_ ?_ ?_ a ha
      · omega
      · omega
      · omega
      · rw [hoff, hbuf, sectorSize]
        omega
    · cases ha

theorem transfer_write (h : Within fileLength position count) :
    ∀ a ∈ readEnds fileLength count position ++ copyPart position count ++
      sectorLoop position count, a.InBounds fileLength := by
  intro a ha
  rcases List.mem_append.mp ha with ha | ha
  · rcases List.mem_append.mp ha with ha | ha
    · exact readEnds_inBounds hsize h a ha
    · exact h.copyPart_inBounds a ha
  · exact h.sectorLoop_inBounds a ha

end InBounds

/-- Bytes before the start of the file, or past its end, are transferred. -/
theorem request_outside (hsize : fileLength.toInt ≤ maxFileSize)
    (h : ∀ count, ∀ a ∈ copyPart position count, a ∈ transfer count)
    (hnot : ¬ Checked fileLength numBytes position) :
    (request fileLength numBytes position transfer).2 ≠ 0 ∧
      ∃ a ∈ (request fileLength numBytes position transfer).1, ¬ a.InBounds fileLength := by
  rw [Checked, not_or, not_or, Int32.le_iff_toInt_le, Int32.le_iff_toInt_le, Int32.le_iff_toInt_le,
    toInt_zero] at hnot
  obtain ⟨hpos, hlt, hout⟩ := hnot
  have hpos := not_le.mp hpos
  have hlt := not_le.mp hlt
  have hcut : 0 < (cut fileLength numBytes position).toInt ∧ ¬ (0 ≤ position.toInt ∧
      position.toInt + (cut fileLength numBytes position).toInt ≤ fileLength.toInt) := by
    by_cases hneg : position.toInt < 0
    · exact ⟨cut_pos_of_neg hpos hlt hneg, by omega⟩
    · have hover : intMax < position.toInt + numBytes.toInt := by omega
      rw [cut_of_overflow hpos hlt hover]
      rw [intMax] at hover
      have hmax : (maxFileSize : ℤ) = 3840 := rfl
      exact ⟨hpos, by omega⟩
  have hrefused : ¬ (numBytes ≤ 0 ∨ position ≥ fileLength) := by
    rw [le_zero_iff, ge_iff_le, Int32.le_iff_toInt_le]
    omega
  rw [request, if_neg hrefused]
  refine ⟨fun hzero => ?_, .file position.toInt (cut fileLength numBytes position).toInt,
    h _ _ (List.mem_cons_of_mem _ (List.mem_singleton_self _)), hcut.2⟩
  have hzero : (cut fileLength numBytes position).toInt = 0 := by
    rw [show cut fileLength numBytes position = 0 from hzero, toInt_zero]
  omega

theorem request_sound_iff (hsize : fileLength.toInt ≤ maxFileSize)
    (h : ∀ {count}, Within fileLength position count → ∀ a ∈ transfer count, a.InBounds fileLength)
    (hcopy : ∀ count, ∀ a ∈ copyPart position count, a ∈ transfer count) :
    Sound fileLength numBytes (request fileLength numBytes position transfer) ↔
      Checked fileLength numBytes position := by
  constructor
  · intro hsound
    by_contra hnot
    obtain ⟨hne, a, ha, hout⟩ := request_outside hsize hcopy hnot
    exact hout ((hsound.resolve_left hne).1 a ha)
  · intro hchecked
    by_cases hrefused : numBytes ≤ 0 ∨ position ≥ fileLength
    · rw [request, if_pos hrefused]
      exact .inl rfl
    · obtain ⟨hpos, hlt⟩ := not_refused hrefused
      rw [Checked, ← or_assoc] at hchecked
      obtain ⟨hnonneg, hfits⟩ := hchecked.resolve_left hrefused
      rw [Int32.le_iff_toInt_le, toInt_zero] at hnonneg
      obtain ⟨hall, hlow, hhigh⟩ := request_inBounds hsize h hnonneg hfits
      rw [max_eq_right hpos.le] at hhigh
      refine .inr ⟨hall, ?_, Int32.le_iff_toInt_le.mpr hhigh⟩
      rw [Int32.le_iff_toInt_le, toInt_zero]
      exact hlow

/-- An open file transfers what the machine returns, and nothing is defined for the requests
that leave the bounds. -/
theorem clip_eq_request {f : OpenFile} (hlen : f.hdr.numBytes = fileLength.toInt) :
    f.clip numBytes.toInt position.toInt =
      if Checked fileLength numBytes position then
        some (request fileLength numBytes position transfer).2.toInt.toNat
      else none := by
  have hge : (position ≥ fileLength) ↔ position.toInt ≥ f.hdr.numBytes := by
    rw [ge_iff_le, Int32.le_iff_toInt_le, hlen]
  by_cases hrefused : numBytes ≤ 0 ∨ position ≥ fileLength
  · have hchecked : Checked fileLength numBytes position := by
      rw [Checked, ← or_assoc]
      exact .inl hrefused
    rw [if_pos hchecked, request, if_pos hrefused, OpenFile.clip,
      if_pos (by rwa [← le_zero_iff, ← hge]), toInt_zero, Int.toNat_zero]
  · obtain ⟨hpos, hlt⟩ := not_refused hrefused
    have hchecked : Checked fileLength numBytes position ↔
        0 ≤ position.toInt ∧ position.toInt + numBytes.toInt ≤ intMax := by
      rw [Checked, ← or_assoc, or_iff_right hrefused, Int32.le_iff_toInt_le, toInt_zero]
    rw [request, if_neg hrefused]
    split_ifs with hc
    · obtain ⟨hnonneg, hfits⟩ := hchecked.mp hc
      rw [OpenFile.clip_eq hpos hnonneg (hlen ▸ hlt) hfits, cut_eq hpos hlt hnonneg hfits, hlen]
    · rw [OpenFile.clip, if_neg (by rwa [← le_zero_iff, ← hge])]
      split_ifs with hneg
      · rfl
      · have hover : ¬ position.toInt + numBytes.toInt ≤ intMax := fun hle =>
          hc (hchecked.mpr ⟨by omega, hle⟩)
        rw [int, if_neg fun h => hover h.2]
        rfl

/-- A negative position leads out of the array of sectors or out of the buffer. -/
theorem index_of_neg (hpos : 0 < count.toInt) (hneg : position.toInt < 0)
    (hend : position.toInt + count.toInt ≤ maxFileSize) :
    (∃ i < 0, Access.entry i ∈ sectorLoop position count) ∨
      ∃ size first n, first < 0 ∧ Access.buf size first n ∈ copyPart position count := by
  have hmax : (maxFileSize : ℤ) = 3840 := rfl
  have hlow := position.le_toInt
  have hfirst : (firstSector position).toInt = position.toInt.tdiv 128 := toInt_div_128 position
  have hdiv := tdiv_cases position.toInt 128
  by_cases hsector : position.toInt ≤ -128
  · left
    have hlast : (firstSector position).toInt ≤ (lastSector position count).toInt := by
      have hadd : (position + count).toInt = position.toInt + count.toInt :=
        toInt_add_of_le (by omega) (by omega)
      have hsub : (position + count - 1).toInt = position.toInt + count.toInt - 1 := by
        rw [toInt_sub_of_le (by rw [toInt_one]; omega) (by rw [toInt_one]; omega), hadd, toInt_one]
      have hdivLast := tdiv_cases (position.toInt + count.toInt - 1) 128
      rw [hfirst, lastSector, toInt_div_128, hsub]
      omega
    have hindex : ((firstSector position + Int32.ofNat 0) * 128 / 128).toInt =
        position.toInt.tdiv 128 := by
      rw [show Int32.ofNat 0 = 0 from rfl, Int32.add_zero, toInt_div_128,
        toInt_mul_of_le (by rw [toInt_128]; omega) (by rw [toInt_128]; omega), toInt_128,
        Int.mul_tdiv_cancel _ (by decide), hfirst]
    refine ⟨position.toInt.tdiv 128, by omega, List.mem_flatMap.mpr ⟨0, ?_, ?_⟩⟩
    · rw [List.mem_range]
      omega
    · rw [← hindex]
      exact List.mem_cons_self
  · right
    have hzero : firstSector position = 0 := by
      rw [← Int32.toInt_inj, hfirst, toInt_zero]
      omega
    refine ⟨_, _, _, ?_, List.mem_cons_self⟩
    rw [hzero, Int32.zero_mul, Int32.sub_zero]
    exact hneg

/-- Requests to files of every length that a file can have. -/
theorem requests_sound_iff (fileLength numBytes position : Int32)
    (hhigh : fileLength.toInt ≤ maxFileSize) :
    (Sound fileLength numBytes (readAt fileLength numBytes position) ↔
        Checked fileLength numBytes position) ∧
      (Sound fileLength numBytes (writeAt fileLength numBytes position) ↔
        Checked fileLength numBytes position) := by
  constructor
  · exact request_sound_iff hhigh transfer_read fun _ _ => List.mem_append_right _
  · exact request_sound_iff hhigh (transfer_write hhigh) fun _ _ ha =>
      List.mem_append_left _ (List.mem_append_right _ ha)

/-- 10 bytes at 90 of a file of 100 are in bounds, at -5 they are not. -/
theorem requests_sound_iff_hundred : Sound 100 10 (readAt 100 10 90) ∧
    Sound 100 10 (writeAt 100 10 90) ∧ ¬ Sound 100 10 (readAt 100 10 (-5)) := by
  have hsize (n : Int32) := requests_sound_iff 100 10 n (by decide)
  exact ⟨(hsize 90).1.mpr (by decide), (hsize 90).2.mpr (by decide),
    fun h => absurd ((hsize (-5)).1.mp h) (by decide)⟩

/-- The byte before the buffer is among those that are read. -/
theorem readAt_before_buf : ¬ ∀ fileLength numBytes position : Int32, 0 ≤ fileLength.toInt →
    fileLength.toInt ≤ maxFileSize →
    Sound fileLength numBytes (readAt fileLength numBytes position) ∧
      Sound fileLength numBytes (writeAt fileLength numBytes position) := by
  intro h
  rcases (h 100 10 (-5) (by decide) (by decide)).1 with hzero | ⟨hall, -⟩
  · exact absurd hzero (by decide)
  · exact absurd (hall (.buf 128 (-5) 10) (by decide)).1 (by decide)

end Coursework.Nachos.Request
