import Coursework.Nachos.FileSystem.FileHeader

/-!
# Reading and writing open files, after `openfile.cc`

An open file has a copy of its header from the time of the opening. `ReadAt` and `WriteAt`
transfer whole sectors by way of a buffer; for a sector that is written in part the buffer
is read first. `none` stands for a failed assertion and for what is undefined: a negative
position, an `int` that overflows, a position past the array of sectors.
-/
namespace Coursework.Nachos
open Disk

/-- `class OpenFile` -/
structure OpenFile where
  hdr : FileHeader
  seekPosition : ℤ

namespace OpenFile

/-- The constructor. -/
def new (garbage : FileHeader) (d : Disk) (sector : ℤ) : Option OpenFile :=
  (garbage.fetchFrom d sector).map fun hdr => ⟨hdr, 0⟩

/-- The number of bytes to transfer at `position`, from the checks that `ReadAt` and `WriteAt`
begin with; it is 0 where they return at once. -/
def clip (f : OpenFile) (numBytes position : ℤ) : Option ℕ :=
  if numBytes ≤ 0 ∨ position ≥ f.hdr.numBytes then some 0
  else if position < 0 then none
  else do
    let stop ← int (position + numBytes)
    some (if stop > f.hdr.numBytes then f.hdr.numBytes - position else numBytes).toNat

/-- Sectors `firstSector` onward of the file, `n` of them, are read into `buf`. -/
def readSectors (f : OpenFile) (d : Disk) (firstSector : ℕ) (buf : Mem) : ℕ → Option Mem
  | 0 => some buf
  | n + 1 => do
    let buf ← readSectors f d firstSector buf n
    let sector ← f.hdr.byteToSector ((firstSector + n) * sectorSize)
    let data ← d.readSector sector (buf.drop (n * sectorSize))
    some (buf.copy (n * sectorSize) sectorSize data)

/-- `ReadAt` into the memory `into`, with `buf` for the new buffer: the memory after it and
the number of bytes read. -/
def readAt (f : OpenFile) (d : Disk) (buf into : Mem) (numBytes position : ℤ) :
    Option (Mem × ℕ) := do
  let n ← f.clip numBytes position
  if n = 0 then some (into, 0)
  else
    let pos := position.toNat
    let firstSector := pos / sectorSize
    let lastSector := (pos + n - 1) / sectorSize
    let buf ← f.readSectors d firstSector buf (1 + lastSector - firstSector)
    some (into.copy 0 n (buf.drop (pos - firstSector * sectorSize)), n)

/-- Sectors `firstSector` onward of the file, `n` of them, are written from `buf`. -/
def writeSectors (f : OpenFile) (d : Disk) (firstSector : ℕ) (buf : Mem) : ℕ → Option Disk
  | 0 => some d
  | n + 1 => do
    let d ← writeSectors f d firstSector buf n
    let sector ← f.hdr.byteToSector ((firstSector + n) * sectorSize)
    d.writeSector sector (buf.drop (n * sectorSize))

/-- A sector that is written in part is read into the buffer at `off`. -/
def readPart (f : OpenFile) (d : Disk) (garbage buf : Mem) (off sector : ℕ) : Option Mem := do
  let (data, n) ← f.readAt d garbage (buf.drop off) sectorSize (sector * sectorSize : ℕ)
  some (buf.copy off n data)

/-- The first and the last sector of a write are read in, if they are to be partially modified. -/
def readEnds (f : OpenFile) (d : Disk) (garbage buf : Mem) (pos n : ℕ) : Option Mem := do
  let firstSector := pos / sectorSize
  let lastSector := (pos + n - 1) / sectorSize
  let firstAligned := pos = firstSector * sectorSize
  let lastAligned := pos + n = (lastSector + 1) * sectorSize
  let buf ← if firstAligned then some buf else f.readPart d garbage buf 0 firstSector
  if ¬ lastAligned ∧ (firstSector ≠ lastSector ∨ firstAligned) then
    f.readPart d garbage buf ((lastSector - firstSector) * sectorSize) lastSector
  else some buf

/-- `WriteAt`; `buf` and `garbage` are the new buffers of it and of its calls of `ReadAt`. -/
def writeAt (f : OpenFile) (d : Disk) (garbage buf src : Mem) (numBytes position : ℤ) :
    Option (Disk × ℕ) := do
  let n ← f.clip numBytes position
  if n = 0 then some (d, 0)
  else
    let pos := position.toNat
    let firstSector := pos / sectorSize
    let lastSector := (pos + n - 1) / sectorSize
    let buf ← f.readEnds d garbage buf pos n
    let buf := buf.copy (pos - firstSector * sectorSize) n src
    let d ← f.writeSectors d firstSector buf (1 + lastSector - firstSector)
    some (d, n)

/-- `Write`, from the position of the last `Seek`, `Read` or `Write` onward. -/
def write (f : OpenFile) (d : Disk) (garbage buf src : Mem) (numBytes : ℤ) :
    Option (OpenFile × Disk × ℕ) := do
  let (d, result) ← f.writeAt d garbage buf src numBytes f.seekPosition
  some ({ f with seekPosition := f.seekPosition + result }, d, result)

/-- The sectors that `WriteAt` writes. -/
def touched (f : OpenFile) (numBytes position : ℤ) : List ℤ :=
  match f.clip numBytes position with
  | none | some 0 => []
  | some (n + 1) =>
    let pos := position.toNat
    (List.range' (pos / sectorSize) (1 + (pos + n) / sectorSize - pos / sectorSize)).map
      f.hdr.dataSectors

/-! ### Contents -/

/-- The bytes of a file by offset: those of its sectors one after the other. -/
def content (d : Disk) (h : FileHeader) : Mem := fun j =>
  d (h.dataSectors (j / sectorSize)) (j % sectorSize)

variable {f : OpenFile} {d d' : Disk} {first n k : ℕ} {numBytes position : ℤ}
  {buf into garbage src : Mem}

/-- Elements of the array of sectors that the transfer of `n` sectors uses. -/
def InRange (h : FileHeader) (first n : ℕ) : Prop :=
  ∀ k, first ≤ k → k < first + n → k < FileHeader.numDirect ∧ IsSector (h.dataSectors k)

theorem InRange.of_le (hr : InRange f.hdr first n) (hk : k ≤ n) : InRange f.hdr first k :=
  fun j hj hlt => hr j hj (by omega)

theorem InRange.byteToSector (hr : InRange f.hdr first (n + 1)) :
    f.hdr.byteToSector ((first + n) * sectorSize) = some (f.hdr.dataSectors (first + n)) := by
  obtain ⟨hlt, -⟩ := hr (first + n) (by omega) (by omega)
  rw [FileHeader.byteToSector, sectorSize, Nat.mul_div_cancel _ (by omega), if_pos hlt]

/-- The sectors of a valid header can be transferred as far as its bytes go. -/
theorem inRange_of_valid (hv : f.hdr.Valid)
    (h : ((first + n) * sectorSize : ℤ) < f.hdr.numBytes + sectorSize) :
    InRange f.hdr first n := by
  intro k hk hlt
  have hbytes := hv.bytes_le
  have hle := hv.sectors_le
  rw [sectorSize] at *
  have hks : (k : ℤ) < f.hdr.numSectors := by omega
  exact ⟨by omega, hv.isSector _ (FileHeader.mem_sectors hks)⟩

theorem readSectors_eq (buf : Mem) (hr : InRange f.hdr first n) :
    ∃ buf', f.readSectors d first buf n = some buf' ∧
      ∀ j < n * sectorSize, buf' j = content d f.hdr (first * sectorSize + j) := by
  induction n with
  | zero => exact ⟨buf, rfl, fun j hj => by omega⟩
  | succ n ih =>
    obtain ⟨buf₁, hbuf, hall⟩ := ih (hr.of_le (by omega))
    obtain ⟨-, hs⟩ := hr (first + n) (by omega) (by omega)
    simp only [readSectors, hbuf, hr.byteToSector, readSector_eq hs, Option.bind_eq_bind,
      Option.bind_some]
    refine ⟨_, rfl, fun j hj => ?_⟩
    rw [sectorSize] at *
    by_cases hold : j < n * 128
    · rw [Mem.copy_of_not_mem (.inl hold)]
      exact hall j hold
    · rw [Mem.copy_of_mem (by omega) (by omega), Mem.copy_of_mem (by omega) (by omega), content,
        sectorSize, show (first * 128 + j) / 128 = first + n by omega,
        show (first * 128 + j) % 128 = j - n * 128 - 0 by omega]

theorem clip_cases (h : f.clip numBytes position = some n) :
    n = 0 ∨ 0 < n ∧ 0 ≤ position ∧ n ≤ numBytes ∧ position + n ≤ f.hdr.numBytes := by
  rw [clip] at h
  split_ifs at h with hnone hneg
  · left
    cases h
    rfl
  · right
    obtain ⟨stop, hstop, h⟩ := Option.bind_eq_some_iff.mp h
    cases h
    rw [eq_of_int hstop]
    split_ifs <;> omega

/-- How much is transferred of a request that starts in the file. -/
theorem clip_eq (hn : 0 < numBytes) (hpos : 0 ≤ position) (hlt : position < f.hdr.numBytes)
    (hint : position + numBytes ≤ intMax) :
    f.clip numBytes position = some (min numBytes (f.hdr.numBytes - position)).toNat := by
  rw [clip, if_neg (by omega), if_neg (by omega),
    int_eq_some (by unfold intMax at *; omega) hint, Option.bind_eq_bind, Option.bind_some]
  congr 2
  split_ifs <;> omega

theorem readAt_eq (hv : f.hdr.Valid) (hclip : f.clip numBytes position = some n) (hn : n ≠ 0) :
    f.readAt d buf into numBytes position =
      some (into.copy 0 n ((content d f.hdr).drop position.toNat), n) := by
  obtain ⟨-, hpos, -, hle⟩ := (clip_cases hclip).resolve_left hn
  obtain ⟨pos, rfl⟩ := Int.eq_ofNat_of_zero_le hpos
  have hr : InRange f.hdr (pos / sectorSize)
      (1 + (pos + n - 1) / sectorSize - pos / sectorSize) := by
    apply inRange_of_valid hv
    rw [sectorSize]
    omega
  obtain ⟨buf', hbuf, hall⟩ := readSectors_eq (d := d) buf hr
  rw [readAt, hclip, Option.bind_eq_bind, Option.bind_some, if_neg hn]
  simp only [Int.toNat_natCast, hbuf, Option.bind_eq_bind, Option.bind_some]
  congr 2
  funext j
  by_cases hj : j < n
  · rw [Mem.copy_of_mem (by omega) (by omega), Mem.copy_of_mem (by omega) (by omega), Mem.drop,
      Mem.drop, hall]
    · congr 1
      rw [sectorSize]
      omega
    · rw [sectorSize]
      omega
  · rw [Mem.copy_of_not_mem (by omega), Mem.copy_of_not_mem (by omega)]

/-! ### Writing -/

theorem writeSectors_eq (buf : Mem) (hr : InRange f.hdr first n)
    (hinj : ∀ k < first + n, ∀ j < first + n, f.hdr.dataSectors k = f.hdr.dataSectors j → k = j) :
    ∃ d', f.writeSectors d first buf n = some d' ∧
      (∀ s, (∀ k, first ≤ k → k < first + n → f.hdr.dataSectors k ≠ s) → d' s = d s) ∧
      ∀ k < n, ∀ j < sectorSize,
        d' (f.hdr.dataSectors (first + k)) j = buf (k * sectorSize + j) := by
  induction n with
  | zero => exact ⟨d, rfl, fun _ _ => rfl, nofun⟩
  | succ n ih =>
    obtain ⟨d₁, hd, hframe, hdata⟩ := ih (hr.of_le (by omega))
      fun k hk j hj => hinj k (by omega) j (by omega)
    obtain ⟨-, hs⟩ := hr (first + n) (by omega) (by omega)
    simp only [writeSectors, hd, hr.byteToSector, writeSector_eq hs, Option.bind_eq_bind,
      Option.bind_some]
    refine ⟨_, rfl, fun s hne => ?_, fun k hk j hj => ?_⟩
    · rw [Function.update_of_ne (Ne.symm (hne (first + n) (by omega) (by omega)))]
      exact hframe s fun k hk hlt => hne k hk (by omega)
    · by_cases hkn : k = n
      · rw [hkn, Function.update_self, Mem.copy_of_mem (by omega) (by omega), Mem.drop, Nat.sub_zero]
      · have hother : f.hdr.dataSectors (first + k) ≠ f.hdr.dataSectors (first + n) := by
          intro heq
          have hkn := hinj _ (by omega) _ (by omega) heq
          omega
        rw [Function.update_of_ne hother]
        exact hdata k (by omega) j hj

/-- The part of a sector that belongs to the file is read to its place in the buffer. -/
theorem readPart_eq (garbage buf : Mem) (hv : f.hdr.Valid) (off : ℕ)
    (hk : (k * sectorSize : ℤ) < f.hdr.numBytes) :
    ∃ buf', f.readPart d garbage buf off k = some buf' ∧
      (∀ j < sectorSize, (k * sectorSize + j : ℤ) < f.hdr.numBytes →
        buf' (off + j) = content d f.hdr (k * sectorSize + j)) ∧
      ∀ j, j < off ∨ off + sectorSize ≤ j → buf' j = buf j := by
  have hmax := hv.numBytes_le
  rw [sectorSize] at hk
  have hclip : f.clip sectorSize (k * sectorSize : ℕ) =
      some (min (sectorSize : ℤ) (f.hdr.numBytes - (k * sectorSize : ℕ))).toNat := by
    rw [sectorSize]
    apply clip_eq
    · omega
    · omega
    · omega
    · unfold intMax
      omega
  have hmin : (min (sectorSize : ℤ) (f.hdr.numBytes - (k * sectorSize : ℕ))).toNat ≠ 0 := by
    rw [sectorSize]
    omega
  rw [readPart, readAt_eq hv hclip hmin]
  refine ⟨_, rfl, fun j hj hlt => ?_, fun j hj => ?_⟩
  · rw [sectorSize] at *
    rw [Mem.copy_of_mem (by omega) (by omega), Mem.copy_of_mem (by omega) (by omega), Mem.drop,
      Int.toNat_natCast]
    congr 1
    omega
  · rw [sectorSize] at *
    exact Mem.copy_of_not_mem (by omega)

/-- Before the new bytes are copied in, the buffer has the old bytes around them. -/
theorem readEnds_eq (garbage buf : Mem) (hv : f.hdr.Valid) {pos : ℕ} (hn : n ≠ 0)
    (hle : (pos + n : ℤ) ≤ f.hdr.numBytes) :
    ∃ buf', f.readEnds d garbage buf pos n = some buf' ∧
      ∀ j, j < pos - pos / sectorSize * sectorSize ∨ pos - pos / sectorSize * sectorSize + n ≤ j →
        j < (1 + (pos + n - 1) / sectorSize - pos / sectorSize) * sectorSize →
        (pos / sectorSize * sectorSize + j : ℤ) < f.hdr.numBytes →
        buf' j = content d f.hdr (pos / sectorSize * sectorSize + j) := by
  have hread (buf : Mem) (off k : ℕ) (hk : (k * sectorSize : ℤ) < f.hdr.numBytes) :=
    readPart_eq (d := d) garbage buf hv off hk
  rw [readEnds]
  rw [sectorSize] at *
  by_cases hfirst : pos = pos / 128 * 128
  · simp only [if_pos hfirst, Option.bind_eq_bind, Option.bind_some]
    by_cases hlast : pos + n = ((pos + n - 1) / 128 + 1) * 128
    · rw [if_neg (fun h => h.1 hlast)]
      refine ⟨_, rfl, fun j hj hlt _ => ?_⟩
      omega
    · rw [if_pos ⟨hlast, .inr hfirst⟩]
      obtain ⟨buf', hbuf, hdata, -⟩ :=
        hread buf (((pos + n - 1) / 128 - pos / 128) * 128) ((pos + n - 1) / 128) (by omega)
      refine ⟨buf', hbuf, fun j hj hlt hin => ?_⟩
      have hj := hdata (j - ((pos + n - 1) / 128 - pos / 128) * 128) (by omega) (by omega)
      rw [Nat.add_sub_cancel' (by omega)] at hj
      rw [hj]
      congr 1
      omega
  · obtain ⟨buf₁, hbuf₁, hdata₁, -⟩ := hread buf 0 (pos / 128) (by omega)
    simp only [if_neg hfirst, hbuf₁, Option.bind_eq_bind, Option.bind_some]
    by_cases hcond : ¬ pos + n = ((pos + n - 1) / 128 + 1) * 128 ∧
        (pos / 128 ≠ (pos + n - 1) / 128 ∨ pos = pos / 128 * 128)
    · rw [if_pos hcond]
      obtain ⟨buf', hbuf, hdata, hkeep⟩ :=
        hread buf₁ (((pos + n - 1) / 128 - pos / 128) * 128) ((pos + n - 1) / 128) (by omega)
      refine ⟨buf', hbuf, fun j hj hlt hin => ?_⟩
      by_cases hj₁ : j < pos - pos / 128 * 128
      · rw [hkeep j (by omega), ← hdata₁ j (by omega) (by omega), Nat.zero_add]
      · have hj := hdata (j - ((pos + n - 1) / 128 - pos / 128) * 128) (by omega) (by omega)
        rw [Nat.add_sub_cancel' (by omega)] at hj
        rw [hj]
        congr 1
        omega
    · rw [if_neg hcond]
      refine ⟨buf₁, rfl, fun j hj hlt hin => ?_⟩
      rw [← hdata₁ j (by omega) (by omega), Nat.zero_add]

theorem mem_touched {pos : ℕ} (hclip : f.clip numBytes pos = some n) (hn : n ≠ 0) {s : ℤ} :
    s ∈ f.touched numBytes pos ↔ ∃ k, pos / sectorSize ≤ k ∧
      k < pos / sectorSize + (1 + (pos + n - 1) / sectorSize - pos / sectorSize) ∧
      f.hdr.dataSectors k = s := by
  obtain ⟨n, rfl⟩ := Nat.exists_eq_succ_of_ne_zero hn
  rw [touched, hclip]
  simp only [Int.toNat_natCast, List.mem_map, List.mem_range'_1, and_assoc]
  rfl

theorem touched_subset (hv : f.hdr.Valid) {s : ℤ} (hs : s ∈ f.touched numBytes position) :
    s ∈ f.hdr.sectors := by
  have hbytes := hv.bytes_le
  cases hclip : f.clip numBytes position with
  | none =>
    rw [touched, hclip] at hs
    cases hs
  | some n =>
    by_cases hn : n = 0
    · subst hn
      rw [touched, hclip] at hs
      cases hs
    · obtain ⟨-, hpos, -, hle⟩ := (clip_cases hclip).resolve_left hn
      obtain ⟨pos, rfl⟩ := Int.eq_ofNat_of_zero_le hpos
      obtain ⟨k, hk, hlt, rfl⟩ := (mem_touched hclip hn).mp hs
      apply FileHeader.mem_sectors
      rw [sectorSize] at *
      omega

/-- `WriteAt` puts the bytes into the file and changes no other sector than the touched ones. -/
theorem writeAt_eq (garbage buf src : Mem) (hv : f.hdr.Valid) (hnodup : f.hdr.sectors.Nodup)
    (hclip : f.clip numBytes position = some n) :
    ∃ d', f.writeAt d garbage buf src numBytes position = some (d', n) ∧
      (∀ s, s ∉ f.touched numBytes position → d' s = d s) ∧
      ∀ j : ℕ, j < f.hdr.numBytes →
        content d' f.hdr j = (content d f.hdr).copy position.toNat n src j := by
  by_cases hn : n = 0
  · subst hn
    refine ⟨d, ?_, fun _ _ => rfl, fun j _ => ?_⟩
    · rw [writeAt, hclip, Option.bind_eq_bind, Option.bind_some, if_pos rfl]
    · rw [Mem.copy_zero]
  · obtain ⟨-, hpos, -, hle⟩ := (clip_cases hclip).resolve_left hn
    obtain ⟨pos, rfl⟩ := Int.eq_ofNat_of_zero_le hpos
    have hbytes := hv.bytes_le
    obtain ⟨buf₁, hends, hkeep⟩ := readEnds_eq (d := d) garbage buf hv hn hle
    have hr : InRange f.hdr (pos / sectorSize)
        (1 + (pos + n - 1) / sectorSize - pos / sectorSize) := by
      apply inRange_of_valid hv
      rw [sectorSize]
      omega
    have hlast (k : ℕ) (hk : k < pos / sectorSize +
        (1 + (pos + n - 1) / sectorSize - pos / sectorSize)) : k < f.hdr.numSectors.toNat := by
      rw [sectorSize] at *
      omega
    obtain ⟨d', hd, hframe, hdata⟩ := writeSectors_eq (d := d)
      (buf₁.copy (pos - pos / sectorSize * sectorSize) n src) hr fun k hk j hj heq => by
        rw [FileHeader.sectors, List.nodup_map_iff_inj_on List.nodup_range] at hnodup
        exact hnodup k (List.mem_range.mpr (hlast k hk)) j (List.mem_range.mpr (hlast j hj)) heq
    refine ⟨d', ?_, fun s hs => hframe s fun k hk hlt heq => ?_, fun j hj => ?_⟩
    · rw [writeAt, hclip, Option.bind_eq_bind, Option.bind_some, if_neg hn]
      simp only [Int.toNat_natCast, hends, hd, Option.bind_eq_bind, Option.bind_some]
    · exact hs ((mem_touched hclip hn).mpr ⟨k, hk, hlt, heq⟩)
    · have hold : j / sectorSize < f.hdr.numSectors.toNat := by
        rw [sectorSize] at *
        omega
      rw [Int.toNat_natCast, content]
      by_cases hin : pos / sectorSize ≤ j / sectorSize ∧ j / sectorSize ≤ (pos + n - 1) / sectorSize
      · have hj := hdata (j / sectorSize - pos / sectorSize) (by omega) (j % sectorSize)
          (Nat.mod_lt _ (by decide))
        rw [Nat.add_sub_cancel' hin.1] at hj
        rw [hj, show (j / sectorSize - pos / sectorSize) * sectorSize + j % sectorSize =
          j - pos / sectorSize * sectorSize by rw [sectorSize] at *; omega]
        by_cases hnew : pos ≤ j ∧ j < pos + n
        · rw [Mem.copy_of_mem (by rw [sectorSize] at *; omega) (by rw [sectorSize] at *; omega),
            Mem.copy_of_mem hnew.1 hnew.2]
          congr 1
          rw [sectorSize] at *
          omega
        · rw [Mem.copy_of_not_mem (by rw [sectorSize] at *; omega), Mem.copy_of_not_mem (by omega),
            hkeep _ (by rw [sectorSize] at *; omega) (by rw [sectorSize] at *; omega)
              (by rw [sectorSize] at *; omega)]
          congr 1
          rw [sectorSize] at *
          omega
      · rw [hframe, Mem.copy_of_not_mem (by rw [sectorSize] at *; omega), content]
        intro k hk hlt heq
        rw [FileHeader.sectors, List.nodup_map_iff_inj_on List.nodup_range] at hnodup
        have hkj := hnodup k (List.mem_range.mpr (hlast k hlt)) _ (List.mem_range.mpr hold) heq
        omega

/-! ### Files that are read and written from the start -/

theorem clip_start (hn : (n : ℤ) ≤ f.hdr.numBytes) (hv : f.hdr.Valid) : f.clip n 0 = some n := by
  have hmax := hv.numBytes_le
  by_cases h0 : n = 0
  · subst h0
    exact if_pos (.inl le_rfl)
  · rw [clip_eq (by omega) le_rfl (by omega) (by unfold intMax; omega)]
    congr 1
    omega

theorem readAt_start (hv : f.hdr.Valid) (hn : (n : ℤ) ≤ f.hdr.numBytes) :
    f.readAt d buf into n 0 = some (into.copy 0 n (content d f.hdr), n) := by
  by_cases h0 : n = 0
  · subst h0
    rw [readAt, clip_start hn hv, Option.bind_eq_bind, Option.bind_some, if_pos rfl, Mem.copy_zero]
  · rw [readAt_eq hv (clip_start hn hv) h0]
    congr 3
    funext j
    rw [Mem.drop, Int.toNat_zero, Nat.zero_add]

theorem writeAt_start (garbage buf src : Mem) (hv : f.hdr.Valid) (hnodup : f.hdr.sectors.Nodup)
    (hn : (n : ℤ) ≤ f.hdr.numBytes) :
    ∃ d', f.writeAt d garbage buf src n 0 = some (d', n) ∧
      (∀ s, s ∉ f.hdr.sectors → d' s = d s) ∧ Mem.Agree n (content d' f.hdr) src := by
  obtain ⟨d', hd, hframe, hdata⟩ := writeAt_eq (d := d) garbage buf src hv hnodup
    (clip_start hn hv)
  refine ⟨d', hd, fun s hs => hframe s fun h => hs (touched_subset hv h), fun j hj => ?_⟩
  rw [hdata j (by omega), Int.toNat_zero, Mem.copy_of_mem (by omega) (by omega), Nat.sub_zero]

end OpenFile
end Coursework.Nachos
