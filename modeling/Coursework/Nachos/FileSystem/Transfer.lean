import Coursework.Nachos.FileSystem.OpenFile

/-!
# What a request to an open file transfers

A request is cut at the end of the file. A read returns the bytes of the file from its position
onward, a write replaces them and nothing else, and a read in the same place returns what was
written.
-/
namespace Coursework.Nachos
open Disk

namespace FileHeader

/-- The header of a file that fills as many sectors as it needs, all of them different. -/
structure WellFormed (h : FileHeader) : Prop where
  numBytes_nonneg : 0 ≤ h.numBytes
  numSectors : h.numSectors = divRoundUp h.numBytes sectorSize
  sectors_le : h.numSectors ≤ numDirect
  isSector : ∀ s ∈ h.sectors, IsSector s
  nodup : h.sectors.Nodup

variable {h : FileHeader}

theorem WellFormed.valid (hw : h.WellFormed) : h.Valid := by
  obtain ⟨hnonneg, hle, -⟩ := divRoundUp_spec hw.numBytes_nonneg
  rw [← hw.numSectors] at hnonneg hle
  exact ⟨hw.numBytes_nonneg, hnonneg, hle, hw.sectors_le, hw.isSector⟩

end FileHeader

namespace OpenFile

/-- How many bytes a request for `numBytes` at `position` transfers of a file of length `len`. -/
def amount (len numBytes position : ℤ) : ℕ :=
  if numBytes ≤ 0 ∨ len ≤ position then 0 else (min numBytes (len - position)).toNat

variable {f : OpenFile} {d : Disk} {numBytes position : ℤ} {buf into : Mem} {n : ℕ}

theorem clip_amount (hpos : 0 ≤ position) (hint : position + numBytes ≤ intMax) :
    f.clip numBytes position = some (amount f.hdr.numBytes numBytes position) := by
  by_cases hnone : numBytes ≤ 0 ∨ f.hdr.numBytes ≤ position
  · rw [clip, if_pos hnone, amount, if_pos hnone]
  · rw [amount, if_neg hnone]
    rw [not_or, not_le, not_le] at hnone
    exact clip_eq hnone.1 hpos hnone.2 hint

theorem readAt_clip (hv : f.hdr.Valid) (hclip : f.clip numBytes position = some n) :
    f.readAt d buf into numBytes position =
      some (into.copy 0 n ((content d f.hdr).drop position.toNat), n) := by
  by_cases hn : n = 0
  · subst hn
    rw [readAt, hclip, Option.bind_eq_bind, Option.bind_some, if_pos rfl, Mem.copy_zero]
  · exact readAt_eq hv hclip hn

/-- Where a read begins at the place of a write, it finds what was written. -/
theorem readAt_written {d' : Disk} {src : Mem} (hv : f.hdr.Valid)
    (hclip : f.clip numBytes position = some n)
    (hcontent : ∀ j : ℕ, j < f.hdr.numBytes →
      content d' f.hdr j = (content d f.hdr).copy position.toNat n src j) :
    f.readAt d' buf into numBytes position = some (into.copy 0 n src, n) := by
  rw [readAt_clip hv hclip]
  congr 2
  funext j
  by_cases hj : j < n
  · obtain ⟨-, hpos, -, hle⟩ := (clip_cases hclip).resolve_left (by omega)
    rw [Mem.copy_of_mem (by omega) (by omega), Mem.copy_of_mem (by omega) (by omega), Mem.drop,
      hcontent _ (by omega), Mem.copy_of_mem (by omega) (by omega)]
    congr 1
    omega
  · rw [Mem.copy_of_not_mem (by omega), Mem.copy_of_not_mem (by omega)]

/-- Reads and writes of a file by its bytes. -/
theorem open_file_bytes (f : OpenFile) (d : Disk) (numBytes position : ℤ)
    (hw : f.hdr.WellFormed) (hpos : 0 ≤ position) (hint : position + numBytes ≤ intMax) :
    (∀ buf into, f.readAt d buf into numBytes position =
      some (into.copy 0 (amount f.hdr.numBytes numBytes position)
        ((content d f.hdr).drop position.toNat), amount f.hdr.numBytes numBytes position)) ∧
    ∀ garbage buf src, ∃ d', f.writeAt d garbage buf src numBytes position =
        some (d', amount f.hdr.numBytes numBytes position) ∧
      (∀ j : ℕ, j < f.hdr.numBytes → content d' f.hdr j =
        if position ≤ j ∧ j < position + amount f.hdr.numBytes numBytes position
        then src (j - position.toNat) else content d f.hdr j) ∧
      (∀ s, s ∉ f.hdr.sectors → d' s = d s) ∧
      ∀ buf into, f.readAt d' buf into numBytes position =
        some (into.copy 0 (amount f.hdr.numBytes numBytes position) src,
          amount f.hdr.numBytes numBytes position) := by
  have hclip := clip_amount (f := f) hpos hint
  refine ⟨fun buf into => readAt_clip hw.valid hclip, fun garbage buf src => ?_⟩
  obtain ⟨d', hd, hframe, hcontent⟩ := writeAt_eq (d := d) garbage buf src hw.valid hw.nodup hclip
  refine ⟨d', hd, fun j hj => ?_, fun s hs => ?_, fun buf into => ?_⟩
  · rw [hcontent j hj, Mem.copy]
    have hiff : (position.toNat ≤ j ∧
        j < position.toNat + amount f.hdr.numBytes numBytes position) ↔
        position ≤ j ∧ j < position + amount f.hdr.numBytes numBytes position := by omega
    simp only [hiff]
  · exact hframe s fun htouched => hs (touched_subset hw.valid htouched)
  · exact readAt_written hw.valid hclip hcontent

/-- A file of 200 bytes in sectors 5 and 9; 100 bytes at 90 take the end of the first sector and
the start of the second. -/
theorem open_file_bytes_across : ∃ f : OpenFile, f.hdr.numBytes = 200 ∧
    ∀ d : Disk, ∀ garbage buf src, ∃ d', f.writeAt d garbage buf src 100 90 = some (d', 100) ∧
      ∀ s, s ∉ f.hdr.sectors → d' s = d s := by
  have hw : FileHeader.WellFormed ⟨200, 2, fun k => if k = 0 then 5 else 9⟩ :=
    ⟨by decide, by decide, by decide, by decide, by decide⟩
  refine ⟨⟨⟨200, 2, fun k => if k = 0 then 5 else 9⟩, 0⟩, rfl, fun d garbage buf src => ?_⟩
  obtain ⟨d', hd, -, hframe, -⟩ := (open_file_bytes
    ⟨⟨200, 2, fun k => if k = 0 then 5 else 9⟩, 0⟩ d 100 90 hw (by decide) (by decide)).2 garbage buf src
  exact ⟨d', hd, hframe⟩

end OpenFile
end Coursework.Nachos
