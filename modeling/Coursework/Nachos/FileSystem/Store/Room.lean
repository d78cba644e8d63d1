import Coursework.Nachos.FileSystem.Allocation
import Coursework.Nachos.FileSystem.Consistent

/-!
# How many sectors are free

A file takes a sector for its header and those of its data from the map, and gives them back when
it is removed.
-/
namespace Coursework.Nachos
open Disk FileHeader

variable {l : List ℤ}

namespace BitMap
variable {m m' : BitMap}

/-- The indices of a list become marked. -/
theorem numClear_marked (hbits : m'.numBits = m.numBits) (hl : l.Nodup)
    (hclear : ∀ x ∈ l, ¬ m.Marked x) (hm : ∀ x, m'.Marked x ↔ m.Marked x ∨ x ∈ l) :
    m'.numClear + l.length = m.numClear := by
  have hmarked {x : ℤ} (hx : x ∈ l) : (0 ≤ x ∧ x < m.numBits) ∧ m'.bit x.toNat = true := by
    have hx := marked_iff.mp ((hm x).mpr (.inr hx))
    rwa [hbits] at hx
  have hinj : ∀ x ∈ l, ∀ y ∈ l, x.toNat = y.toNat → x = y := by
    intro x hx y hy heq
    have hx := (hmarked hx).1
    have hy := (hmarked hy).1
    omega
  have hset : m.absent = m'.absent ∪ (l.map Int.toNat).toFinset := by
    ext i
    rw [Finset.mem_union, List.mem_toFinset, mem_absent, mem_absent, hbits]
    constructor
    · rintro ⟨hi, hbit⟩
      by_cases hmem : (i : ℤ) ∈ l
      · exact .inr (List.mem_map.mpr ⟨i, hmem, Int.toNat_natCast i⟩)
      · refine .inl ⟨hi, Bool.eq_false_iff.mpr fun hbit' => ?_⟩
        have hor := (hm i).mp ((marked_natCast (hbits.symm ▸ hi)).mpr hbit')
        have hold := (marked_natCast hi).mp (hor.resolve_right hmem)
        rw [hbit] at hold
        cases hold
    · rintro (⟨hi, hbit⟩ | hi)
      · refine ⟨hi, Bool.eq_false_iff.mpr fun hbit' => ?_⟩
        have hnew := (hm i).mpr (.inl ((marked_natCast hi).mpr hbit'))
        rw [marked_natCast (hbits.symm ▸ hi), hbit] at hnew
        cases hnew
      · obtain ⟨x, hx, rfl⟩ := List.mem_map.mp hi
        have hrange := (hmarked hx).1
        refine ⟨by omega, Bool.eq_false_iff.mpr fun hbit => hclear x hx ?_⟩
        exact marked_iff.mpr ⟨hrange, hbit⟩
  have hdisjoint : Disjoint m'.absent (l.map Int.toNat).toFinset := by
    rw [Finset.disjoint_left]
    intro i hi hmem
    obtain ⟨x, hx, rfl⟩ := List.mem_map.mp (List.mem_toFinset.mp hmem)
    have hbit := (hmarked hx).2
    rw [(mem_absent.mp hi).2] at hbit
    cases hbit
  rw [numClear_eq_card, numClear_eq_card, hset, Finset.card_union_of_disjoint hdisjoint,
    List.toFinset_card_of_nodup (hl.map_on hinj), List.length_map]

end BitMap

namespace FileSystem
variable {fs : FileSystem} {d d' : Disk} {name : Mem} {size s : ℤ} {i : ℕ} {h : FileHeader}

theorem Created.numClear (hc : Created fs d name size d' i s h) :
    (fs.map d').numClear + (1 + h.numSectors.toNat) = (fs.map d).numClear := by
  have hcount := @BitMap.numClear_marked _ (fs.map d) (fs.map d') rfl hc.nodup hc.clear hc.marked
  rwa [List.length_cons, FileHeader.sectors, List.length_map, List.length_range,
    Nat.add_comm _ 1] at hcount

theorem Removed.numClear (hm : Rooted fs d) (hr : Removed fs d name d' i) :
    (fs.map d').numClear =
      (fs.map d).numClear + (1 + (onDisk d ((fs.dir d).sector i)).numSectors.toNat) := by
  have hnodup := hm.allotted.nodup (some i)
  rw [Rooted.block_eq hr.entry_lt hr.entry_used] at hnodup
  have hcount := @BitMap.numClear_marked _ (fs.map d') (fs.map d) rfl hnodup
    (fun x hx hmarked => ((hr.marked x).mp hmarked).2 hx) fun x => by
      rw [hr.marked]
      constructor
      · intro hx
        by_cases hmem : x ∈ (fs.dir d).sector i :: (onDisk d ((fs.dir d).sector i)).sectors
        · exact .inr hmem
        · exact .inl ⟨hx, hmem⟩
      · rintro (⟨hx, -⟩ | hmem)
        · exact hx
        · exact hm.marked_file hr.entry_lt hr.entry_used hmem
  rw [← hcount, List.length_cons, FileHeader.sectors, List.length_map, List.length_range,
    Nat.add_comm _ 1]

end FileSystem
end Coursework.Nachos
