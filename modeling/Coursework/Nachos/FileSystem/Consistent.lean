import Coursework.Lib.Machine
import Coursework.Nachos.FileSystem.Mounted

/-!
# The disk stays consistent

After formatting, and after any creations and removals of files, the sectors marked in the map
are those that the directory and the headers list, and no sector is listed twice.
-/
namespace Coursework.Nachos.FileSystem
open Disk FileHeader

variable {fs : FileSystem} {d d' : Disk} {name : Mem} {size s : ℤ} {i j : ℕ} {h : FileHeader}

theorem blocks_congr {dir dir' : Directory} {hdr hdr' : ℤ → FileHeader} {sys : List ℤ}
    (hsize : dir'.tableSize = dir.tableSize)
    (hsame : j < dir.tableSize → Directory.SameEntry dir dir' j)
    (hhdr : j < dir.tableSize → dir.inUse j = true → hdr' (dir.sector j) = hdr (dir.sector j)) :
    blocks dir' hdr' sys (some j) = blocks dir hdr sys (some j) := by
  rw [blocks, blocks, hsize]
  by_cases hj : j < dir.tableSize
  · rw [(hsame hj).inUse, (hsame hj).sector]
    by_cases huse : dir.inUse j = true
    · rw [hhdr hj huse]
    · rw [if_neg fun h => huse h.2, if_neg fun h => huse h.2]
  · rw [if_neg fun h => hj h.1, if_neg fun h => hj h.1]

namespace Mounted

theorem freeMapSector_not_mem (hm : Mounted fs d) :
    freeMapSector ∉ fs.freeMapFile.hdr.sectors ∧ freeMapSector ∉ fs.directoryFile.hdr.sectors := by
  have hnodup := (List.nodup_cons.mp hm.rooted.sys_nodup).1
  constructor
  · exact fun h => hnodup (.tail _ (List.mem_append_left _ h))
  · exact fun h => hnodup (.tail _ (List.mem_append_right _ h))

theorem directorySector_not_mem (hm : Mounted fs d) :
    directorySector ∉ fs.freeMapFile.hdr.sectors ∧
      directorySector ∉ fs.directoryFile.hdr.sectors := by
  have hnodup := (List.nodup_cons.mp hm.rooted.sys_nodup.of_cons).1
  constructor
  · exact fun h => hnodup (List.mem_append_left _ h)
  · exact fun h => hnodup (List.mem_append_right _ h)

/-- What is beyond the allotment: the headers of the two files, and that all headers are valid. -/
theorem of_rooted (hm : Mounted fs d) (hr : Rooted fs d')
    (hmap : d' freeMapSector = d freeMapSector) (hdir : d' directorySector = d directorySector)
    (hvalid : ∀ i < numDirEntries, (fs.dir d').inUse i = true →
      (onDisk d' ((fs.dir d').sector i)).Valid) : Mounted fs d' := by
  constructor
  · rw [onDisk, hmap]
    exact hm.mapHdr
  · exact hm.mapValid
  · exact hm.mapBytes
  · rw [onDisk, hdir]
    exact hm.dirHdr
  · exact hm.dirValid
  · exact hm.dirBytes
  · exact hr.allotted
  · exact hvalid
  · exact hr.names

/-- The sectors of the system and the headers are all that keeps the disk consistent. -/
theorem frame (hm : Mounted fs d) (hsys : ∀ x ∈ fs.sysSectors, d' x = d x)
    (hheader : ∀ i < numDirEntries, (fs.dir d).inUse i = true →
      d' ((fs.dir d).sector i) = d ((fs.dir d).sector i)) : Mounted fs d' := by
  have hdir : SameDir (fs.dir d) (fs.dir d') :=
    (dirOn_frame hm.dirValid hm.dirBytes fun x hx => hsys x (Rooted.mem_sys_dir hx)).sameDir
  have hmap : SameMap (fs.map d) (fs.map d') :=
    mapOn_frame hm.mapValid hm.mapBytes fun x hx => hsys x (Rooted.mem_sys_map hx)
  have hsame (i : ℕ) (hi : i < numDirEntries) (huse : (fs.dir d).inUse i = true) :
      onDisk d' ((fs.dir d).sector i) = onDisk d ((fs.dir d).sector i) := by
    rw [onDisk, onDisk, hheader i hi huse]
  constructor
  · rw [onDisk, hsys _ List.mem_cons_self]
    exact hm.mapHdr
  · exact hm.mapValid
  · exact hm.mapBytes
  · rw [onDisk, hsys _ (.tail _ List.mem_cons_self)]
    exact hm.dirHdr
  · exact hm.dirValid
  · exact hm.dirBytes
  · apply hm.allotted.congr hmap.marked
    intro o
    cases o with
    | none => rw [blocks_none, blocks_none]
    | some j => exact blocks_congr hdir.tableSize (hdir.entry j) (hsame j)
  · intro i hi huse
    rw [(hdir.entry i hi).inUse] at huse
    rw [(hdir.entry i hi).sector, hsame i hi huse]
    exact hm.valid i hi huse
  · intro i hi j hj huse huse' heq
    rw [(hdir.entry i hi).inUse] at huse
    rw [(hdir.entry j hj).inUse] at huse'
    rw [(hdir.entry i hi).fileName, (hdir.entry j hj).fileName] at heq
    exact hm.names i hi j hj huse huse' heq

/-- Writing the data of one file keeps the disk consistent. -/
theorem frame_data (hm : Mounted fs d) (hi : i < numDirEntries) (huse : (fs.dir d).inUse i = true)
    (hframe : ∀ x, x ∉ (onDisk d ((fs.dir d).sector i)).sectors → d' x = d x) :
    Mounted fs d' := by
  apply hm.frame
  · intro x hx
    exact hframe x fun hmem => hm.rooted.file_not_mem_sys hi huse (.tail _ hmem) hx
  · intro j hj huse'
    apply hframe
    intro hmem
    obtain rfl := hm.rooted.file_unique hi huse (.tail _ hmem) hj huse' List.mem_cons_self
    exact hm.rooted.header_not_mem hi huse hmem

end Mounted

/-! ### Creation -/

namespace Stored

theorem sector_ne (hs : Stored fs d name d' i s h) {x : ℤ} (hx : (fs.map d).Marked x) : x ≠ s := by
  rintro rfl
  exact hs.clear x List.mem_cons_self hx

/-- The header and the data of every other file are as they were. -/
theorem frame_file (hm : Rooted fs d) (hs : Stored fs d name d' i s h)
    (hj : j < numDirEntries) (huse : (fs.dir d).inUse j = true) {x : ℤ}
    (hx : x ∈ (fs.dir d).sector j :: (onDisk d ((fs.dir d).sector j)).sectors) : d' x = d x := by
  have hsys := hm.file_not_mem_sys hj huse hx
  exact hs.frame x (hs.sector_ne (hm.marked_file hj huse hx))
    (fun h => hsys (Rooted.mem_sys_map h)) (fun h => hsys (Rooted.mem_sys_dir h))

theorem header_eq (hm : Rooted fs d) (hs : Stored fs d name d' i s h)
    (hj : j < numDirEntries) (huse : (fs.dir d).inUse j = true) :
    onDisk d' ((fs.dir d).sector j) = onDisk d ((fs.dir d).sector j) := by
  rw [onDisk, onDisk, hs.frame_file hm hj huse List.mem_cons_self]

theorem used_cases (hs : Stored fs d name d' i s h) (hj : j < numDirEntries)
    (huse : (fs.dir d').inUse j = true) : j = i ∨ j ≠ i ∧ (fs.dir d).inUse j = true := by
  by_cases hji : j = i
  · exact .inl hji
  · right
    rw [(hs.other j hj hji).inUse] at huse
    exact ⟨hji, huse⟩

/-- Whatever the size of the new file, the operations can go on. -/
theorem rooted (hm : Rooted fs d) (hs : Stored fs d name d' i s h) : Rooted fs d' := by
  have hnew : (onDisk d' s).sectors = h.sectors := hs.header.sectors
  constructor
  · exact hm.mapValid
  · exact hm.mapBytes
  · exact hm.dirValid
  · exact hm.dirBytes
  · apply (hm.allotted.allot (blocks_free hs.entry_free) hs.nodup hs.clear hs.marked).congr
      (fun _ => Iff.rfl)
    intro o
    cases o with
    | none => rfl
    | some j =>
      by_cases hji : j = i
      · subst hji
        rw [Function.update_self, Rooted.block_eq hs.entry_lt hs.inUse, hs.sector, hnew]
      · rw [Function.update_of_ne (by simpa using hji)]
        exact blocks_congr rfl (fun hj => hs.other j hj hji) fun hj huse => hs.header_eq hm hj huse
  · intro j hj huse
    rcases hs.used_cases hj huse with rfl | ⟨hji, huse⟩
    · rw [hs.sector, hs.header.numSectors]
      exact hs.sectors_le
    · rw [(hs.other j hj hji).sector, hs.header_eq hm hj huse]
      exact hm.sectors_le j hj huse
  · intro j hj k hk huse huse' heq
    rcases hs.used_cases hj huse with rfl | ⟨hji, huse⟩
    · rcases hs.used_cases hk huse' with rfl | ⟨hki, huse'⟩
      · rfl
      · rw [hs.fileName, (hs.other k hk hki).fileName] at heq
        exact absurd heq.symm (hs.name_new k hk huse')
    · rcases hs.used_cases hk huse' with rfl | ⟨hki, huse'⟩
      · rw [hs.fileName, (hs.other j hj hji).fileName] at heq
        exact absurd heq (hs.name_new j hj huse)
      · rw [(hs.other j hj hji).fileName, (hs.other k hk hki).fileName] at heq
        exact hm.names j hj k hk huse huse' heq

end Stored

namespace Created

theorem mounted (hm : Mounted fs d) (hc : Created fs d name size d' i s h) : Mounted fs d' := by
  obtain ⟨hmap, hmap'⟩ := hm.freeMapSector_not_mem
  obtain ⟨hdir, hdir'⟩ := hm.directorySector_not_mem
  have hframe (x : ℤ) (hx : x ∈ fs.sysSectors) (hxm : x ∉ fs.freeMapFile.hdr.sectors)
      (hxd : x ∉ fs.directoryFile.hdr.sectors) : d' x = d x :=
    hc.frame x (hc.stored.sector_ne (hm.rooted.marked_sys hx)) hxm hxd
  apply hm.of_rooted (hc.stored.rooted hm.rooted) (hframe _ List.mem_cons_self hmap hmap')
    (hframe _ (.tail _ List.mem_cons_self) hdir hdir')
  intro j hj huse
  rcases hc.stored.used_cases hj huse with rfl | ⟨hji, huse⟩
  · rw [hc.sector]
    exact hc.header.valid hc.valid
  · rw [(hc.other j hj hji).sector, hc.stored.header_eq hm.rooted hj huse]
    exact hm.valid j hj huse

/-- A new file is found under its name. -/
theorem find_eq (hm : Mounted fs d) (hc : Created fs d name size d' i s h) :
    (fs.dir d').find name = s :=
  ((hc.mounted hm).rooted.find_of_entry hc.entry_lt hc.inUse hc.fileName).trans hc.sector

theorem open_new (hm : Mounted fs d) (hc : Created fs d name size d' i s h) (junk : Junk) :
    ∃ h', fs.openFile junk d' name = some (some ⟨h', 0⟩) ∧ h'.Same h := by
  obtain ⟨h', ho, hsame⟩ := (hc.mounted hm).rooted.open_of_entry junk hc.entry_lt hc.inUse hc.fileName
  rw [hc.sector] at hsame
  exact ⟨h', ho, hsame.trans hc.header⟩

end Created

/-! ### Removal -/

namespace Removed

/-- The headers and the data of the files are as they were. -/
theorem frame_file (hm : Rooted fs d) (hr : Removed fs d name d' i)
    (hj : j < numDirEntries) (huse : (fs.dir d).inUse j = true) {x : ℤ}
    (hx : x ∈ (fs.dir d).sector j :: (onDisk d ((fs.dir d).sector j)).sectors) : d' x = d x := by
  have hsys := hm.file_not_mem_sys hj huse hx
  exact hr.frame x (fun h => hsys (Rooted.mem_sys_map h)) (fun h => hsys (Rooted.mem_sys_dir h))

theorem header_eq (hm : Rooted fs d) (hr : Removed fs d name d' i)
    (hj : j < numDirEntries) (huse : (fs.dir d).inUse j = true) :
    onDisk d' ((fs.dir d).sector j) = onDisk d ((fs.dir d).sector j) := by
  rw [onDisk, onDisk, hr.frame_file hm hj huse List.mem_cons_self]

theorem used_cases (hr : Removed fs d name d' i) (hj : j < numDirEntries)
    (huse : (fs.dir d').inUse j = true) : j ≠ i ∧ (fs.dir d).inUse j = true := by
  have hji : j ≠ i := by
    rintro rfl
    rw [hr.inUse] at huse
    cases huse
  rw [(hr.other j hj hji).inUse] at huse
  exact ⟨hji, huse⟩

theorem rooted (hm : Rooted fs d) (hr : Removed fs d name d' i) : Rooted fs d' := by
  constructor
  · exact hm.mapValid
  · exact hm.mapBytes
  · exact hm.dirValid
  · exact hm.dirBytes
  · have hmarked (x : ℤ) : (fs.map d').Marked x ↔ (fs.map d).Marked x ∧
        x ∉ blocks (fs.dir d) (onDisk d) fs.sysSectors (some i) := by
      rw [Rooted.block_eq hr.entry_lt hr.entry_used, hr.marked]
    apply (hm.allotted.giveBack hmarked).congr (fun _ => Iff.rfl)
    intro o
    cases o with
    | none => rfl
    | some j =>
      by_cases hji : j = i
      · subst hji
        rw [Function.update_self, blocks_free hr.inUse]
      · rw [Function.update_of_ne (by simpa using hji)]
        exact blocks_congr rfl (fun hj => hr.other j hj hji) fun hj huse => hr.header_eq hm hj huse
  · intro j hj huse
    obtain ⟨hji, huse⟩ := hr.used_cases hj huse
    rw [(hr.other j hj hji).sector, hr.header_eq hm hj huse]
    exact hm.sectors_le j hj huse
  · intro j hj k hk huse huse' heq
    obtain ⟨hji, huse⟩ := hr.used_cases hj huse
    obtain ⟨hki, huse'⟩ := hr.used_cases hk huse'
    rw [(hr.other j hj hji).fileName, (hr.other k hk hki).fileName] at heq
    exact hm.names j hj k hk huse huse' heq

theorem mounted (hm : Mounted fs d) (hr : Removed fs d name d' i) : Mounted fs d' := by
  obtain ⟨hmap, hmap'⟩ := hm.freeMapSector_not_mem
  obtain ⟨hdir, hdir'⟩ := hm.directorySector_not_mem
  apply hm.of_rooted (hr.rooted hm.rooted) (hr.frame _ hmap hmap') (hr.frame _ hdir hdir')
  intro j hj huse
  obtain ⟨hji, huse⟩ := hr.used_cases hj huse
  rw [(hr.other j hj hji).sector, hr.header_eq hm.rooted hj huse]
  exact hm.valid j hj huse

end Removed

/-! ### Formatting -/

/-- The file system as `format` leaves it. -/
structure Formatted (fs : FileSystem) (d : Disk) : Prop where
  mounted : Mounted fs d
  empty : ∀ i < numDirEntries, (fs.dir d).inUse i = false
  numClear : (fs.map d).numClear = 1019

theorem Mounted.of_empty (hmap : fs.freeMapFile.hdr.Same (onDisk d freeMapSector))
    (hmapv : fs.freeMapFile.hdr.Valid) (hmapb : fs.freeMapFile.hdr.numBytes = freeMapFileSize)
    (hdir : fs.directoryFile.hdr.Same (onDisk d directorySector))
    (hdirv : fs.directoryFile.hdr.Valid)
    (hdirb : fs.directoryFile.hdr.numBytes = directoryFileSize)
    (hempty : ∀ i < numDirEntries, (fs.dir d).inUse i = false) (hnodup : fs.sysSectors.Nodup)
    (hmarked : ∀ x, (fs.map d).Marked x ↔ x ∈ fs.sysSectors) : Mounted fs d := by
  have hblock (i : ℕ) : blocks (fs.dir d) (onDisk d) fs.sysSectors (some i) = [] := by
    by_cases hi : i < numDirEntries
    · exact blocks_free (hempty i hi)
    · exact if_neg fun h => hi h.1
  refine ⟨hmap, hmapv, hmapb, hdir, hdirv, hdirb, ⟨?_, ?_, ?_⟩, ?_, ?_⟩
  · intro o
    cases o with
    | none => exact hnodup
    | some i =>
      rw [hblock]
      exact List.nodup_nil
  · intro o o' hne x hx hx'
    cases o with
    | none =>
      cases o' with
      | none => exact hne rfl
      | some j =>
        rw [hblock] at hx'
        cases hx'
    | some i =>
      rw [hblock] at hx
      cases hx
  · intro x
    rw [hmarked]
    constructor
    · exact fun hx => ⟨none, hx⟩
    · rintro ⟨o, ho⟩
      cases o with
      | none => exact ho
      | some i =>
        rw [hblock] at ho
        cases ho
  · intro i hi huse
    rw [hempty i hi] at huse
    cases huse
  · intro i hi j _ huse
    rw [hempty i hi] at huse
    cases huse

/-- The first two bits of a map without marks are marked. -/
theorem mark_reserved {m : BitMap} (hbits : m.numBits = Disk.numSectors)
    (hcount : m.numClear = Disk.numSectors) (hnone : ∀ x, ¬ m.Marked x) :
    ∃ m₁ m₂, m.mark freeMapSector = some m₁ ∧ m₁.mark directorySector = some m₂ ∧
      m₂.numBits = Disk.numSectors ∧ m₂.numClear = 1022 ∧
      ∀ x, m₂.Marked x ↔ x = freeMapSector ∨ x = directorySector := by
  have hsize : Disk.numSectors = 1024 := rfl
  have hbit (k : ℕ) (hk : k < m.numBits) : m.bit k = false := by
    have hk := (BitMap.marked_natCast hk).not.mp (hnone k)
    exact Bool.eq_false_iff.mpr hk
  have h1 : (m.setBit 0).bit 1 = false := by
    rw [BitMap.bit_setBit, hbit 1 (by omega)]
    rfl
  have hone := BitMap.numClear_setBit (by omega) (hbit 0 (by omega))
  have htwo := BitMap.numClear_setBit (m := m.setBit 0) (i := 1)
    (by rw [BitMap.setBit_numBits]; omega) h1
  refine ⟨m.setBit 0, (m.setBit 0).setBit 1, BitMap.mark_eq (i := 0) (by omega),
    BitMap.mark_eq (i := 1) (by rw [BitMap.setBit_numBits]; omega), hbits, by omega, fun x => ?_⟩
  rw [BitMap.marked_setBit (by rw [BitMap.setBit_numBits]; omega), BitMap.marked_setBit (by omega)]
  simp only [hnone, false_or]
  exact Iff.rfl

/-- What `format` has in memory when it comes to the disk: the headers of the two files, and the
map with their sectors and the first two marked. -/
structure Reserved (mapHdr dirHdr : FileHeader) (m : BitMap) : Prop where
  mapValid : mapHdr.Valid
  mapBytes : mapHdr.numBytes = freeMapFileSize
  dirValid : dirHdr.Valid
  dirBytes : dirHdr.numBytes = directoryFileSize
  numBits : m.numBits = Disk.numSectors
  numClear : m.numClear = 1019
  nodup : (freeMapSector :: directorySector :: (mapHdr.sectors ++ dirHdr.sectors)).Nodup
  marked : ∀ x, m.Marked x ↔
    x ∈ freeMapSector :: directorySector :: (mapHdr.sectors ++ dirHdr.sectors)

/-- The end of `format`, with the headers and the map. -/
def flushNew (junk : Junk) (d : Disk) (mapHdr dirHdr : FileHeader) (freeMap : BitMap) :
    Option (FileSystem × Disk) := do
  let directory := Directory.new numDirEntries junk.table
  let d ← mapHdr.writeBack d freeMapSector
  let d ← dirHdr.writeBack d directorySector
  let freeMapFile ← OpenFile.new (junk.hdr 2) d freeMapSector
  let directoryFile ← OpenFile.new (junk.hdr 3) d directorySector
  let d ← freeMap.writeBack d freeMapFile (junk.buf 0) (junk.buf 1)
  let d ← directory.writeBack d directoryFile (junk.buf 2) (junk.buf 3)
  some (⟨freeMapFile, directoryFile⟩, d)

/-- There are enough sectors on the disk for the two files. -/
theorem format_reserved (junk : Junk) (d : Disk) : ∃ mapHdr dirHdr m,
    Reserved mapHdr dirHdr m ∧ format junk d = flushNew junk d mapHdr dirHdr m := by
  have hmap : divRoundUp freeMapFileSize sectorSize = 1 := rfl
  have hdir : divRoundUp directoryFileSize sectorSize = 2 := rfl
  have hmapSize : (0 : ℤ) ≤ freeMapFileSize ∧ (freeMapFileSize : ℤ) ≤ maxFileSize := by decide
  have hdirSize : (0 : ℤ) ≤ directoryFileSize ∧ (directoryFileSize : ℤ) ≤ maxFileSize := by decide
  obtain ⟨m₀, hm₀, hbits₀, hcount₀, hnone⟩ := BitMap.exists_new Disk.numSectors junk.map (by decide)
  obtain ⟨m₁, m₂, hm₁, hm₂, hbits, hcount, hmarked⟩ := mark_reserved hbits₀ hcount₀ hnone
  rcases (junk.hdr 0).allocate_cases m₂ hbits hmapSize.1 hmapSize.2
    with ⟨h, -, hfew⟩ | ⟨mapHdr, m₃, hm₃, ha₃⟩
  · omega
  have hcount₃ := ha₃.numClear
  rw [hcount, ha₃.numSectors, hmap] at hcount₃
  have hbits₃ := ha₃.numBits.trans hbits
  rcases (junk.hdr 1).allocate_cases m₃ hbits₃ hdirSize.1 hdirSize.2
    with ⟨h, -, hfew⟩ | ⟨dirHdr, m₄, hm₄, ha₄⟩
  · omega
  have hcount₄ := ha₄.numClear
  rw [ha₄.numSectors, hdir] at hcount₄
  have hclear (x : ℤ) (hx : x ∈ mapHdr.sectors) : x ≠ freeMapSector ∧ x ≠ directorySector := by
    have hx := ha₃.clear x hx
    rwa [hmarked, not_or] at hx
  have hclear' (x : ℤ) (hx : x ∈ dirHdr.sectors) :
      (x ≠ freeMapSector ∧ x ≠ directorySector) ∧ x ∉ mapHdr.sectors := by
    have hx := ha₄.clear x hx
    rwa [ha₃.marked, hmarked, not_or, not_or] at hx
  refine ⟨mapHdr, dirHdr, m₄, ⟨ha₃.valid, ha₃.numBytes, ha₄.valid, ha₄.numBytes,
    ha₄.numBits.trans hbits₃, by omega, ?_, fun x => ?_⟩, ?_⟩
  · refine List.nodup_cons.mpr ⟨fun hmem => ?_, List.nodup_cons.mpr ⟨fun hmem => ?_,
      List.nodup_append.mpr ⟨ha₃.nodup, ha₄.nodup, ?_⟩⟩⟩
    · rcases List.mem_cons.mp hmem with heq | hmem
      · cases heq
      · rcases List.mem_append.mp hmem with hmem | hmem
        · exact (hclear _ hmem).1 rfl
        · exact (hclear' _ hmem).1.1 rfl
    · rcases List.mem_append.mp hmem with hmem | hmem
      · exact (hclear _ hmem).2 rfl
      · exact (hclear' _ hmem).1.2 rfl
    · rintro x hx y hy rfl
      exact (hclear' x hy).2 hx
  · rw [ha₄.marked, ha₃.marked, hmarked]
    simp [or_assoc]
  · have htrue : assert true = some () := rfl
    rw [format, hm₀]
    apply bind_of_eq hm₁
    apply bind_of_eq hm₂
    apply bind_of_eq hm₃
    apply bind_of_eq htrue
    apply bind_of_eq hm₄
    exact bind_of_eq htrue rfl

/-- The headers are written and read again by the opening, and what is written then is in other
sectors. The table on the disk is the one in memory. -/
theorem Reserved.flushNew_eq {mapHdr dirHdr : FileHeader} {m : BitMap}
    (hr : Reserved mapHdr dirHdr m) (junk : Junk) (d : Disk) :
    ∃ fs d', flushNew junk d mapHdr dirHdr m = some (fs, d') ∧ Formatted fs d' ∧
      SameTable (Directory.new numDirEntries junk.table) (fs.dir d') := by
  have hzero : IsSector freeMapSector := ⟨by decide, by decide⟩
  have hone : IsSector directorySector := ⟨by decide, by decide⟩
  have hsize := Directory.tableSize_new numDirEntries junk.table
  obtain ⟨d₁, hd₁, hframe₁, hsame₁⟩ := writeBack_eq (d := d) hzero hr.mapValid.storable
  obtain ⟨d₂, hd₂, hframe₂, hsame₂⟩ := writeBack_eq (d := d₁) hone hr.dirValid.storable
  have hsame₁' : (onDisk d₂ freeMapSector).Same mapHdr := by
    rw [onDisk, hframe₂ freeMapSector (by decide)]
    exact hsame₁
  obtain ⟨h₁, hh₁, hopen₁⟩ := (junk.hdr 2).fetchFrom_eq hzero (hsame₁'.valid hr.mapValid).sectors_le
  obtain ⟨h₂, hh₂, hopen₂⟩ := (junk.hdr 3).fetchFrom_eq hone (hsame₂.valid hr.dirValid).sectors_le
  have hmapHdr := hopen₁.trans hsame₁'
  have hdirHdr := hopen₂.trans hsame₂
  have hmapBytes := hmapHdr.numBytes.trans hr.mapBytes
  have hdirBytes := hdirHdr.numBytes.trans hr.dirBytes
  have hmapValid := hmapHdr.valid hr.mapValid
  have hdirValid := hdirHdr.valid hr.dirValid
  have hnodup := hr.nodup
  rw [← hmapHdr.sectors, ← hdirHdr.sectors] at hnodup
  obtain ⟨hmapNodup, hdirNodup, hdisjoint⟩ := List.nodup_append.mp hnodup.of_cons.of_cons
  obtain ⟨d₃, hd₃, hframe₃, hmap₃⟩ := writeMap_eq (f := ⟨h₁, 0⟩) (d := d₂) (junk.buf 0)
    (junk.buf 1) hmapValid hmapNodup hmapBytes hr.numBits
  obtain ⟨d₄, hd₄, hframe₄, hdir₄⟩ := writeDir_eq (f := ⟨h₂, 0⟩) (d := d₃) (junk.buf 2)
    (junk.buf 3) hdirValid hdirNodup hdirBytes hsize
  have hframe (x : ℤ) (hx : x ∉ h₁.sectors ++ h₂.sectors) : d₄ x = d₂ x := by
    obtain ⟨hxm, hxd⟩ := not_or.mp (List.mem_append.not.mp hx)
    rw [hframe₄ x hxd, hframe₃ x hxm]
  have hmap₄ : SameMap m (mapOn h₁ d₄) := hmap₃.trans (mapOn_frame hmapValid hmapBytes
    fun x hx => hframe₄ x fun hx' => hdisjoint x hx x hx' rfl)
  have hempty (i : ℕ) (hi : i < numDirEntries) : (dirOn h₂ d₄).inUse i = false := by
    rw [(hdir₄.sameDir.entry i (hsize.symm ▸ hi)).inUse, Directory.inUse_new junk.table hi]
  refine ⟨⟨⟨h₁, 0⟩, ⟨h₂, 0⟩⟩, d₄, ?_, ⟨Mounted.of_empty ?_ hmapValid hmapBytes ?_ hdirValid hdirBytes
    hempty hnodup fun x => ?_, hempty, hmap₄.numClear.trans hr.numClear⟩, hdir₄⟩
  · rw [flushNew]
    apply bind_of_eq hd₁
    apply bind_of_eq hd₂
    apply bind_of_eq (a := ⟨h₁, 0⟩)
    · rw [OpenFile.new, hh₁, Option.map_some]
    apply bind_of_eq (a := ⟨h₂, 0⟩)
    · rw [OpenFile.new, hh₂, Option.map_some]
    apply bind_of_eq hd₃
    exact bind_of_eq hd₄ rfl
  · rw [onDisk, hframe _ fun hmem => (List.nodup_cons.mp hnodup).1 (.tail _ hmem)]
    exact hopen₁
  · rw [onDisk, hframe _ (List.nodup_cons.mp hnodup.of_cons).1]
    exact hopen₂
  · rw [sysSectors, hmapHdr.sectors, hdirHdr.sectors]
    exact (hmap₄.marked x).trans (hr.marked x)

/-- The disk can be formatted, and the table that is written is the one in memory. -/
theorem format_table (junk : Junk) (d : Disk) :
    ∃ fs d', format junk d = some (fs, d') ∧ Formatted fs d' ∧
      SameTable (Directory.new numDirEntries junk.table) (fs.dir d') := by
  obtain ⟨mapHdr, dirHdr, m, hr, hformat⟩ := format_reserved junk d
  rw [hformat]
  exact hr.flushNew_eq junk d

theorem format_cases (junk : Junk) (d : Disk) :
    ∃ fs d', format junk d = some (fs, d') ∧ Formatted fs d' := by
  obtain ⟨fs, d', hformat, hformatted, -⟩ := format_table junk d
  exact ⟨fs, d', hformat, hformatted⟩

/-! ### Creating a file and removing it -/

section
variable {d₁ d₂ d₃ : Disk} {name' : Mem} {x x' : ℤ} {h' : FileHeader}

theorem Formatted.create (hf : Formatted fs d) (junk : Junk) (name : Mem) (hpos : 0 ≤ size)
    (hmax : size ≤ maxFileSize) :
    ∃ d' i x h, fs.create junk d name size = some (true, d') ∧
      Created fs d name size d' i x h := by
  rcases hf.mounted.rooted.create_cases junk name hpos hmax with ⟨-, hrefused⟩ | hcreated
  · exfalso
    rcases hrefused with habs | hfull | hfew
    · apply habs
      intro i hi huse
      rw [hf.empty i hi] at huse
      cases huse
    · have huse := hfull 0 (by decide)
      rw [hf.empty 0 (by decide)] at huse
      cases huse
    · have hmax' : (maxFileSize : ℤ) = 3840 := rfl
      rw [hf.numClear, divRoundUp_eq] at hfew
      omega
  · exact hcreated

/-- After a file is created and removed the disk is as if formatted. -/
theorem Formatted.create_remove (hf : Formatted fs d) {size : ℤ}
    (hc : Created fs d name size d₁ i x h) (hr : Removed fs d₁ name d₂ j) :
    Formatted fs d₂ ∧ SameMap (fs.map d) (fs.map d₂) := by
  have hm₁ := hc.mounted hf.mounted
  obtain rfl := hm₁.names i hc.entry_lt j hr.entry_lt hc.inUse hr.entry_used
    (hc.fileName.trans hr.fileName.symm)
  have hsame : SameMap (fs.map d) (fs.map d₂) := by
    refine ⟨rfl, fun y => ?_⟩
    rw [hr.marked, hc.marked, hc.sector, hc.header.sectors]
    constructor
    · rintro ⟨hy | hy, hnot⟩
      · exact hy
      · exact absurd hy hnot
    · exact fun hy => ⟨.inl hy, fun hmem => hc.clear y hmem hy⟩
  refine ⟨⟨hr.mounted hm₁, fun k hk => ?_, hsame.numClear.trans hf.numClear⟩, hsame⟩
  by_cases hki : k = i
  · rw [hki]
    exact hr.inUse
  · rw [(hr.other k hk hki).inUse, (hc.other k hk hki).inUse]
    exact hf.empty k hk

/-- A header of a file of one sector. -/
theorem Created.one_sector (hc : Created fs d name 1 d₁ i x h) (hs : h'.Same h) :
    h'.numBytes = 1 ∧ h'.sectors = [h.dataSectors 0] ∧ h'.dataSectors 0 = h.dataSectors 0 := by
  have hone : h.numSectors = 1 := hc.numSectors
  refine ⟨hs.numBytes.trans hc.numBytes, ?_, hs.dataSectors 0 ?_⟩
  · rw [hs.sectors, sectors, hone]
    rfl
  · rw [hs.numSectors, hone]
    decide

/-- On disks with the same free sectors files of one sector get the same sectors. -/
theorem Created.same_sectors (hc : Created fs d name 1 d₁ i x h)
    (hc' : Created fs d₂ name' 1 d₃ j x' h') (hsame : SameMap (fs.map d) (fs.map d₂)) :
    x' = x ∧ h'.dataSectors 0 = h.dataSectors 0 := by
  obtain ⟨-, hsingle, -⟩ := hc.one_sector ⟨rfl, rfl, fun _ _ => rfl⟩
  obtain ⟨-, hsingle', -⟩ := hc'.one_sector ⟨rfl, rfl, fun _ _ => rfl⟩
  have hmem : h.dataSectors 0 ∈ h.sectors := by rw [hsingle, List.mem_singleton]
  have hmem' : h'.dataSectors 0 ∈ h'.sectors := by rw [hsingle', List.mem_singleton]
  have hx : x' = x := by
    rcases lt_trichotomy x x' with hlt | heq | hlt
    · have hmarked := (hsame.marked x).mp (hc'.first_sector x hc.isSector.1 hlt)
      exact absurd hmarked (hc.clear x List.mem_cons_self)
    · exact heq.symm
    · have hmarked := (hsame.marked x').mpr (hc.first_sector x' hc'.isSector.1 hlt)
      exact absurd hmarked (hc'.clear x' List.mem_cons_self)
  subst hx
  have hne := (List.nodup_cons.mp hc.nodup).1
  have hne' := (List.nodup_cons.mp hc'.nodup).1
  rw [hsingle, List.mem_singleton] at hne
  rw [hsingle', List.mem_singleton] at hne'
  refine ⟨rfl, ?_⟩
  rcases lt_trichotomy (h.dataSectors 0) (h'.dataSectors 0) with hlt | heq | hlt
  · have hlow := (hc.valid.isSector _ hmem).1
    rcases hc'.first _ hmem' _ hlow hlt with hmarked | hlist
    · exact absurd ((hsame.marked _).mp hmarked) (hc.clear _ (.tail _ hmem))
    · rw [hsingle', List.mem_cons, List.mem_singleton] at hlist
      omega
  · exact heq.symm
  · have hlow := (hc'.valid.isSector _ hmem').1
    rcases hc.first _ hmem _ hlow hlt with hmarked | hlist
    · exact absurd ((hsame.marked _).mpr hmarked) (hc'.clear _ (.tail _ hmem'))
    · rw [hsingle, List.mem_cons, List.mem_singleton] at hlist
      omega

end

/-! ### Runs -/

/-- The operations that change the disk, with the memory they find. -/
inductive Op where
  | create (junk : Junk) (name : Mem) (initialSize : ℤ)
  | remove (junk : Junk) (name : Mem)

/-- The size of a new file is one that a file can have. -/
def Op.InRange : Op → Prop
  | .create _ _ initialSize => 0 ≤ initialSize ∧ initialSize ≤ maxFileSize
  | .remove _ _ => True

/-- The open files and the disk, after any formatting and then one operation after another. -/
def machine : Machine (FileSystem × Disk) Op where
  init s := ∃ junk d, format junk d = some s
  step s
    | .create junk name initialSize =>
      (s.1.create junk s.2 name initialSize).map fun result => (s.1, result.2)
    | .remove junk name => (s.1.remove junk s.2 name).map fun result => (s.1, result.2)

/-- An operation on a mounted file system fails no assertion. -/
theorem machine_step {s : FileSystem × Disk} {op : Op} (hm : Mounted s.1 s.2) (hop : op.InRange) :
    ∃ s', machine.step s op = some s' ∧ Mounted s'.1 s'.2 := by
  cases op with
  | create junk name size =>
    rcases hm.rooted.create_cases junk name hop.1 hop.2 with ⟨hc, -⟩ | ⟨d', i, x, h, hc, hcreated⟩
    · exact ⟨s, by simp [machine, hc], hm⟩
    · exact ⟨(s.1, d'), by simp [machine, hc], hcreated.mounted hm⟩
  | remove junk name =>
    rcases hm.rooted.remove_cases junk name with ⟨hr, -⟩ | ⟨d', i, hr, hremoved⟩
    · exact ⟨s, by simp [machine, hr], hm⟩
    · exact ⟨(s.1, d'), by simp [machine, hr], hremoved.mounted hm⟩

theorem machine_run {s : FileSystem × Disk} {ops : List Op} (hm : Mounted s.1 s.2)
    (hops : ∀ op ∈ ops, op.InRange) :
    ∃ s', machine.run s ops = some s' ∧ Mounted s'.1 s'.2 := by
  induction ops generalizing s with
  | nil => exact ⟨s, rfl, hm⟩
  | cons op ops ih =>
    obtain ⟨s₁, hs₁, hm₁⟩ := machine_step hm (hops op List.mem_cons_self)
    obtain ⟨s', hs', hm'⟩ := ih hm₁ fun o ho => hops o (.tail _ ho)
    exact ⟨s', by rw [Machine.run_cons, hs₁, Option.bind_some, hs'], hm'⟩

/-! ### What is listed on the disk -/

/-- Sectors 0 and 1, the sectors that the headers there list, and for each entry of the directory
its header sector and the sectors that this header lists. -/
def usedSectors (d : Disk) : List ℤ :=
  let dir := dirOn (onDisk d directorySector) d
  freeMapSector :: directorySector ::
    ((onDisk d freeMapSector).sectors ++ (onDisk d directorySector).sectors) ++
    (List.range numDirEntries).flatMap fun i =>
      if dir.inUse i then dir.sector i :: (onDisk d (dir.sector i)).sectors else []

/-- The map, the directory and the headers on the disk agree. -/
structure Consistent (d : Disk) : Prop where
  marked_iff : ∀ x, (mapOn (onDisk d freeMapSector) d).test x = some true ↔ x ∈ usedSectors d
  nodup : (usedSectors d).Nodup
  isSector : ∀ x ∈ usedSectors d, IsSector x
  valid : ∀ i < numDirEntries, (dirOn (onDisk d directorySector) d).inUse i = true →
    (onDisk d ((dirOn (onDisk d directorySector) d).sector i)).Valid
  names : ∀ i < numDirEntries, ∀ j < numDirEntries,
    (dirOn (onDisk d directorySector) d).inUse i = true →
    (dirOn (onDisk d directorySector) d).inUse j = true →
    Mem.strncmp ((dirOn (onDisk d directorySector) d).name i)
      ((dirOn (onDisk d directorySector) d).name j) Directory.fileNameMaxLen = 0 → i = j

theorem content_same {h h' : FileHeader} (hs : h.Same h') (hv : h.Valid) {k : ℕ}
    (hk : (k : ℤ) < h.numBytes) : OpenFile.content d h' k = OpenFile.content d h k := by
  have hbytes := hv.bytes_le
  rw [OpenFile.content, OpenFile.content, hs.dataSectors]
  rw [sectorSize] at *
  omega

theorem Mounted.consistent (hm : Mounted fs d) : Consistent d := by
  have hmap : SameMap (fs.map d) (mapOn (onDisk d freeMapSector) d) := by
    refine SameMap.of_words rfl fun k hk => Mem.word_congr fun i hi => ?_
    have hbits : (fs.map d).numBits = 1024 := rfl
    have hbytes := hm.mapBytes
    rw [show freeMapFileSize = 128 from rfl] at hbytes
    exact content_same hm.mapHdr hm.mapValid (by omega)
  have hdir : SameDir (fs.dir d) (dirOn (onDisk d directorySector) d) := by
    refine ⟨rfl, fun i hi => .of_table hi fun k hk => ?_⟩
    have hbytes := hm.dirBytes
    rw [show directoryFileSize = 200 from rfl] at hbytes
    rw [show (fs.dir d).tableSize * Directory.entrySize = 200 from rfl] at hk
    exact content_same hm.dirHdr hm.dirValid (by omega)
  have hused : usedSectors d = (none :: (List.range numDirEntries).map some).flatMap
      (blocks (fs.dir d) (onDisk d) fs.sysSectors) := by
    rw [usedSectors, List.flatMap_cons, ← hm.mapHdr.sectors, ← hm.dirHdr.sectors, List.flatMap_map]
    congr 1
    apply List.flatMap_congr
    intro i hi
    have hi := List.mem_range.mp hi
    rw [(hdir.entry i hi).inUse, (hdir.entry i hi).sector, blocks]
    by_cases huse : (fs.dir d).inUse i = true
    · rw [if_pos huse, if_pos ⟨hi, huse⟩]
    · rw [if_neg huse, if_neg fun h => huse h.2]
  have howners : (none :: (List.range numDirEntries).map some).Nodup := by
    apply List.nodup_cons.mpr
    exact ⟨by simp, List.nodup_range.map (Option.some_injective ℕ)⟩
  have hall (o : Option ℕ) (ho : o ∉ none :: (List.range numDirEntries).map some) :
      blocks (fs.dir d) (onDisk d) fs.sysSectors o = [] := by
    cases o with
    | none => exact absurd List.mem_cons_self ho
    | some i =>
      apply if_neg
      rintro ⟨hi, -⟩
      exact ho (.tail _ (List.mem_map.mpr ⟨i, List.mem_range.mpr hi, rfl⟩))
  have hmarked (x : ℤ) : (mapOn (onDisk d freeMapSector) d).Marked x ↔ x ∈ usedSectors d := by
    rw [hmap.marked, hused, hm.allotted.marked_iff_mem hall]
  constructor
  · exact hmarked
  · rw [hused]
    exact hm.allotted.nodup_flatMap howners
  · exact fun x hx => (BitMap.marked_iff.mp ((hmarked x).mpr hx)).1
  · intro i hi huse
    rw [(hdir.entry i hi).inUse] at huse
    rw [(hdir.entry i hi).sector]
    exact hm.valid i hi huse
  · intro i hi j hj huse huse' heq
    rw [(hdir.entry i hi).inUse] at huse
    rw [(hdir.entry j hj).inUse] at huse'
    apply hm.names i hi j hj huse huse'
    rw [← (hdir.entry i hi).fileName, ← (hdir.entry j hj).fileName]
    exact Mem.strncmp_eq_zero.mp heq

/-- A disk that is formatted can be, and whatever files are created and removed then, no assertion
fails and the disk stays consistent. -/
theorem file_system_stays_consistent (junk : Junk) (d : Disk) :
    ∃ s, format junk d = some s ∧ ∀ ops : List Op, (∀ op ∈ ops, op.InRange) →
      ∃ s', machine.run s ops = some s' ∧ Consistent s'.2 := by
  obtain ⟨fs, d', hformat, hformatted⟩ := format_cases junk d
  refine ⟨(fs, d'), hformat, fun ops hops => ?_⟩
  obtain ⟨s', hs', hm'⟩ := machine_run (s := (fs, d')) hformatted.mounted hops
  exact ⟨s', hs', hm'.consistent⟩

/-- Memory and a disk with zeros on it. -/
def blank : Junk := ⟨fun _ => 0, fun _ => 0, fun _ => ⟨0, 0, fun _ => 0⟩, fun _ _ => 0⟩

/-- A file of 200 bytes is created twice, the second time in vain, and removed. -/
theorem file_system_stays_consistent_once :
    ∃ s, format blank (fun _ _ => 0) = some s ∧ ∃ s', machine.run s [.create blank (fun _ => 97) 200,
      .create blank (fun _ => 97) 200, .remove blank fun _ => 97] = some s' ∧ Consistent s'.2 := by
  obtain ⟨s, hs, hruns⟩ := file_system_stays_consistent blank fun _ _ => 0
  refine ⟨s, hs, hruns _ fun op hop => ?_⟩
  simp only [List.mem_cons, List.not_mem_nil, or_false] at hop
  rcases hop with rfl | rfl | rfl
  · exact ⟨by decide, by decide⟩
  · exact ⟨by decide, by decide⟩
  · trivial

end Coursework.Nachos.FileSystem
