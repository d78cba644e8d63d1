import Coursework.Lib.Allotment
import Coursework.Nachos.FileSystem

/-!
# What the operations of a mounted file system do

The sectors marked on the disk are allotted to the two files that are left open and to the
files of the directory. From that each of `Create`, `Remove` and `Open` is described by one
lemma. In a mounted file system the headers on the disk are valid too, and none of the
operations fails an assertion.
-/
namespace Coursework.Nachos.FileSystem
open Disk FileHeader

/-- The sectors of each owner: of the two files that are left open, and of each file in the
directory its header sector and data sectors. -/
def blocks (dir : Directory) (hdr : ℤ → FileHeader) (sys : List ℤ) : Option ℕ → List ℤ
  | none => sys
  | some i =>
    if i < dir.tableSize ∧ dir.inUse i then dir.sector i :: (hdr (dir.sector i)).sectors else []

/-- The sectors of the map of free sectors and of the directory. -/
def sysSectors (fs : FileSystem) : List ℤ :=
  freeMapSector :: directorySector ::
    (fs.freeMapFile.hdr.sectors ++ fs.directoryFile.hdr.sectors)

/-- The map of free sectors on the disk. -/
def map (fs : FileSystem) (d : Disk) : BitMap := mapOn fs.freeMapFile.hdr d

/-- The directory on the disk. -/
def dir (fs : FileSystem) (d : Disk) : Directory := dirOn fs.directoryFile.hdr d

structure Mounted (fs : FileSystem) (d : Disk) : Prop where
  mapHdr : fs.freeMapFile.hdr.Same (onDisk d freeMapSector)
  mapValid : fs.freeMapFile.hdr.Valid
  mapBytes : fs.freeMapFile.hdr.numBytes = freeMapFileSize
  dirHdr : fs.directoryFile.hdr.Same (onDisk d directorySector)
  dirValid : fs.directoryFile.hdr.Valid
  dirBytes : fs.directoryFile.hdr.numBytes = directoryFileSize
  allotted : Allotted (fs.map d).Marked (blocks (fs.dir d) (onDisk d) fs.sysSectors)
  valid : ∀ i < numDirEntries, (fs.dir d).inUse i = true →
    (onDisk d ((fs.dir d).sector i)).Valid
  names : ∀ i < numDirEntries, ∀ j < numDirEntries, (fs.dir d).inUse i = true →
    (fs.dir d).inUse j = true → (fs.dir d).fileName i = (fs.dir d).fileName j → i = j

/-- What the operations rely on, whatever sizes the files were given. -/
structure Rooted (fs : FileSystem) (d : Disk) : Prop where
  mapValid : fs.freeMapFile.hdr.Valid
  mapBytes : fs.freeMapFile.hdr.numBytes = freeMapFileSize
  dirValid : fs.directoryFile.hdr.Valid
  dirBytes : fs.directoryFile.hdr.numBytes = directoryFileSize
  allotted : Allotted (fs.map d).Marked (blocks (fs.dir d) (onDisk d) fs.sysSectors)
  sectors_le : ∀ i < numDirEntries, (fs.dir d).inUse i = true →
    (onDisk d ((fs.dir d).sector i)).numSectors ≤ numDirect
  names : ∀ i < numDirEntries, ∀ j < numDirEntries, (fs.dir d).inUse i = true →
    (fs.dir d).inUse j = true → (fs.dir d).fileName i = (fs.dir d).fileName j → i = j

/-- What a `Create` that succeeds does, with entry `i`, header sector `s` and header `h`. -/
structure Created (fs : FileSystem) (d : Disk) (name : Mem) (size : ℤ) (d' : Disk) (i : ℕ)
    (s : ℤ) (h : FileHeader) : Prop where
  entry_lt : i < numDirEntries
  entry_free : (fs.dir d).inUse i = false
  name_new : ∀ j < numDirEntries, (fs.dir d).inUse j = true →
    (fs.dir d).fileName j ≠ name.chars Directory.fileNameMaxLen
  inUse : (fs.dir d').inUse i = true
  sector : (fs.dir d').sector i = s
  fileName : (fs.dir d').fileName i = name.chars Directory.fileNameMaxLen
  other : ∀ j < numDirEntries, j ≠ i → Directory.SameEntry (fs.dir d) (fs.dir d') j
  valid : h.Valid
  numBytes : h.numBytes = size
  numSectors : h.numSectors = divRoundUp size sectorSize
  header : (onDisk d' s).Same h
  isSector : IsSector s
  nodup : (s :: h.sectors).Nodup
  clear : ∀ x ∈ s :: h.sectors, ¬ (fs.map d).Marked x
  first_sector : ∀ y, 0 ≤ y → y < s → (fs.map d).Marked y
  first : ∀ x ∈ h.sectors, ∀ y, 0 ≤ y → y < x → (fs.map d).Marked y ∨ y ∈ s :: h.sectors
  marked : ∀ x, (fs.map d').Marked x ↔ (fs.map d).Marked x ∨ x ∈ s :: h.sectors
  frame : ∀ x, x ≠ s → x ∉ fs.freeMapFile.hdr.sectors → x ∉ fs.directoryFile.hdr.sectors →
    d' x = d x

/-- What a `Create` that succeeds does whatever the size, with entry `i`, header sector `s` and
header `h`. -/
structure Stored (fs : FileSystem) (d : Disk) (name : Mem) (d' : Disk) (i : ℕ) (s : ℤ)
    (h : FileHeader) : Prop where
  entry_lt : i < numDirEntries
  entry_free : (fs.dir d).inUse i = false
  name_new : ∀ j < numDirEntries, (fs.dir d).inUse j = true →
    (fs.dir d).fileName j ≠ name.chars Directory.fileNameMaxLen
  inUse : (fs.dir d').inUse i = true
  sector : (fs.dir d').sector i = s
  fileName : (fs.dir d').fileName i = name.chars Directory.fileNameMaxLen
  other : ∀ j < numDirEntries, j ≠ i → Directory.SameEntry (fs.dir d) (fs.dir d') j
  sectors_le : h.numSectors ≤ numDirect
  header : (onDisk d' s).Same h
  nodup : (s :: h.sectors).Nodup
  clear : ∀ x ∈ s :: h.sectors, ¬ (fs.map d).Marked x
  marked : ∀ x, (fs.map d').Marked x ↔ (fs.map d).Marked x ∨ x ∈ s :: h.sectors
  frame : ∀ x, x ≠ s → x ∉ fs.freeMapFile.hdr.sectors → x ∉ fs.directoryFile.hdr.sectors →
    d' x = d x

/-- What `Create` has in memory when it comes to the data sectors: the map with the header sector
`s` marked and the directory with the name in entry `i`. -/
structure Prepared (fs : FileSystem) (d : Disk) (name : Mem) (dir : Directory) (m : BitMap)
    (s i : ℕ) : Prop where
  entry_lt : i < numDirEntries
  entry_free : (fs.dir d).inUse i = false
  name_new : ∀ j < numDirEntries, (fs.dir d).inUse j = true →
    (fs.dir d).fileName j ≠ name.chars Directory.fileNameMaxLen
  added : ∃ dir₀, SameTable (fs.dir d) dir₀ ∧ dir₀.add name s = (true, dir)
  tableSize : dir.tableSize = numDirEntries
  inUse : dir.inUse i = true
  sector : dir.sector i = s
  fileName : dir.fileName i = name.chars Directory.fileNameMaxLen
  other : ∀ j < numDirEntries, j ≠ i → Directory.SameEntry (fs.dir d) dir j
  sector_lt : s < Disk.numSectors
  clear : ¬ (fs.map d).Marked s
  first_sector : ∀ y : ℤ, 0 ≤ y → y < s → (fs.map d).Marked y
  numBits : m.numBits = Disk.numSectors
  marked : ∀ x, m.Marked x ↔ (fs.map d).Marked x ∨ x = s
  numClear : m.numClear + 1 = (fs.map d).numClear

/-- The end of `Create`, with the result of `Allocate`. -/
def store (fs : FileSystem) (junk : Junk) (d : Disk) (sector : ℤ) (directory : Directory) :
    Bool × FileHeader × BitMap → Option (Bool × Disk)
  | (ok, hdr, freeMap) =>
    if ¬ ok then some (false, d)
    else do
      let d ← hdr.writeBack d sector
      let d ← directory.writeBack d fs.directoryFile (junk.buf 2) (junk.buf 3)
      let d ← freeMap.writeBack d fs.freeMapFile (junk.buf 4) (junk.buf 5)
      some (true, d)

/-- What a `Remove` that finds the name in entry `i` does. -/
structure Removed (fs : FileSystem) (d : Disk) (name : Mem) (d' : Disk) (i : ℕ) : Prop where
  entry_lt : i < numDirEntries
  entry_used : (fs.dir d).inUse i = true
  fileName : (fs.dir d).fileName i = name.chars Directory.fileNameMaxLen
  inUse : (fs.dir d').inUse i = false
  other : ∀ j < numDirEntries, j ≠ i → Directory.SameEntry (fs.dir d) (fs.dir d') j
  marked : ∀ x, (fs.map d').Marked x ↔ (fs.map d).Marked x ∧
    x ∉ (fs.dir d).sector i :: (onDisk d ((fs.dir d).sector i)).sectors
  frame : ∀ x, x ∉ fs.freeMapFile.hdr.sectors → x ∉ fs.directoryFile.hdr.sectors → d' x = d x

variable {fs : FileSystem} {d d' : Disk} {m : BitMap} {dir : Directory} {name : Mem} {size s : ℤ}
  {i : ℕ} {h : FileHeader}

/-- A name that no entry in use has. -/
def Absent (fs : FileSystem) (d : Disk) (name : Mem) : Prop :=
  ∀ i < numDirEntries, (fs.dir d).inUse i = true →
    (fs.dir d).fileName i ≠ name.chars Directory.fileNameMaxLen

theorem isSector_of_marked {x : ℤ} (hx : (fs.map d).Marked x) : IsSector x :=
  (BitMap.marked_iff.mp hx).1

theorem blocks_none {hdr : ℤ → FileHeader} {sys : List ℤ} : blocks dir hdr sys none = sys := rfl

theorem blocks_some {hdr : ℤ → FileHeader} {sys : List ℤ} (hi : i < dir.tableSize)
    (huse : dir.inUse i = true) :
    blocks dir hdr sys (some i) = dir.sector i :: (hdr (dir.sector i)).sectors :=
  if_pos ⟨hi, huse⟩

theorem blocks_free {hdr : ℤ → FileHeader} {sys : List ℤ} (huse : dir.inUse i = false) :
    blocks dir hdr sys (some i) = [] :=
  if_neg fun h => by simp [huse] at h

theorem Mounted.rooted (hm : Mounted fs d) : Rooted fs d :=
  ⟨hm.mapValid, hm.mapBytes, hm.dirValid, hm.dirBytes, hm.allotted,
    fun i hi huse => (hm.valid i hi huse).sectors_le, hm.names⟩

theorem Created.stored (hc : Created fs d name size d' i s h) : Stored fs d name d' i s h :=
  ⟨hc.entry_lt, hc.entry_free, hc.name_new, hc.inUse, hc.sector, hc.fileName, hc.other,
    hc.valid.sectors_le, hc.header, hc.nodup, hc.clear, hc.marked, hc.frame⟩

theorem Prepared.isSector {s : ℕ} (hp : Prepared fs d name dir m s i) : IsSector s :=
  ⟨Int.natCast_nonneg s, Int.ofNat_lt.mpr hp.sector_lt⟩

/-- A file of a size that a header can hold is a new file. -/
theorem Prepared.created {m' : BitMap} {s : ℕ} (hp : Prepared fs d name dir m s i)
    (ha : Allocated m size h m') (hs : Stored fs d name d' i s h) :
    Created fs d name size d' i s h := by
  constructor
  · exact hs.entry_lt
  · exact hs.entry_free
  · exact hs.name_new
  · exact hs.inUse
  · exact hs.sector
  · exact hs.fileName
  · exact hs.other
  · exact ha.valid
  · exact ha.numBytes
  · exact ha.numSectors
  · exact hs.header
  · exact hp.isSector
  · exact hs.nodup
  · exact hs.clear
  · exact hp.first_sector
  · intro x hx y hy hlt
    have hfirst := ha.first x hx y hy hlt
    rw [hp.marked, or_assoc] at hfirst
    exact hfirst.imp_right List.mem_cons.mpr
  · exact hs.marked
  · exact hs.frame

namespace Rooted

/-! ### Sectors of the system and of the files -/

theorem marked_sys (hm : Rooted fs d) (hs : s ∈ fs.sysSectors) : (fs.map d).Marked s :=
  hm.allotted.marked_of_mem (i := none) hs

theorem sys_nodup (hm : Rooted fs d) : fs.sysSectors.Nodup := hm.allotted.nodup none

theorem map_nodup (hm : Rooted fs d) : fs.freeMapFile.hdr.sectors.Nodup :=
  (List.nodup_append.mp (hm.sys_nodup.of_cons.of_cons)).1

theorem dir_nodup (hm : Rooted fs d) : fs.directoryFile.hdr.sectors.Nodup :=
  (List.nodup_append.mp (hm.sys_nodup.of_cons.of_cons)).2.1

theorem dir_not_mem_map (hm : Rooted fs d) (hs : s ∈ fs.directoryFile.hdr.sectors) :
    s ∉ fs.freeMapFile.hdr.sectors := fun hmap =>
  (List.nodup_append.mp (hm.sys_nodup.of_cons.of_cons)).2.2 s hmap s hs rfl

theorem mem_sys_map (hs : s ∈ fs.freeMapFile.hdr.sectors) : s ∈ fs.sysSectors :=
  .tail _ (.tail _ (List.mem_append_left _ hs))

theorem mem_sys_dir (hs : s ∈ fs.directoryFile.hdr.sectors) : s ∈ fs.sysSectors :=
  .tail _ (.tail _ (List.mem_append_right _ hs))

theorem block_eq (hi : i < numDirEntries) (huse : (fs.dir d).inUse i = true) :
    blocks (fs.dir d) (onDisk d) fs.sysSectors (some i) =
      (fs.dir d).sector i :: (onDisk d ((fs.dir d).sector i)).sectors := blocks_some hi huse

theorem marked_file (hm : Rooted fs d) (hi : i < numDirEntries)
    (huse : (fs.dir d).inUse i = true)
    (hs : s ∈ (fs.dir d).sector i :: (onDisk d ((fs.dir d).sector i)).sectors) :
    (fs.map d).Marked s :=
  hm.allotted.marked_of_mem (i := some i) (by rwa [block_eq hi huse])

/-- The sectors of a file are not those of the system. -/
theorem file_not_mem_sys (hm : Rooted fs d) (hi : i < numDirEntries)
    (huse : (fs.dir d).inUse i = true)
    (hs : s ∈ (fs.dir d).sector i :: (onDisk d ((fs.dir d).sector i)).sectors) :
    s ∉ fs.sysSectors := by
  intro hsys
  have howner := hm.allotted.owner_unique (i := some i) (j := none)
    (by rwa [block_eq hi huse]) hsys
  cases howner

/-- A sector belongs to one file. -/
theorem file_unique (hm : Rooted fs d) {j : ℕ} (hi : i < numDirEntries)
    (huse : (fs.dir d).inUse i = true)
    (hs : s ∈ (fs.dir d).sector i :: (onDisk d ((fs.dir d).sector i)).sectors)
    (hj : j < numDirEntries) (huse' : (fs.dir d).inUse j = true)
    (hs' : s ∈ (fs.dir d).sector j :: (onDisk d ((fs.dir d).sector j)).sectors) : i = j := by
  have howner := hm.allotted.owner_unique (i := some i) (j := some j)
    (by rwa [block_eq hi huse]) (by rwa [block_eq hj huse'])
  exact Option.some.inj howner

/-- The header of a file is not in a sector of its data. -/
theorem header_not_mem (hm : Rooted fs d) (hi : i < numDirEntries)
    (huse : (fs.dir d).inUse i = true) :
    (fs.dir d).sector i ∉ (onDisk d ((fs.dir d).sector i)).sectors := by
  have hnodup := hm.allotted.nodup (some i)
  rw [block_eq hi huse] at hnodup
  exact (List.nodup_cons.mp hnodup).1

/-! ### Looking up a name -/

theorem find_cases (hm : Rooted fs d) (hdir : SameDir (fs.dir d) dir) (name : Mem) :
    (∃ i < numDirEntries, (fs.dir d).inUse i = true ∧
      (fs.dir d).fileName i = name.chars Directory.fileNameMaxLen ∧
      dir.findIndex name = some i ∧ dir.find name = (fs.dir d).sector i ∧
      IsSector ((fs.dir d).sector i)) ∨
    Absent fs d name ∧ dir.findIndex name = none ∧ dir.find name = -1 := by
  have hsize : dir.tableSize = numDirEntries := hdir.tableSize
  rw [Directory.find]
  rcases dir.findIndex_cases name with ⟨i, hi, huse, hname, hfind⟩ | ⟨habs, hfind⟩
  · left
    rw [hsize] at hi
    have hsame := hdir.entry i hi
    rw [hsame.inUse] at huse
    rw [hsame.fileName] at hname
    refine ⟨i, hi, huse, hname, hfind, ?_, ?_⟩
    · rw [hfind]
      exact hsame.sector
    · exact isSector_of_marked (hm.marked_file hi huse List.mem_cons_self)
  · right
    refine ⟨fun i hi huse => ?_, hfind, ?_⟩
    · have hsame := hdir.entry i hi
      rw [← hsame.inUse] at huse
      rw [← hsame.fileName]
      exact habs i (hsize.symm ▸ hi) huse
    · rw [hfind]

theorem fetchMap (hm : Rooted fs d) (junk : ℕ → BitVec 32) (buf : Mem) :
    ∃ m, (BitMap.new numSectors junk).fetchFrom d fs.freeMapFile buf = some m ∧
      SameMap (fs.map d) m := fetchMap_eq junk buf hm.mapValid hm.mapBytes

theorem fetchDir (hm : Rooted fs d) (junk buf : Mem) :
    ∃ dir, (Directory.new numDirEntries junk).fetchFrom d fs.directoryFile buf = some dir ∧
      SameTable (fs.dir d) dir := fetchDir_eq junk buf hm.dirValid hm.dirBytes

theorem find_of_entry (hm : Rooted fs d) (hi : i < numDirEntries)
    (huse : (fs.dir d).inUse i = true)
    (hname : (fs.dir d).fileName i = name.chars Directory.fileNameMaxLen) :
    (fs.dir d).find name = (fs.dir d).sector i := by
  have hsame : SameDir (fs.dir d) (fs.dir d) := ⟨rfl, fun _ _ => ⟨rfl, rfl, rfl⟩⟩
  rcases hm.find_cases hsame name with ⟨j, hj, huse', hname', -, hfind, -⟩ | ⟨habs, -, -⟩
  · rw [hfind, hm.names j hj i hi huse' huse (hname'.trans hname.symm)]
  · exact absurd hname (habs i hi huse)

theorem find_of_absent (hm : Rooted fs d) (habs : Absent fs d name) :
    (fs.dir d).find name = -1 := by
  have hsame : SameDir (fs.dir d) (fs.dir d) := ⟨rfl, fun _ _ => ⟨rfl, rfl, rfl⟩⟩
  rcases hm.find_cases hsame name with ⟨i, hi, huse, hname, -⟩ | ⟨-, -, hfind⟩
  · exact absurd hname (habs i hi huse)
  · exact hfind

/-- `Open` depends on the sector that the name resolves to and on what is in it. -/
theorem open_eq (hm : Rooted fs d) (junk : Junk) (name : Mem) :
    fs.openFile junk d name =
      if (fs.dir d).find name ≥ 0 then
        (OpenFile.new (junk.hdr 0) d ((fs.dir d).find name)).map some
      else some none := by
  obtain ⟨dir, hfetch, htable⟩ := hm.fetchDir junk.table (junk.buf 0)
  rw [openFile, hfetch, Option.bind_eq_bind, Option.bind_some]
  have hfind : dir.find name = (fs.dir d).find name := by
    rcases hm.find_cases htable.sameDir name with ⟨i, hi, huse, hname, -, hfind, -⟩ | ⟨habs, -, hfind⟩
    · rw [hfind, hm.find_of_entry hi huse hname]
    · rw [hfind, hm.find_of_absent habs]
  rw [hfind]

/-- The name of an entry in use opens its file, at the start. -/
theorem open_of_entry (hm : Rooted fs d) (junk : Junk) (hi : i < numDirEntries)
    (huse : (fs.dir d).inUse i = true)
    (hname : (fs.dir d).fileName i = name.chars Directory.fileNameMaxLen) :
    ∃ h, fs.openFile junk d name = some (some ⟨h, 0⟩) ∧
      h.Same (onDisk d ((fs.dir d).sector i)) := by
  have hs := isSector_of_marked (hm.marked_file hi huse List.mem_cons_self)
  obtain ⟨h, hh, hsame⟩ := (junk.hdr 0).fetchFrom_eq hs (hm.sectors_le i hi huse)
  refine ⟨h, ?_, hsame⟩
  rw [hm.open_eq, hm.find_of_entry hi huse hname, if_pos hs.1, OpenFile.new, hh, Option.map_some,
    Option.map_some]

/-- `Open` finds the name and reads the header of its file, or returns the null pointer. -/
theorem open_cases (hm : Rooted fs d) (junk : Junk) (name : Mem) :
    (∃ i f, fs.openFile junk d name = some (some f) ∧ i < numDirEntries ∧
      (fs.dir d).inUse i = true ∧
      (fs.dir d).fileName i = name.chars Directory.fileNameMaxLen ∧
      f.hdr.Same (onDisk d ((fs.dir d).sector i))) ∨
    fs.openFile junk d name = some none ∧ Absent fs d name := by
  by_cases habs : Absent fs d name
  · right
    rw [hm.open_eq, hm.find_of_absent habs]
    exact ⟨rfl, habs⟩
  · left
    rw [Absent] at habs
    simp only [not_forall, not_not] at habs
    obtain ⟨i, hi, huse, hname⟩ := habs
    obtain ⟨h, ho, hsame⟩ := hm.open_of_entry junk hi huse hname
    exact ⟨i, _, ho, hi, huse, hname, hsame⟩

/-! ### Creating and removing files -/

/-- The directory is written, then the map. -/
theorem flush (hm : Rooted fs d) (buf : ℕ → Mem) (hdir : dir.tableSize = numDirEntries)
    (hmap : m.numBits = Disk.numSectors) (d₁ : Disk) :
    ∃ d₂ d₃, dir.writeBack d₁ fs.directoryFile (buf 2) (buf 3) = some d₂ ∧
      m.writeBack d₂ fs.freeMapFile (buf 4) (buf 5) = some d₃ ∧
      SameTable dir (fs.dir d₃) ∧ SameMap m (fs.map d₃) ∧
      ∀ x, x ∉ fs.freeMapFile.hdr.sectors → x ∉ fs.directoryFile.hdr.sectors → d₃ x = d₁ x := by
  obtain ⟨d₂, hd₂, hframe₂, hsame₂⟩ := writeDir_eq (d := d₁) (buf 2) (buf 3) hm.dirValid
    hm.dir_nodup hm.dirBytes hdir
  obtain ⟨d₃, hd₃, hframe₃, hsame₃⟩ := writeMap_eq (d := d₂) (buf 4) (buf 5) hm.mapValid
    hm.map_nodup hm.mapBytes hmap
  refine ⟨d₂, d₃, hd₂, hd₃, hsame₂.trans ?_, hsame₃, fun x hx hx' => ?_⟩
  · exact dirOn_frame hm.dirValid hm.dirBytes fun s hs => hframe₃ s (hm.dir_not_mem_map hs)
  · rw [hframe₃ x hx, hframe₂ x hx']

/-- `Create` refuses a name that is there, a full directory and a size that does not fit. -/
def Refused (fs : FileSystem) (d : Disk) (name : Mem) (size : ℤ) : Prop :=
  ¬ Absent fs d name ∨ (∀ i < numDirEntries, (fs.dir d).inUse i = true) ∨
    (fs.map d).numClear ≤ divRoundUp size sectorSize

/-- `Create` is refused, or it fills an entry and takes a sector for the header, in memory. -/
theorem create_prepared (hm : Rooted fs d) (junk : Junk) (name : Mem) :
    (∀ size, fs.create junk d name size = some (false, d)) ∧
      (¬ Absent fs d name ∨ (∀ i < numDirEntries, (fs.dir d).inUse i = true) ∨
        (fs.map d).numClear = 0) ∨
    ∃ dir m s i, Prepared fs d name dir m s i ∧ ∀ size, fs.create junk d name size =
      (junk.hdr 0).allocate m size >>= fs.store junk d s dir := by
  obtain ⟨dir, hfetch, htable⟩ := hm.fetchDir junk.table (junk.buf 0)
  obtain ⟨m, hfetchMap, hmap⟩ := hm.fetchMap junk.map (junk.buf 1)
  have hdir := htable.sameDir
  have hbits : m.numBits = Disk.numSectors := hmap.numBits
  simp only [create, hfetch, hfetchMap, Option.bind_eq_bind, Option.bind_some]
  rcases hm.find_cases hdir name with ⟨i, hi, huse, hname, -, hfind, hs⟩ | ⟨habs, hindex, hfind⟩
  · left
    have hne : dir.find name ≠ -1 := by
      rw [hfind]
      have hlow := hs.1
      omega
    exact ⟨fun _ => if_pos hne, .inl fun habs => habs i hi huse hname⟩
  simp only [if_neg (not_not.mpr hfind)]
  rcases m.find_cases with ⟨s, hs, hnew, hfirst, hmfind⟩ | ⟨hfull, hmfind⟩
  · have hsize : (Disk.numSectors : ℤ) = 1024 := rfl
    simp only [hmfind, if_neg (show ¬ (s : ℤ) = -1 by omega)]
    rcases dir.add_cases (s : ℤ) (by unfold intMax; omega) (by unfold intMax; omega) hindex
      with ⟨i, hi, hfree, dir', hadd, hsize', huse', hsector', hname', hother⟩ | ⟨hfull, hadd⟩
    · right
      have hi₀ : i < numDirEntries := hi.trans_eq hdir.tableSize
      have hclear : m.bit s = false := by
        rw [BitMap.marked_natCast hs] at hnew
        exact Bool.eq_false_iff.mpr hnew
      refine ⟨dir', m.setBit s, s, i, ?_, fun size => by rw [hadd]; rfl⟩
      constructor
      · exact hi₀
      · rw [← (hdir.entry i hi₀).inUse]
        exact hfree
      · exact habs
      · exact ⟨dir, htable, hadd⟩
      · exact hsize'.trans hdir.tableSize
      · exact huse'
      · exact hsector'
      · exact hname'
      · exact fun j hj hne => (hdir.entry j hj).trans (hother j hne)
      · exact hbits ▸ hs
      · exact fun hsys => hnew ((hmap.marked s).mpr hsys)
      · exact fun y hy hlt => (hmap.marked y).mp (hfirst y hy hlt)
      · exact hbits
      · intro x
        rw [BitMap.marked_setBit hs, hmap.marked]
      · rw [BitMap.numClear_setBit hs hclear, hmap.numClear]
    · left
      refine ⟨fun size => by rw [hadd]; rfl, .inr (.inl fun i hi => ?_)⟩
      rw [← (hdir.entry i hi).inUse]
      exact hfull i (hdir.tableSize.symm ▸ hi)
  · left
    refine ⟨fun size => by rw [hmfind, if_pos rfl], .inr (.inr ?_)⟩
    rw [← hmap.numClear]
    by_contra hne
    obtain ⟨j, hj, hbit⟩ := BitMap.numClear_pos (Nat.pos_of_ne_zero hne)
    have hmarked := hfull j (Int.natCast_nonneg j) (by omega)
    rw [BitMap.marked_natCast hj, hbit] at hmarked
    cases hmarked

/-- With the data sectors allocated, everything is written. -/
theorem store_eq (hm : Rooted fs d) (junk : Junk) {m' : BitMap} {s : ℕ}
    (hp : Prepared fs d name dir m s i) (hst : h.Storable) (ht : Taken m h m') :
    ∃ d', fs.store junk d s dir (true, h, m') = some (true, d') ∧ SameTable dir (fs.dir d') ∧
      Stored fs d name d' i s h := by
  obtain ⟨d₁, hd₁, hframe₁, hheader⟩ := writeBack_eq (d := d) hp.isSector hst
  obtain ⟨d₂, d₃, hd₂, hd₃, hdir₃, hmap₃, hframe₃⟩ := hm.flush junk.buf hp.tableSize
    (ht.numBits.trans hp.numBits) d₁
  have hentry (j : ℕ) (hj : j < numDirEntries) : Directory.SameEntry dir (fs.dir d₃) j :=
    hdir₃.sameDir.entry j (by rwa [hp.tableSize])
  have hclear (x : ℤ) (hx : x ∈ h.sectors) : ¬ (fs.map d).Marked x ∧ x ≠ s := by
    have hx := ht.clear x hx
    rw [hp.marked] at hx
    exact not_or.mp hx
  have hsys : (s : ℤ) ∉ fs.sysSectors := fun hsys => hp.clear (hm.marked_sys hsys)
  have hsame₃ : onDisk d₃ s = onDisk d₁ s := by
    rw [onDisk, onDisk, hframe₃ s (fun hmem => hsys (mem_sys_map hmem))
      (fun hmem => hsys (mem_sys_dir hmem))]
  refine ⟨d₃, by simp [store, hd₁, hd₂, hd₃], hdir₃, ?_⟩
  constructor
  · exact hp.entry_lt
  · exact hp.entry_free
  · exact hp.name_new
  · rw [(hentry i hp.entry_lt).inUse, hp.inUse]
  · rw [(hentry i hp.entry_lt).sector, hp.sector]
  · rw [(hentry i hp.entry_lt).fileName, hp.fileName]
  · exact fun j hj hne => (hp.other j hj hne).trans (hentry j hj)
  · exact hst.sectors_le
  · rwa [hsame₃]
  · exact List.nodup_cons.mpr ⟨fun hmem => (hclear s hmem).2 rfl, ht.nodup⟩
  · intro x hx
    rcases List.mem_cons.mp hx with rfl | hx
    · exact hp.clear
    · exact (hclear x hx).1
  · intro x
    rw [hmap₃.marked, ht.marked, hp.marked, or_assoc, List.mem_cons]
  · intro x hx hxmap hxdir
    rw [hframe₃ x hxmap hxdir, hframe₁ x hx]

theorem create_cases (hm : Rooted fs d) (junk : Junk) (name : Mem) (hpos : 0 ≤ size)
    (hmax : size ≤ maxFileSize) :
    fs.create junk d name size = some (false, d) ∧ Refused fs d name size ∨
    ∃ d' i s h, fs.create junk d name size = some (true, d') ∧ Created fs d name size d' i s h := by
  rcases hm.create_prepared junk name with ⟨hc, hrefused⟩ | ⟨dir, m, s, i, hp, hc⟩
  · left
    refine ⟨hc size, hrefused.imp_right (Or.imp_right fun hnone => ?_)⟩
    have hn := (divRoundUp_spec hpos).1
    omega
  · have hcount := hp.numClear
    rw [hc]
    rcases (junk.hdr 0).allocate_cases m hp.numBits hpos hmax
      with ⟨h, halloc, hfew⟩ | ⟨h, m', halloc, ha⟩
    · left
      rw [halloc]
      exact ⟨rfl, .inr (.inr (by omega))⟩
    · right
      obtain ⟨d', hd', -, hstored⟩ := hm.store_eq junk hp ha.valid.storable ha.taken
      exact ⟨d', i, s, h, bind_of_eq halloc hd', hp.created ha hstored⟩

/-- What `Remove` does, and what it does to the table. -/
theorem remove_table (hm : Rooted fs d) (junk : Junk) (name : Mem) :
    fs.remove junk d name = some (false, d) ∧ Absent fs d name ∨
    ∃ d' i dir, fs.remove junk d name = some (true, d') ∧ Removed fs d name d' i ∧
      SameTable (fs.dir d) dir ∧ SameTable (dir.setInUse i false) (fs.dir d') := by
  obtain ⟨dir, hfetch, htable⟩ := hm.fetchDir junk.table (junk.buf 0)
  obtain ⟨m, hfetchMap, hmap⟩ := hm.fetchMap junk.map (junk.buf 1)
  have hdir := htable.sameDir
  rw [remove]
  simp only [hfetch, hfetchMap, Option.bind_eq_bind, Option.bind_some]
  rcases hm.find_cases hdir name with ⟨i, hi, huse, hname, hindex, hfind, hs⟩ | ⟨habs, -, hfind⟩
  · right
    have hsize : dir.tableSize = numDirEntries := hdir.tableSize
    have hne : ¬ (fs.dir d).sector i = -1 := by
      have hlow := hs.1
      omega
    have hle := hm.sectors_le i hi huse
    obtain ⟨h, hh, hsame⟩ := (junk.hdr 0).fetchFrom_eq hs hle
    have hnodup := hm.allotted.nodup (some i)
    rw [block_eq hi huse, ← hsame.sectors, List.nodup_cons] at hnodup
    have hmarked (x : ℤ) (hx : x ∈ (fs.dir d).sector i :: h.sectors) : m.Marked x := by
      rw [hsame.sectors] at hx
      exact (hmap.marked x).mpr (hm.marked_file hi huse hx)
    obtain ⟨m₁, hm₁, hbits₁, hmarked₁⟩ := deallocate_eq (hsame.numSectors.trans_le hle) hnodup.2
      fun x hx => hmarked x (.tail _ hx)
    have htest := (hmarked₁ _).mpr ⟨hmarked _ List.mem_cons_self, hnodup.1⟩
    obtain ⟨m₂, hm₂, hbits₂, hmarked₂⟩ := htest.clear
    obtain ⟨d₁, hd₁, hframe₁, hmap₁⟩ := writeMap_eq (d := d) (junk.buf 2) (junk.buf 3) hm.mapValid
      hm.map_nodup hm.mapBytes (hbits₂.trans (hbits₁.trans hmap.numBits))
    have hsize' : (dir.setInUse i false).tableSize = numDirEntries := hsize
    obtain ⟨d₂, hd₂, hframe₂, hdir₂⟩ := writeDir_eq (d := d₁) (junk.buf 4) (junk.buf 5)
      hm.dirValid hm.dir_nodup hm.dirBytes hsize'
    have hentry (j : ℕ) (hj : j < numDirEntries) :
        Directory.SameEntry (dir.setInUse i false) (fs.dir d₂) j :=
      hdir₂.sameDir.entry j (hsize.symm ▸ hj)
    have hmap₂ : SameMap m₂ (fs.map d₂) := hmap₁.trans (mapOn_frame hm.mapValid hm.mapBytes
      fun x hx => hframe₂ x fun hx' => hm.dir_not_mem_map hx' hx)
    refine ⟨d₂, i, dir, ?_, ⟨hi, huse, hname, ?_, fun j hj hne => ?_, fun x => ?_,
      fun x hx hx' => ?_⟩, htable, hdir₂⟩
    · simp only [hfind, if_neg hne, hh, hm₁, hm₂, hd₁, Directory.remove, hindex, hd₂,
        Option.bind_some]
    · rw [(hentry i hi).inUse, Directory.inUse_setInUse]
    · exact ((hdir.entry j hj).trans (Directory.sameEntry_setInUse false hne)).trans (hentry j hj)
    · rw [hmap₂.marked, hmarked₂, hmarked₁, hmap.marked, hsame.sectors, List.mem_cons, not_or,
        and_assoc, and_comm (a := x ∉ _)]
    · rw [hframe₂ x hx', hframe₁ x hx]
  · left
    rw [if_pos hfind]
    exact ⟨rfl, habs⟩

theorem remove_cases (hm : Rooted fs d) (junk : Junk) (name : Mem) :
    fs.remove junk d name = some (false, d) ∧ Absent fs d name ∨
    ∃ d' i, fs.remove junk d name = some (true, d') ∧ Removed fs d name d' i := by
  apply (hm.remove_table junk name).imp_right
  rintro ⟨d', i, dir, hr, hremoved, -⟩
  exact ⟨d', i, hr, hremoved⟩

end Rooted
end Coursework.Nachos.FileSystem
