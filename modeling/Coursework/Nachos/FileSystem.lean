import Coursework.Nachos.FileSystem.Directory

/-!
# The file system of `filesys.cc`

The map of free sectors and the directory are files with their headers in sectors 0 and 1,
and stay open. Every operation reads them from the disk and, if it succeeds, writes them back.
`none` stands for a failed assertion and for what is undefined.
-/
namespace Coursework.Nachos
open Disk

/-! ### The map of free sectors as a file -/

namespace BitMap

def numWords (m : BitMap) : ℕ := (divRoundUp m.numBits 32).toNat

def fetchFrom (m : BitMap) (d : Disk) (file : OpenFile) (buf : Mem) : Option BitMap := do
  let (words, _) ← file.readAt d buf m.image (m.numWords * 4 : ℕ) 0
  some { m with map := fun k => words.word (4 * k) }

def writeBack (m : BitMap) (d : Disk) (file : OpenFile) (garbage buf : Mem) : Option Disk := do
  let (d, _) ← file.writeAt d garbage buf m.image (m.numWords * 4 : ℕ) 0
  some d

end BitMap

/-- The two files that are left open. -/
structure FileSystem where
  freeMapFile : OpenFile
  directoryFile : OpenFile

/-- What is in the memory of the objects and buffers that an operation creates. -/
structure Junk where
  map : ℕ → BitVec 32
  table : Mem
  hdr : ℕ → FileHeader
  buf : ℕ → Mem

namespace FileSystem

def freeMapSector : ℤ := 0

def directorySector : ℤ := 1

def freeMapFileSize : ℕ := numSectors / 8

def numDirEntries : ℕ := 10

def directoryFileSize : ℕ := Directory.entrySize * numDirEntries

/-- `ASSERT` -/
def assert (condition : Bool) : Option Unit := if condition then some () else none

/-- The constructor with `format` set, on a disk with anything on it. -/
def format (junk : Junk) (d : Disk) : Option (FileSystem × Disk) := do
  let freeMap := BitMap.new numSectors junk.map
  let directory := Directory.new numDirEntries junk.table
  let freeMap ← freeMap.mark freeMapSector
  let freeMap ← freeMap.mark directorySector
  let (ok, mapHdr, freeMap) ← (junk.hdr 0).allocate freeMap freeMapFileSize
  assert ok
  let (ok, dirHdr, freeMap) ← (junk.hdr 1).allocate freeMap directoryFileSize
  assert ok
  let d ← mapHdr.writeBack d freeMapSector
  let d ← dirHdr.writeBack d directorySector
  let freeMapFile ← OpenFile.new (junk.hdr 2) d freeMapSector
  let directoryFile ← OpenFile.new (junk.hdr 3) d directorySector
  let d ← freeMap.writeBack d freeMapFile (junk.buf 0) (junk.buf 1)
  let d ← directory.writeBack d directoryFile (junk.buf 2) (junk.buf 3)
  some (⟨freeMapFile, directoryFile⟩, d)

def create (fs : FileSystem) (junk : Junk) (d : Disk) (name : Mem) (initialSize : ℤ) :
    Option (Bool × Disk) := do
  let directory := Directory.new numDirEntries junk.table
  let directory ← directory.fetchFrom d fs.directoryFile (junk.buf 0)
  if directory.find name ≠ -1 then some (false, d)
  else
    let freeMap := BitMap.new numSectors junk.map
    let freeMap ← freeMap.fetchFrom d fs.freeMapFile (junk.buf 1)
    let (sector, freeMap) := freeMap.find
    if sector = -1 then some (false, d)
    else
      let (added, directory) := directory.add name sector
      if ¬ added then some (false, d)
      else
        let (ok, hdr, freeMap) ← (junk.hdr 0).allocate freeMap initialSize
        if ¬ ok then some (false, d)
        else
          let d ← hdr.writeBack d sector
          let d ← directory.writeBack d fs.directoryFile (junk.buf 2) (junk.buf 3)
          let d ← freeMap.writeBack d fs.freeMapFile (junk.buf 4) (junk.buf 5)
          some (true, d)

/-- `Open`; the inner `none` is the null pointer. -/
def openFile (fs : FileSystem) (junk : Junk) (d : Disk) (name : Mem) :
    Option (Option OpenFile) := do
  let directory := Directory.new numDirEntries junk.table
  let directory ← directory.fetchFrom d fs.directoryFile (junk.buf 0)
  let sector := directory.find name
  if sector ≥ 0 then (OpenFile.new (junk.hdr 0) d sector).map some else some none

def remove (fs : FileSystem) (junk : Junk) (d : Disk) (name : Mem) : Option (Bool × Disk) := do
  let directory := Directory.new numDirEntries junk.table
  let directory ← directory.fetchFrom d fs.directoryFile (junk.buf 0)
  let sector := directory.find name
  if sector = -1 then some (false, d)
  else
    let fileHdr ← (junk.hdr 0).fetchFrom d sector
    let freeMap := BitMap.new numSectors junk.map
    let freeMap ← freeMap.fetchFrom d fs.freeMapFile (junk.buf 1)
    let freeMap ← fileHdr.deallocate freeMap
    let freeMap ← freeMap.clear sector
    let (_, directory) := directory.remove name
    let d ← freeMap.writeBack d fs.freeMapFile (junk.buf 2) (junk.buf 3)
    let d ← directory.writeBack d fs.directoryFile (junk.buf 4) (junk.buf 5)
    some (true, d)

/-! ### What is on the disk -/

theorem bind_of_eq {α β : Type} {x : Option α} {a : α} {g : α → Option β} {b : Option β}
    (hx : x = some a) (hg : g a = b) : x >>= g = b := by
  rw [hx]
  exact hg

/-- The map of free sectors as it is on the disk. -/
def mapOn (h : FileHeader) (d : Disk) : BitMap where
  numBits := numSectors
  map k := (OpenFile.content d h).word (4 * k)

/-- The directory as it is on the disk. -/
def dirOn (h : FileHeader) (d : Disk) : Directory := ⟨numDirEntries, OpenFile.content d h⟩

/-- Maps that have the same bits marked. -/
structure SameMap (m m' : BitMap) : Prop where
  numBits : m'.numBits = m.numBits
  marked : ∀ x, m'.Marked x ↔ m.Marked x

/-- Directories with the same entries. -/
structure SameDir (dir dir' : Directory) : Prop where
  tableSize : dir'.tableSize = dir.tableSize
  entry : ∀ i < dir.tableSize, Directory.SameEntry dir dir' i

/-- Directories with the same bytes. -/
structure SameTable (dir dir' : Directory) : Prop where
  tableSize : dir'.tableSize = dir.tableSize
  agree : Mem.Agree (dir.tableSize * Directory.entrySize) dir'.table dir.table

variable {f : OpenFile} {d d' : Disk} {m m' : BitMap} {dir dir' : Directory} {h : FileHeader}

theorem SameMap.of_words (hn : m'.numBits = m.numBits)
    (hw : ∀ k, 32 * k < m.numBits → m'.map k = m.map k) : SameMap m m' := by
  refine ⟨hn, fun x => ?_⟩
  rw [BitMap.marked_iff, BitMap.marked_iff, hn]
  apply and_congr_right
  intro hx
  rw [BitMap.bit_eq, BitMap.bit_eq, hw _ (by omega)]

theorem SameMap.trans {m'' : BitMap} (h : SameMap m m') (h' : SameMap m' m'') : SameMap m m'' :=
  ⟨h'.numBits.trans h.numBits, fun x => (h'.marked x).trans (h.marked x)⟩

/-- The count of clear bits depends on the marks only. -/
theorem SameMap.numClear (h : SameMap m m') : m'.numClear = m.numClear := by
  rw [BitMap.numClear, BitMap.numClear, h.numBits]
  apply List.countP_congr
  intro i hi
  have hlt := List.mem_range.mp hi
  have hmark := h.marked i
  rw [BitMap.marked_natCast hlt, BitMap.marked_natCast (h.numBits.symm ▸ hlt)] at hmark
  rw [Bool.eq_iff_iff.mpr hmark]

theorem SameMap.of_agree (ha : Mem.Agree freeMapFileSize (OpenFile.content d' h)
    (OpenFile.content d h)) : SameMap (mapOn h d) (mapOn h d') := by
  refine SameMap.of_words rfl fun k hk => ?_
  apply Mem.word_congr
  intro i hi
  have hbits : (mapOn h d).numBits = 1024 := rfl
  exact ha _ (by rw [show freeMapFileSize = 128 from rfl]; omega)

theorem SameTable.sameDir (h : SameTable dir dir') : SameDir dir dir' :=
  ⟨h.tableSize, fun _ hi => .of_table hi h.agree⟩

theorem SameTable.trans {dir'' : Directory} (h : SameTable dir dir') (h' : SameTable dir' dir'') :
    SameTable dir dir'' := by
  refine ⟨h'.tableSize.trans h.tableSize, Mem.Agree.trans ?_ h.agree⟩
  rw [← h.tableSize]
  exact h'.agree

/-- The contents of a file are as they were when its sectors are. -/
theorem content_congr (hv : h.Valid) (hs : ∀ s ∈ h.sectors, d' s = d s) {j : ℕ}
    (hj : (j : ℤ) < h.numBytes) : OpenFile.content d' h j = OpenFile.content d h j := by
  have hbytes := hv.bytes_le
  rw [OpenFile.content, OpenFile.content, hs]
  apply FileHeader.mem_sectors
  rw [sectorSize] at *
  omega

theorem mapOn_frame (hv : h.Valid) (hn : h.numBytes = freeMapFileSize)
    (hs : ∀ s ∈ h.sectors, d' s = d s) : SameMap (mapOn h d) (mapOn h d') :=
  SameMap.of_agree fun j hj => content_congr hv hs (by omega)

theorem dirOn_frame (hv : h.Valid) (hn : h.numBytes = directoryFileSize)
    (hs : ∀ s ∈ h.sectors, d' s = d s) : SameTable (dirOn h d) (dirOn h d') := by
  refine ⟨rfl, fun j hj => content_congr hv hs ?_⟩
  rw [hn]
  exact Int.ofNat_lt.mpr hj

theorem fetchMap_eq (junk : ℕ → BitVec 32) (buf : Mem) (hv : f.hdr.Valid)
    (hn : f.hdr.numBytes = freeMapFileSize) :
    ∃ m, (BitMap.new numSectors junk).fetchFrom d f buf = some m ∧ SameMap (mapOn f.hdr d) m := by
  have hbits := (BitMap.bit_new numSectors junk (i := 0) (by decide)).1
  have hwords : (BitMap.new numSectors junk).numWords * 4 = freeMapFileSize := by
    rw [BitMap.numWords, hbits]
    rfl
  generalize BitMap.new numSectors junk = m at hbits hwords
  rw [BitMap.fetchFrom, hwords, OpenFile.readAt_start hv hn.ge]
  refine ⟨_, rfl, SameMap.of_words hbits fun k hk => ?_⟩
  apply Mem.word_congr
  intro i hi
  have hnum : (mapOn f.hdr d).numBits = 1024 := rfl
  exact Mem.agree_copy _ (by rw [show freeMapFileSize = 128 from rfl]; omega)

theorem fetchDir_eq (junk buf : Mem) (hv : f.hdr.Valid) (hn : f.hdr.numBytes = directoryFileSize) :
    ∃ dir, (Directory.new numDirEntries junk).fetchFrom d f buf = some dir ∧
      SameTable (dirOn f.hdr d) dir := by
  have hsize := Directory.tableSize_new numDirEntries junk
  have hbytes : numDirEntries * Directory.entrySize = directoryFileSize := rfl
  rw [Directory.fetchFrom, hsize, hbytes, OpenFile.readAt_start hv hn.ge]
  exact ⟨_, rfl, hsize, Mem.agree_copy⟩

theorem writeMap_eq (garbage buf : Mem) (hv : f.hdr.Valid) (hnodup : f.hdr.sectors.Nodup)
    (hn : f.hdr.numBytes = freeMapFileSize) (hm : m.numBits = numSectors) :
    ∃ d', m.writeBack d f garbage buf = some d' ∧ (∀ s, s ∉ f.hdr.sectors → d' s = d s) ∧
      SameMap m (mapOn f.hdr d') := by
  have hwords : m.numWords = 32 := by
    rw [BitMap.numWords, hm]
    rfl
  obtain ⟨d', hd, hframe, hagree⟩ := OpenFile.writeAt_start (d := d) (n := 32 * 4) garbage buf
    m.image hv hnodup hn.ge
  rw [BitMap.writeBack, hwords, hd]
  refine ⟨d', rfl, hframe, SameMap.of_words hm.symm fun k hk => ?_⟩
  rw [hm, show numSectors = 1024 from rfl] at hk
  rw [← Mem.word_image m.map k]
  apply Mem.word_congr
  intro i hi
  exact hagree _ (by omega)

theorem writeDir_eq (garbage buf : Mem) (hv : f.hdr.Valid) (hnodup : f.hdr.sectors.Nodup)
    (hn : f.hdr.numBytes = directoryFileSize) (hdir : dir.tableSize = numDirEntries) :
    ∃ d', dir.writeBack d f garbage buf = some d' ∧ (∀ s, s ∉ f.hdr.sectors → d' s = d s) ∧
      SameTable dir (dirOn f.hdr d') := by
  obtain ⟨d', hd, hframe, hagree⟩ := OpenFile.writeAt_start (d := d)
    (n := numDirEntries * Directory.entrySize) garbage buf dir.table hv hnodup hn.ge
  rw [Directory.writeBack, hdir, hd]
  refine ⟨d', rfl, hframe, hdir.symm, ?_⟩
  rwa [hdir]

end FileSystem
end Coursework.Nachos
