import Coursework.Nachos.FileSystem.Store.Names

/-!
# Starting on a disk that is formatted

The constructor reads the headers of the two files again, and everything else is on the disk.
-/
namespace Coursework.Nachos
open Disk FileHeader

namespace FileSystem
variable {fs fs' : FileSystem} {d : Disk} {h h' : FileHeader} {i : ℕ}

theorem SameMap.of_same (hs : h.Same h') (hv : h.Valid) (hn : h.numBytes = freeMapFileSize) :
    SameMap (mapOn h d) (mapOn h' d) := by
  refine SameMap.of_words rfl fun k hk => Mem.word_congr fun i hi => content_same hs hv ?_
  have hbits : (mapOn h d).numBits = 1024 := rfl
  rw [hn, show freeMapFileSize = 128 from rfl]
  omega

theorem SameTable.of_same (hs : h.Same h') (hv : h.Valid) (hn : h.numBytes = directoryFileSize) :
    SameTable (dirOn h d) (dirOn h' d) := by
  refine ⟨rfl, fun k hk => content_same hs hv ?_⟩
  rw [hn]
  exact Int.ofNat_lt.mpr hk

/-- A file system with the same two files open. -/
structure Remounts (fs fs' : FileSystem) (d : Disk) : Prop where
  mounted : Mounted fs' d
  dir : SameDir (fs.dir d) (fs'.dir d)
  map : SameMap (fs.map d) (fs'.map d)

theorem Mounted.mount (hm : Mounted fs d) (junk : Junk) :
    ∃ fs', mount junk d = some fs' ∧ Remounts fs fs' d := by
  obtain ⟨mapHdr, hmap, hmapSame⟩ := (junk.hdr 0).fetchFrom_eq (d := d) (s := freeMapSector)
    (by decide) (hm.mapHdr.symm.valid hm.mapValid).sectors_le
  obtain ⟨dirHdr, hdir, hdirSame⟩ := (junk.hdr 1).fetchFrom_eq (d := d) (s := directorySector)
    (by decide) (hm.dirHdr.symm.valid hm.dirValid).sectors_le
  have hmapFile : fs.freeMapFile.hdr.Same mapHdr := hm.mapHdr.trans hmapSame.symm
  have hdirFile : fs.directoryFile.hdr.Same dirHdr := hm.dirHdr.trans hdirSame.symm
  have hsameDir : SameDir (dirOn fs.directoryFile.hdr d) (dirOn dirHdr d) :=
    (SameTable.of_same hdirFile hm.dirValid hm.dirBytes).sameDir
  have hsameMap : SameMap (mapOn fs.freeMapFile.hdr d) (mapOn mapHdr d) :=
    SameMap.of_same hmapFile hm.mapValid hm.mapBytes
  refine ⟨⟨⟨mapHdr, 0⟩, ⟨dirHdr, 0⟩⟩, ?_, ?_, hsameDir, hsameMap⟩
  · rw [FileSystem.mount, OpenFile.new, OpenFile.new, hmap, hdir]
    rfl
  constructor
  · exact hmapSame
  · exact hmapFile.symm.valid hm.mapValid
  · exact hmapFile.numBytes.symm.trans hm.mapBytes
  · exact hdirSame
  · exact hdirFile.symm.valid hm.dirValid
  · exact hdirFile.numBytes.symm.trans hm.dirBytes
  · apply hm.allotted.congr hsameMap.marked
    intro o
    cases o with
    | none =>
      rw [blocks_none, blocks_none, sysSectors, sysSectors, hmapFile.sectors, hdirFile.sectors]
    | some j =>
      exact blocks_congr hsameDir.tableSize (hsameDir.entry j) fun _ _ => rfl
  · intro i hi huse
    have hentry := hsameDir.entry i hi
    have hsector : (dirOn dirHdr d).sector i = (fs.dir d).sector i := hentry.sector
    change (onDisk d ((dirOn dirHdr d).sector i)).Valid
    rw [hsector]
    exact hm.valid i hi (hentry.inUse.symm.trans huse)
  · intro i hi j hj huse huse' heq
    have hentry := hsameDir.entry i hi
    have hentry' := hsameDir.entry j hj
    exact hm.names i hi j hj (hentry.inUse.symm.trans huse) (hentry'.inUse.symm.trans huse')
      (hentry.fileName.symm.trans (heq.trans hentry'.fileName))

end FileSystem

namespace Session
open FileSystem

variable {s : Session} {st : Store} {junk : Junk}

theorem answers_mount (hs : Shows s st) : s.Answers st (.mount junk) := by
  obtain ⟨fs', hmount, hmounted, hdir, hmap⟩ := hs.inv.mounted.mount junk
  have hstays (i : ℕ) (hi : i < numDirEntries) : s.Stays { s with fs := fs', handles := [] } i :=
    ⟨hdir.entry i hi, rfl, rfl⟩
  have hold {i : ℕ} (hi : i < numDirEntries) (huse : (fs'.dir s.disk).inUse i = true) :
      s.dir.inUse i = true := (hdir.entry i hi).inUse.symm.trans huse
  have hsector {i : ℕ} (hi : i < numDirEntries) : (fs'.dir s.disk).sector i = s.dir.sector i :=
    (hdir.entry i hi).sector
  refine ⟨{ s with fs := fs', handles := [] }, .done, _, ?_, .mount,
    ⟨hmounted, ?_, ?_, nofun⟩, ?_, ?_, ?_, .nil⟩
  · simp [call, hmount]
  · intro i hi huse
    change s.files ((fs'.dir s.disk).sector i) < s.created
    rw [hsector hi]
    exact hs.inv.file_lt i hi (hold hi huse)
  · intro i hi j hj huse huse' heq
    change s.files ((fs'.dir s.disk).sector i) = s.files ((fs'.dir s.disk).sector j) at heq
    rw [hsector hi, hsector hj] at heq
    exact hs.inv.file_inj i hi j hj (hold hi huse) (hold hj huse') heq
  · exact hs.files.congr fun i hi => slot_stays (hstays i hi).entry fun _ => rfl
  · intro i hi huse
    have hsize := hs.sectors i hi (hold hi huse)
    rw [← hsector hi] at hsize
    exact hsize
  · exact hmap.numClear.trans hs.free

end Session
end Coursework.Nachos
