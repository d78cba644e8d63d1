import Coursework.Nachos.FileSystem.Store
import Coursework.Nachos.FileSystem.Store.Room

/-!
# What a session shows of the store

The entries in use represent the files of the store, the clear bits of the map are its free sectors,
and a handle whose file has not been removed is for the entry with the name.
-/
namespace Coursework.Nachos.Session
open Disk FileHeader FileSystem

/-- The name and the bytes of an entry in use. -/
def slot (s : Session) (i : ℕ) : Option (List UInt8 × List UInt8) :=
  if s.dir.inUse i then
    some (Directory.key (s.dir.name i), contents s.disk (s.dir.sector i))
  else none

/-- The handle is for the file in an entry. -/
structure OpensAt (s : Session) (h : Handle) (name : List UInt8) (i : ℕ) : Prop where
  entry_lt : i < numDirEntries
  inUse : s.dir.inUse i = true
  name : Directory.key (s.dir.name i) = name
  file : s.files (s.dir.sector i) = h.file

structure HandleShows (s : Session) (h : Handle) (g : StoreHandle) : Prop where
  position : h.openFile.seekPosition = g.position
  opens : ∀ name, g.name = some name → ∃ i, s.OpensAt h name i

structure Shows (s : Session) (st : Store) : Prop where
  inv : s.Inv
  files : BoundedMap.Represents numDirEntries s.slot st.files
  sectors : ∀ i < numDirEntries, s.dir.inUse i = true →
    (onDisk s.disk (s.dir.sector i)).numSectors =
      divRoundUp (onDisk s.disk (s.dir.sector i)).numBytes sectorSize
  free : (s.fs.map s.disk).numClear = st.free
  handles : List.Forall₂ s.HandleShows s.handles st.handles

/-- An entry is as it was, but perhaps for the bytes of the file. -/
structure Stays (s s' : Session) (i : ℕ) : Prop where
  entry : Directory.SameEntry s.dir s'.dir i
  file : s'.files (s.dir.sector i) = s.files (s.dir.sector i)
  header : onDisk s'.disk (s.dir.sector i) = onDisk s.disk (s.dir.sector i)

variable {s s' : Session} {st st' : Store} {h : Handle} {g : StoreHandle} {i : ℕ}
  {name : List UInt8} {d' : Disk} {size : ℤ}

theorem slot_of_free (huse : s.dir.inUse i = false) : s.slot i = none :=
  if_neg (Bool.eq_false_iff.mp huse)

theorem slot_of_used (huse : s.dir.inUse i = true) :
    s.slot i = some (Directory.key (s.dir.name i), contents s.disk (s.dir.sector i)) :=
  if_pos huse

theorem isSome_slot : (s.slot i).isSome ↔ s.dir.inUse i = true := by
  cases huse : s.dir.inUse i with
  | false => simp [slot_of_free huse]
  | true => simp [slot_of_used huse]

theorem contents_length (d : Disk) (x : ℤ) :
    (contents d x).length = (onDisk d x).numBytes.toNat := by
  rw [contents, List.length_map, List.length_range]

/-! ### Entries that stay -/

theorem slot_stays (hentry : Directory.SameEntry s.dir s'.dir i)
    (hcontents : s.dir.inUse i = true →
      contents s'.disk (s.dir.sector i) = contents s.disk (s.dir.sector i)) :
    s'.slot i = s.slot i := by
  cases huse : s.dir.inUse i with
  | false => rw [slot_of_free huse, slot_of_free (hentry.inUse.trans huse)]
  | true =>
    rw [slot_of_used huse, slot_of_used (hentry.inUse.trans huse), hentry.key_eq, hentry.sector,
      hcontents huse]

theorem OpensAt.stays (ho : s.OpensAt h name i) (hs : s.Stays s' i) : s'.OpensAt h name i where
  entry_lt := ho.entry_lt
  inUse := hs.entry.inUse.trans ho.inUse
  name := hs.entry.key_eq.trans ho.name
  file := by
    rw [hs.entry.sector, hs.file]
    exact ho.file

theorem HandleShows.stays (hh : s.HandleShows h g)
    (hs : ∀ i < numDirEntries, s.dir.inUse i = true → s.Stays s' i) : s'.HandleShows h g where
  position := hh.position
  opens name hname := by
    obtain ⟨i, ho⟩ := hh.opens name hname
    exact ⟨i, ho.stays (hs i ho.entry_lt ho.inUse)⟩

/-! ### What the store says of the session -/

namespace Shows

theorem mem_files (hs : Shows s st) :
    name ∈ st.files ↔
      ∃ i < numDirEntries, s.dir.inUse i = true ∧ Directory.key (s.dir.name i) = name := by
  constructor
  · intro hmem
    obtain ⟨bytes, hlookup⟩ := Finmap.mem_iff.mp hmem
    obtain ⟨i, hi, hslot⟩ := (hs.files.lookup _ _).mp hlookup
    have huse := isSome_slot.mp (Option.isSome_iff_exists.mpr ⟨_, hslot⟩)
    rw [slot_of_used huse] at hslot
    exact ⟨i, hi, huse, (Prod.mk.inj (Option.some.inj hslot)).1⟩
  · rintro ⟨i, hi, huse, rfl⟩
    exact hs.files.mem_of_slot hi (slot_of_used huse)

theorem lookup_files (hs : Shows s st) (hi : i < numDirEntries) (huse : s.dir.inUse i = true)
    (hname : Directory.key (s.dir.name i) = name) :
    st.files.lookup name = some (contents s.disk (s.dir.sector i)) :=
  hs.files.lookup_of_slot hi (hname ▸ slot_of_used huse)

theorem inDirectory_iff (hs : Shows s st) {name : Mem} :
    InDirectory s.fs s.disk name ↔ Directory.key name ∈ st.files := by
  rw [hs.mem_files, InDirectory]
  simp only [SameName, Mem.strncmp_eq_zero_iff_text]
  exact Iff.rfl

theorem refuses_iff (hs : Shows s st) {name : Mem} (hpos : 0 ≤ size) :
    st.Refuses (Directory.key name) size ↔ CreateFails s.fs s.disk name size := by
  have hfull : numDirEntries ≤ st.files.keys.card ↔
      ∀ i < numDirEntries, (s.fs.dir s.disk).inUse i = true := by
    rw [hs.files.full_iff]
    exact forall₂_congr fun i _ => isSome_slot
  rw [Store.Refuses, CreateFails, hs.inDirectory_iff, hfull, hs.free, Store.sectors]
  constructor
  · rintro (hname | hfull | hfew)
    · exact .inl hname
    · exact .inr (.inr (.inl hfull))
    · exact .inr (.inr (.inr (by omega)))
  · rintro (hname | hnone | hfull | hfew)
    · exact .inl hname
    · exact .inr (.inr (by omega))
    · exact .inr (.inl hfull)
    · exact .inr (.inr (by omega))

end Shows
end Coursework.Nachos.Session
