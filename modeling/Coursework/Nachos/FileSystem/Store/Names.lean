import Coursework.Nachos.FileSystem.Store.Shows

/-!
# `Create`, `Remove` and `Open` as the store answers them
-/
namespace Coursework.Nachos.Session
open Disk FileHeader FileSystem

variable {s s' : Session} {st st' : Store} {i : ℕ} {name : Mem} {d' : Disk} {size x : ℤ}
  {hdr : FileHeader} {junk : Junk}

/-- An answer of the session that the store may give. -/
def Answers (s : Session) (st : Store) (c : FileCall) : Prop :=
  ∃ s' r st', s.call c = some (s', r) ∧ Store.Step st c r st' ∧ Shows s' st'

/-! ### Creating -/

section Created
variable (hc : Created s.fs s.disk name size d' i x hdr)

/-- The session after `Create`. -/
def afterCreate (s : Session) (name : Mem) (d' : Disk) : Session :=
  { s with
    disk := d'
    files := Function.update s.files ((s.fs.dir d').find name) s.created
    created := s.created + 1 }

include hc

theorem stays_create (hi : s.Inv) {j : ℕ} (hj : j < numDirEntries) (huse : s.dir.inUse j = true) :
    s.Stays (s.afterCreate name d') j := by
  have hji : j ≠ i := by
    rintro rfl
    exact absurd (hc.entry_free.symm.trans huse) (by decide)
  refine ⟨hc.other j hj hji, ?_, hc.stored.header_eq hi.mounted.rooted hj huse⟩
  have hfind : (s.fs.dir d').find name = x := hc.find_eq hi.mounted
  rw [afterCreate, hfind]
  exact Function.update_of_ne
    (hc.stored.sector_ne (hi.mounted.rooted.marked_file hj huse List.mem_cons_self)) _ _

theorem slot_create (hi : s.Inv) {j : ℕ} (hj : j < numDirEntries) (hji : j ≠ i) :
    (s.afterCreate name d').slot j = s.slot j :=
  slot_stays (hc.other j hj hji) fun huse =>
    contents_congr (hi.mounted.valid j hj huse)
      (hc.stored.frame_file hi.mounted.rooted hj huse List.mem_cons_self)
      fun _ hy => hc.stored.frame_file hi.mounted.rooted hj huse (.tail _ hy)

end Created

theorem answers_create (hs : Shows s st) (hpos : 0 ≤ size) (hmax : size ≤ maxFileSize) :
    s.Answers st (.create junk name size) := by
  have hm := hs.inv.mounted
  have hfalse := hm.rooted.create_false_iff junk name size
  rw [← hs.refuses_iff hpos] at hfalse
  rcases hm.rooted.create_cases junk name hpos hmax with ⟨hc, -⟩ | ⟨d', i, x, hdr, hc, hcreated⟩
  · refine ⟨s, .bool false, st, ?_, .refuse (hfalse.mp ⟨_, hc⟩), hs⟩
    simp [call, step, hc]
  · have hroom : ¬ st.Refuses (Directory.key name) size := by
      intro hrefuses
      obtain ⟨d'', hd''⟩ := hfalse.mpr hrefuses
      rw [hc] at hd''
      cases hd''
    have hheader : (onDisk d' x).numBytes = size := hcreated.header.numBytes.trans hcreated.numBytes
    have hlen : ((contents d' x).length : ℤ) = size := by
      rw [contents_length, hheader]
      omega
    have hcount := hcreated.numClear
    have hnum : hdr.numSectors = (size + 127) / 128 :=
      hcreated.numSectors.trans (divRoundUp_eq size)
    have hstep : s.step (.create junk name size) = some (s.afterCreate name d') := by
      simp [step, hc, afterCreate]
    have hinv : (s.afterCreate name d').Inv :=
      inv_step hs.inv (e := .create junk name size) ⟨hpos, hmax⟩
        (fun _ _ _ haim => by cases haim) hstep
    have hsector : (s.afterCreate name d').dir.sector i = x := hcreated.sector
    have hused : (s.afterCreate name d').dir.inUse i = true := hcreated.inUse
    have hkey : Directory.key ((s.afterCreate name d').dir.name i) = Directory.key name :=
      Directory.key_eq_iff.mpr hcreated.fileName
    refine ⟨s.afterCreate name d', .bool true, _, ?_, .create hroom hlen, hinv, ?_, ?_, ?_, ?_⟩
    · simp [call, hc, hstep]
    · apply hs.files.insert hcreated.entry_lt (slot_of_free hcreated.entry_free)
        (fun hmem => hroom (.inl hmem)) _ fun j hj hji => slot_create hcreated hs.inv hj hji
      rw [slot_of_used hused, hkey, hsector]
      rfl
    · intro j hj huse
      rcases hcreated.stored.used_cases hj huse with rfl | ⟨hji, hold⟩
      · rw [hsector]
        change (onDisk d' x).numSectors = divRoundUp (onDisk d' x).numBytes sectorSize
        rw [hheader, hcreated.header.numSectors, hcreated.numSectors]
      · have hstays := stays_create hcreated hs.inv hj hold
        rw [hstays.entry.sector, hstays.header]
        exact hs.sectors j hj hold
    · have hfree := hs.free
      change (s.fs.map d').numClear = st.free - Store.sectors size
      rw [Store.sectors]
      rw [hnum] at hcount
      omega
    · exact hs.handles.imp fun h g hh => hh.stays fun j hj huse =>
        stays_create hcreated hs.inv hj huse

/-! ### Removing -/

section Removed
variable (hr : Removed s.fs s.disk name d' i)
include hr

theorem stays_remove (hi : s.Inv) {j : ℕ} (hj : j < numDirEntries) (hji : j ≠ i)
    (huse : s.dir.inUse j = true) : s.Stays { s with disk := d' } j :=
  ⟨hr.other j hj hji, rfl, hr.header_eq hi.mounted.rooted hj huse⟩

theorem slot_remove (hi : s.Inv) {j : ℕ} (hj : j < numDirEntries) (hji : j ≠ i) :
    ({ s with disk := d' } : Session).slot j = s.slot j :=
  slot_stays (hr.other j hj hji) fun huse =>
    contents_congr (hi.mounted.valid j hj huse)
      (hr.frame_file hi.mounted.rooted hj huse List.mem_cons_self)
      fun _ hy => hr.frame_file hi.mounted.rooted hj huse (.tail _ hy)

/-- The handles of the removed file are not used any more. -/
theorem handleShows_remove (hi : s.Inv) {h : Handle} {g : StoreHandle} (hh : s.HandleShows h g) :
    ({ s with disk := d' } : Session).HandleShows h (Store.close (Directory.key name) g) := by
  rw [Store.close]
  split_ifs with hname
  · exact ⟨hh.position, fun _ hnone => by cases hnone⟩
  · refine ⟨hh.position, fun other hother => ?_⟩
    obtain ⟨j, ho⟩ := hh.opens other hother
    have hji : j ≠ i := by
      rintro rfl
      exact hname (hother.trans (congrArg some (ho.name.symm.trans
        (Directory.key_eq_iff.mpr hr.fileName))))
    exact ⟨j, ho.stays (stays_remove hr hi ho.entry_lt hji ho.inUse)⟩

end Removed

theorem answers_remove (hs : Shows s st) : s.Answers st (.remove junk name) := by
  have hm := hs.inv.mounted
  rcases hm.rooted.remove_cases junk name with ⟨hr, habs⟩ | ⟨d', i, hr, hremoved⟩
  · have hmem : Directory.key name ∉ st.files := by
      rw [← hs.inDirectory_iff, inDirectory_iff, not_not]
      exact habs
    refine ⟨s, .bool false, st, ?_, .removeAbsent hmem, hs⟩
    simp [call, step, hr]
  · have hkey : Directory.key (s.dir.name i) = Directory.key name :=
      Directory.key_eq_iff.mpr hremoved.fileName
    have huse : s.dir.inUse i = true := hremoved.entry_used
    have hlookup := hs.lookup_files hremoved.entry_lt huse hkey
    have hstep : s.step (.remove junk name) = some { s with disk := d' } := by
      simp [step, hr]
    have hinv := inv_step hs.inv (e := .remove junk name) trivial (fun _ _ _ haim => by cases haim)
      hstep
    refine ⟨{ s with disk := d' }, .bool true, _, ?_, .remove hlookup, hinv, ?_, ?_, ?_, ?_⟩
    · simp [call, hr, hstep]
    · exact hs.files.erase hremoved.entry_lt (hkey ▸ slot_of_used huse)
        (slot_of_free hremoved.inUse) fun j hj hji => slot_remove hremoved hs.inv hj hji
    · intro j hj huse'
      obtain ⟨hji, hold⟩ := hremoved.used_cases hj huse'
      have hstays := stays_remove hremoved hs.inv hj hji hold
      rw [hstays.entry.sector, hstays.header]
      exact hs.sectors j hj hold
    · have hnum := hs.sectors i hremoved.entry_lt huse
      have hnonneg : 0 ≤ (onDisk s.disk (s.dir.sector i)).numBytes :=
        (hm.valid i hremoved.entry_lt huse).numBytes_nonneg
      refine (hremoved.numClear hm.rooted).trans ?_
      rw [hs.free]
      change st.free + (1 + (onDisk s.disk (s.dir.sector i)).numSectors.toNat) = st.free +
        Store.sectors (contents s.disk (s.dir.sector i)).length
      rw [hnum, divRoundUp_eq, contents_length, Store.sectors, Int.toNat_of_nonneg hnonneg]
    · exact List.forall₂_map_right_iff.mpr
        (hs.handles.imp fun h g hh => handleShows_remove hremoved hs.inv hh)

/-! ### Opening -/

theorem answers_open (hs : Shows s st) : s.Answers st (.openFile junk name) := by
  have hm := hs.inv.mounted
  by_cases hmem : Directory.key name ∈ st.files
  · obtain ⟨i, hi, huse, hkey⟩ := hs.mem_files.mp hmem
    have hname := Directory.key_eq_iff.mp hkey
    obtain ⟨hdr, ho, hsame⟩ := hm.rooted.open_of_entry junk hi huse hname
    have hfind : s.dir.find name = s.dir.sector i := hm.rooted.find_of_entry hi huse hname
    have hstep : s.step (.openFile junk name) =
        some { s with handles := s.handles ++ [⟨s.files (s.dir.sector i), ⟨hdr, 0⟩⟩] } := by
      simp [step, ho, hfind]
    have hinv := inv_step hs.inv (e := .openFile junk name) trivial
      (fun _ _ _ haim => by cases haim) hstep
    refine ⟨_, .bool true, _, ?_, .openFile hmem, hinv, hs.files, hs.sectors, hs.free, ?_⟩
    · simp [call, ho, hstep]
    · apply List.rel_append
      · exact hs.handles.imp fun h g hh => ⟨hh.position, fun other hother => by
          obtain ⟨j, ho⟩ := hh.opens other hother
          exact ⟨j, ho.entry_lt, ho.inUse, ho.name, ho.file⟩⟩
      · refine .cons ⟨rfl, fun other hother => ?_⟩ .nil
        cases hother
        exact ⟨i, hi, huse, hkey, rfl⟩
  · have hnone : s.fs.openFile junk s.disk name = some none := by
      rcases hm.rooted.open_cases junk name with ⟨i, f, -, hi, huse, hname, -⟩ | ⟨ho, -⟩
      · exact absurd (hs.mem_files.mpr ⟨i, hi, huse, Directory.key_eq_iff.mpr hname⟩) hmem
      · exact ho
    refine ⟨s, .bool false, st, ?_, .openAbsent hmem, hs⟩
    simp [call, step, hnone]

end Coursework.Nachos.Session
