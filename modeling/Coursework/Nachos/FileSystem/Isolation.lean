import Coursework.Nachos.FileSystem.Consistent

/-!
# Open files and the files of others

An open file keeps the header that it read when it was opened. While its name is in the
directory no other file has its sectors. After `Remove` the sectors are free, and the next file
that gets them is written through the old handle too.
-/
namespace Coursework.Nachos
open Disk FileHeader

/-- What `Open` returned, and which file that was. -/
structure Handle where
  file : ℕ
  openFile : OpenFile

/-- A mounted file system and the handles that were opened in it. Files are numbered in the order
of their creation, and `files` is the file that has its header in a sector. -/
structure Session where
  fs : FileSystem
  disk : Disk
  files : ℤ → ℕ
  created : ℕ
  handles : List Handle

namespace Session

inductive Event where
  | create (junk : Junk) (name : Mem) (initialSize : ℤ)
  | remove (junk : Junk) (name : Mem)
  | openFile (junk : Junk) (name : Mem)
  | writeAt (handle : ℕ) (garbage buf src : Mem) (numBytes position : ℤ)
  | write (handle : ℕ) (garbage buf src : Mem) (numBytes : ℤ)

/-- The size of a new file is one that a file can have. -/
def Event.InRange : Event → Prop
  | .create _ _ initialSize => 0 ≤ initialSize ∧ initialSize ≤ maxFileSize
  | _ => True

/-- The directory on the disk. -/
def dir (s : Session) : Directory := s.fs.dir s.disk

def step (s : Session) : Event → Option Session
  | .create junk name initialSize => do
    let (ok, disk) ← s.fs.create junk s.disk name initialSize
    if ok then
      some { s with
        disk := disk
        files := Function.update s.files ((s.fs.dir disk).find name) s.created
        created := s.created + 1 }
    else some { s with disk := disk }
  | .remove junk name => do
    let (_, disk) ← s.fs.remove junk s.disk name
    some { s with disk := disk }
  | .openFile junk name => do
    let result ← s.fs.openFile junk s.disk name
    match result with
    | some f => some { s with handles := s.handles ++ [⟨s.files (s.dir.find name), f⟩] }
    | none => some s
  | .writeAt handle garbage buf src numBytes position => do
    let h ← s.handles[handle]?
    let (disk, _) ← h.openFile.writeAt s.disk garbage buf src numBytes position
    some { s with disk := disk }
  | .write handle garbage buf src numBytes => do
    let h ← s.handles[handle]?
    let (f, disk, _) ← h.openFile.write s.disk garbage buf src numBytes
    some { s with
      disk := disk
      handles := s.handles.set handle { h with openFile := f } }

/-- Sessions start with a formatted disk. -/
def machine : Machine Session Event where
  init s := (∃ junk d, FileSystem.format junk d = some (s.fs, s.disk)) ∧ s.handles = []
  step := step

/-- The handle, the number of bytes and the position of a write. -/
def aim (s : Session) : Event → Option (Handle × ℤ × ℤ)
  | .writeAt handle _ _ _ numBytes position =>
    s.handles[handle]?.map fun h => (h, numBytes, position)
  | .write handle _ _ _ numBytes =>
    s.handles[handle]?.map fun h => (h, numBytes, h.openFile.seekPosition)
  | _ => none

/-- The bytes of the file whose header is in sector `x`. -/
def contents (d : Disk) (x : ℤ) : List UInt8 :=
  (List.range (onDisk d x).numBytes.toNat).map (OpenFile.content d (onDisk d x))

/-- The file is in the directory. -/
def Present (s : Session) (file : ℕ) : Prop :=
  ∃ i < FileSystem.numDirEntries, s.dir.inUse i = true ∧ s.files (s.dir.sector i) = file

/-- A write goes through a handle for a file that is in the directory, or to sectors that are
free. -/
def Harmless (s : Session) (e : Event) : Prop :=
  ∀ h numBytes position, s.aim e = some (h, numBytes, position) →
    s.Present h.file ∨
      ∀ x ∈ h.openFile.touched numBytes position, ¬ (s.fs.map s.disk).Marked x

/-- The bytes of the map, of the directory and of every file but `file` are the same. -/
structure Untouched (s s' : Session) (file : ℕ) : Prop where
  map : contents s'.disk FileSystem.freeMapSector = contents s.disk FileSystem.freeMapSector
  dir : contents s'.disk FileSystem.directorySector = contents s.disk FileSystem.directorySector
  other : ∀ i < FileSystem.numDirEntries, s.dir.inUse i = true →
    s.files (s.dir.sector i) ≠ file →
    contents s'.disk (s.dir.sector i) = contents s.disk (s.dir.sector i)

/-- What is known of a handle: its header is that of its file, as long as that is in the
directory. -/
structure HandleOk (s : Session) (h : Handle) : Prop where
  valid : h.openFile.hdr.Valid
  nodup : h.openFile.hdr.sectors.Nodup
  file_lt : h.file < s.created
  header : ∀ i < FileSystem.numDirEntries, s.dir.inUse i = true →
    s.files (s.dir.sector i) = h.file → h.openFile.hdr.Same (onDisk s.disk (s.dir.sector i))

structure Inv (s : Session) : Prop where
  mounted : FileSystem.Mounted s.fs s.disk
  file_lt : ∀ i < FileSystem.numDirEntries, s.dir.inUse i = true →
    s.files (s.dir.sector i) < s.created
  file_inj : ∀ i < FileSystem.numDirEntries, ∀ j < FileSystem.numDirEntries,
    s.dir.inUse i = true → s.dir.inUse j = true →
    s.files (s.dir.sector i) = s.files (s.dir.sector j) → i = j
  handles : ∀ h ∈ s.handles, s.HandleOk h

variable {s s' : Session} {e : Event} {h : Handle} {numBytes position : ℤ} {d' : Disk} {i : ℕ}
  {file : ℕ}

/-- Sectors that a write through a handle for `file` leaves alone. -/
structure Kept (s : Session) (file : ℕ) (d' : Disk) : Prop where
  sys : ∀ x ∈ s.fs.sysSectors, d' x = s.disk x
  header : ∀ i < FileSystem.numDirEntries, s.dir.inUse i = true →
    d' (s.dir.sector i) = s.disk (s.dir.sector i)
  data : ∀ i < FileSystem.numDirEntries, s.dir.inUse i = true →
    s.files (s.dir.sector i) ≠ file → ∀ x ∈ (onDisk s.disk (s.dir.sector i)).sectors,
      d' x = s.disk x

/-! ### Contents and sectors -/

theorem contents_congr {d : Disk} {x : ℤ} (hv : (onDisk d x).Valid) (hx : d' x = d x)
    (hs : ∀ y ∈ (onDisk d x).sectors, d' y = d y) : contents d' x = contents d x := by
  have hheader : onDisk d' x = onDisk d x := by rw [onDisk, onDisk, hx]
  rw [contents, contents, hheader]
  apply List.map_congr_left
  intro j hj
  have hlt := List.mem_range.mp hj
  exact FileSystem.content_congr hv hs (by omega)

/-- Nothing that is kept changes. -/
theorem Kept.untouched (hk : s.Kept file d') (hi : s.Inv) :
    s.Untouched { s with disk := d' } file := by
  have hm := hi.mounted
  have hmapMem : FileSystem.freeMapSector ∈ s.fs.sysSectors := List.mem_cons_self
  have hdirMem : FileSystem.directorySector ∈ s.fs.sysSectors := .tail _ List.mem_cons_self
  refine ⟨?_, ?_, fun i hlt huse hne => ?_⟩
  · apply contents_congr (hm.mapHdr.symm.valid hm.mapValid) (hk.sys _ hmapMem)
    intro y hy
    rw [← hm.mapHdr.sectors] at hy
    exact hk.sys y (FileSystem.Rooted.mem_sys_map hy)
  · apply contents_congr (hm.dirHdr.symm.valid hm.dirValid) (hk.sys _ hdirMem)
    intro y hy
    rw [← hm.dirHdr.sectors] at hy
    exact hk.sys y (FileSystem.Rooted.mem_sys_dir hy)
  · exact contents_congr (hm.valid i hlt huse) (hk.header i hlt huse) (hk.data i hlt huse hne)

/-! ### Old entries of the directory and a new one -/

/-- An entry of the directory that an operation leaves as it was. -/
structure Old (s s' : Session) (i : ℕ) : Prop where
  inUse : s.dir.inUse i = true
  sector : s'.dir.sector i = s.dir.sector i
  file : s'.files (s.dir.sector i) = s.files (s.dir.sector i)
  header : onDisk s'.disk (s.dir.sector i) = onDisk s.disk (s.dir.sector i)

/-- Every entry is old, but `n` may be that of the last file created. -/
structure Entries (s s' : Session) (n : ℕ) : Prop where
  mounted : FileSystem.Mounted s'.fs s'.disk
  created_le : s.created ≤ s'.created
  entry : ∀ i < FileSystem.numDirEntries, s'.dir.inUse i = true →
    s.Old s' i ∨ i = n ∧ s'.files (s'.dir.sector i) = s.created ∧ s.created < s'.created

variable {n : ℕ}

theorem Entries.handleOk (he : s.Entries s' n) (hh : s.HandleOk h) : s'.HandleOk h where
  valid := hh.valid
  nodup := hh.nodup
  file_lt := hh.file_lt.trans_le he.created_le
  header i hi huse heq := by
    rcases he.entry i hi huse with hold | ⟨-, hnew, -⟩
    · rw [hold.sector, hold.file] at heq
      rw [hold.sector, hold.header]
      exact hh.header i hi hold.inUse heq
    · have hlt := hh.file_lt
      omega

theorem Entries.inv (he : s.Entries s' n) (hi : s.Inv) (hh : ∀ h ∈ s'.handles, s'.HandleOk h) :
    s'.Inv where
  mounted := he.mounted
  file_lt i hlt huse := by
    rcases he.entry i hlt huse with hold | ⟨-, hnew, hcreated⟩
    · rw [hold.sector, hold.file]
      exact (hi.file_lt i hlt hold.inUse).trans_le he.created_le
    · omega
  file_inj i hlt j hlt' huse huse' heq := by
    rcases he.entry i hlt huse with hold | ⟨rfl, hnew, -⟩
    · have hfile := hi.file_lt i hlt hold.inUse
      rcases he.entry j hlt' huse' with hold' | ⟨-, hnew, -⟩
      · rw [hold.sector, hold.file, hold'.sector, hold'.file] at heq
        exact hi.file_inj i hlt j hlt' hold.inUse hold'.inUse heq
      · rw [hold.sector, hold.file, hnew] at heq
        omega
    · rcases he.entry j hlt' huse' with hold' | ⟨rfl, -, -⟩
      · have hfile := hi.file_lt j hlt' hold'.inUse
        rw [hold'.sector, hold'.file, hnew] at heq
        omega
      · rfl
  handles := hh

/-! ### Creating, removing and opening files -/

theorem entries_create {name : Mem} {size x : ℤ} {hdr : FileHeader} (hi : s.Inv)
    (hc : FileSystem.Created s.fs s.disk name size d' i x hdr) :
    s.Entries { s with
      disk := d'
      files := Function.update s.files ((s.fs.dir d').find name) s.created
      created := s.created + 1 } i := by
  have hm := hi.mounted
  have hm' := hc.mounted hm
  have hfind : (s.fs.dir d').find name = x := hc.find_eq hm
  refine ⟨hm', Nat.le_succ _, fun j hj huse => ?_⟩
  rcases hc.stored.used_cases hj huse with rfl | ⟨hji, hold⟩
  · right
    refine ⟨rfl, ?_, Nat.lt_succ_self _⟩
    have hsector : (s.fs.dir d').sector j = x := hc.sector
    simp only [dir, hsector, hfind, Function.update_self]
  · left
    have hne := hc.stored.sector_ne (hm.rooted.marked_file hj hold List.mem_cons_self)
    refine ⟨hold, (hc.other j hj hji).sector, ?_, hc.stored.header_eq hm.rooted hj hold⟩
    simp only [hfind]
    exact Function.update_of_ne hne _ _

theorem entries_remove {name : Mem} (hi : s.Inv)
    (hr : FileSystem.Removed s.fs s.disk name d' i) : s.Entries { s with disk := d' } i := by
  have hm := hi.mounted
  refine ⟨hr.mounted hm, le_rfl, fun j hj huse => ?_⟩
  obtain ⟨hji, hold⟩ := hr.used_cases hj huse
  exact .inl ⟨hold, (hr.other j hj hji).sector, rfl, hr.header_eq hm.rooted hj hold⟩

/-- A file that was just opened is known. -/
theorem handleOk_open {name : Mem} {f : OpenFile} (hi : s.Inv)
    (hlt : i < FileSystem.numDirEntries) (huse : s.dir.inUse i = true)
    (hname : s.dir.fileName i = name.chars Directory.fileNameMaxLen)
    (hsame : f.hdr.Same (onDisk s.disk (s.dir.sector i))) :
    s.HandleOk ⟨s.files (s.dir.find name), f⟩ := by
  have hm := hi.mounted
  have hnodup := hm.allotted.nodup (some i)
  rw [FileSystem.Rooted.block_eq hlt huse] at hnodup
  have hfind : s.dir.find name = s.dir.sector i := hm.rooted.find_of_entry hlt huse hname
  rw [hfind]
  refine ⟨hsame.valid (hm.valid i hlt huse), ?_, hi.file_lt i hlt huse, fun j hj huse' heq => ?_⟩
  · rw [hsame.sectors]
    exact hnodup.of_cons
  · rw [hi.file_inj j hj i hlt huse' huse heq]
    exact hsame

/-! ### Writing -/

/-- What a write does to the disk when it is harmless. -/
theorem kept_of_frame (hi : s.Inv) (hh : s.HandleOk h)
    (hharmless : s.Present h.file ∨
      ∀ x ∈ h.openFile.touched numBytes position, ¬ (s.fs.map s.disk).Marked x)
    (hframe : ∀ x, x ∉ h.openFile.touched numBytes position → d' x = s.disk x) :
    s.Kept h.file d' := by
  have hm := hi.mounted
  -- a sector in use that is touched is a data sector of the file itself
  have hown {x : ℤ} (hx : (s.fs.map s.disk).Marked x)
      (htouched : x ∈ h.openFile.touched numBytes position) :
      ∃ i < FileSystem.numDirEntries, s.dir.inUse i = true ∧ s.files (s.dir.sector i) = h.file ∧
        x ∈ (onDisk s.disk (s.dir.sector i)).sectors := by
    rcases hharmless with ⟨i, hlt, huse, hfile⟩ | hfree
    · refine ⟨i, hlt, huse, hfile, ?_⟩
      rw [← (hh.header i hlt huse hfile).sectors]
      exact OpenFile.touched_subset hh.valid htouched
    · exact absurd hx (hfree x htouched)
  refine ⟨fun x hx => hframe x fun ht => ?_, fun j hj huse => hframe _ fun ht => ?_,
    fun j hj huse hne x hx => hframe x fun ht => ?_⟩
  · obtain ⟨i, hlt, huse, -, hmem⟩ := hown (hm.rooted.marked_sys hx) ht
    exact hm.rooted.file_not_mem_sys hlt huse (.tail _ hmem) hx
  · obtain ⟨i, hlt, huse', -, hmem⟩ := hown (hm.rooted.marked_file hj huse List.mem_cons_self) ht
    obtain rfl := hm.rooted.file_unique hlt huse' (.tail _ hmem) hj huse List.mem_cons_self
    exact hm.rooted.header_not_mem hlt huse' hmem
  · obtain ⟨i, hlt, huse', hfile, hmem⟩ := hown (hm.rooted.marked_file hj huse (.tail _ hx)) ht
    obtain rfl := hm.rooted.file_unique hlt huse' (.tail _ hmem) hj huse (.tail _ hx)
    exact hne hfile

theorem Kept.sameDir (hk : s.Kept file d') (hi : s.Inv) :
    FileSystem.SameDir (s.fs.dir s.disk) (s.fs.dir d') :=
  (FileSystem.dirOn_frame hi.mounted.dirValid hi.mounted.dirBytes fun x hx =>
    hk.sys x (FileSystem.Rooted.mem_sys_dir hx)).sameDir

theorem Kept.mounted (hk : s.Kept file d') (hi : s.Inv) : FileSystem.Mounted s.fs d' :=
  hi.mounted.frame hk.sys hk.header

theorem Kept.entries (hk : s.Kept file d') (hi : s.Inv) (hs : List Handle) :
    s.Entries { s with disk := d', handles := hs } 0 := by
  have hdir := hk.sameDir hi
  refine ⟨hk.mounted hi, le_rfl, fun j hj huse => .inl ?_⟩
  have hold : s.dir.inUse j = true := (hdir.entry j hj).inUse.symm.trans huse
  refine ⟨hold, (hdir.entry j hj).sector, rfl, ?_⟩
  rw [onDisk, onDisk]
  exact congrArg ofImage (hk.header j hj hold)

/-- A write of the file system: the sectors that it does not touch are as they were. -/
theorem write_frame (hh : s.HandleOk h) {garbage buf src : Mem} {k : ℕ}
    (hw : h.openFile.writeAt s.disk garbage buf src numBytes position = some (d', k)) :
    ∀ x, x ∉ h.openFile.touched numBytes position → d' x = s.disk x := by
  cases hclip : h.openFile.clip numBytes position with
  | none =>
    rw [OpenFile.writeAt, hclip] at hw
    cases hw
  | some n =>
    obtain ⟨d'', hd, hframe, -⟩ := OpenFile.writeAt_eq (d := s.disk) garbage buf src hh.valid
      hh.nodup hclip
    rw [hw] at hd
    cases hd
    exact hframe

/-- A step that writes changes the disk by `WriteAt`, and of the handles at most a position. -/
theorem step_write (haim : s.aim e = some (h, numBytes, position)) (hs : s.step e = some s') :
    h ∈ s.handles ∧ ∃ garbage buf src d' k hs,
      h.openFile.writeAt s.disk garbage buf src numBytes position = some (d', k) ∧
      s' = { s with disk := d', handles := hs } ∧
      ∀ h' ∈ hs, ∃ g ∈ s.handles, h'.file = g.file ∧ h'.openFile.hdr = g.openFile.hdr := by
  cases e with
  | create junk name size => cases haim
  | remove junk name => cases haim
  | openFile junk name => cases haim
  | writeAt k garbage buf src n p =>
    obtain ⟨g, hg, heq⟩ := Option.map_eq_some_iff.mp haim
    cases heq
    simp only [step, hg, Option.bind_eq_bind, Option.bind_some] at hs
    obtain ⟨⟨d', r⟩, hw, hs⟩ := Option.bind_eq_some_iff.mp hs
    cases hs
    exact ⟨List.mem_of_getElem? hg, garbage, buf, src, d', r, s.handles, hw, rfl,
      fun h' hh' => ⟨h', hh', rfl, rfl⟩⟩
  | write k garbage buf src n =>
    obtain ⟨g, hg, heq⟩ := Option.map_eq_some_iff.mp haim
    cases heq
    simp only [step, hg, Option.bind_eq_bind, Option.bind_some] at hs
    obtain ⟨⟨f, d', r⟩, hw, hs⟩ := Option.bind_eq_some_iff.mp hs
    cases hs
    obtain ⟨⟨d'', r'⟩, hw, heq⟩ := Option.bind_eq_some_iff.mp hw
    cases heq
    have hmem := List.mem_of_getElem? hg
    refine ⟨hmem, garbage, buf, src, d', r, _, hw, rfl, fun h' hh' => ?_⟩
    rcases List.mem_or_eq_of_mem_set hh' with hh' | rfl
    · exact ⟨h', hh', rfl, rfl⟩
    · exact ⟨h, hmem, rfl, rfl⟩

/-- A harmless write keeps what it should. -/
theorem kept_step (hi : s.Inv) (hharmless : s.Harmless e)
    (haim : s.aim e = some (h, numBytes, position)) (hs : s.step e = some s') :
    s.Kept h.file s'.disk := by
  obtain ⟨hmem, garbage, buf, src, d', k, hs', hw, rfl, -⟩ := step_write haim hs
  have hh := hi.handles h hmem
  exact kept_of_frame hi hh (hharmless h _ _ haim) (write_frame hh hw)

theorem HandleOk.congr {g : Handle} (hh : s.HandleOk g) (hfile : h.file = g.file)
    (hhdr : h.openFile.hdr = g.openFile.hdr) : s.HandleOk h := by
  constructor
  · rw [hhdr]
    exact hh.valid
  · rw [hhdr]
    exact hh.nodup
  · rw [hfile]
    exact hh.file_lt
  · rw [hfile, hhdr]
    exact hh.header

/-- One step: what each operation preserves. -/
theorem inv_step (hi : s.Inv) (hr : e.InRange) (hharmless : s.Harmless e)
    (hs : s.step e = some s') : s'.Inv := by
  have hwrite (h : Handle) (n p : ℤ) (haim : s.aim e = some (h, n, p)) : s'.Inv := by
    have hk := kept_step hi hharmless haim hs
    obtain ⟨-, garbage, buf, src, d', k, hs', -, rfl, hold⟩ := step_write haim hs
    have he := hk.entries hi hs'
    apply he.inv hi
    intro h' hh'
    obtain ⟨g, hg, hfile, hhdr⟩ := hold h' hh'
    exact (he.handleOk (hi.handles g hg)).congr hfile hhdr
  have hm := hi.mounted
  cases e with
  | create junk name size =>
    rcases hm.rooted.create_cases junk name hr.1 hr.2 with ⟨hc, -⟩ | ⟨d', i, x, hdr, hc, hcreated⟩
    · simp only [step, hc, Option.bind_eq_bind, Option.bind_some, Bool.false_eq_true,
        if_false] at hs
      cases hs
      exact hi
    · simp only [step, hc, Option.bind_eq_bind, Option.bind_some, if_true] at hs
      cases hs
      have he := entries_create hi hcreated
      exact he.inv hi fun h hh => he.handleOk (hi.handles h hh)
  | remove junk name =>
    rcases hm.rooted.remove_cases junk name with ⟨hr, -⟩ | ⟨d', i, hr, hremoved⟩
    · simp only [step, hr, Option.bind_eq_bind, Option.bind_some] at hs
      cases hs
      exact hi
    · simp only [step, hr, Option.bind_eq_bind, Option.bind_some] at hs
      cases hs
      have he := entries_remove hi hremoved
      exact he.inv hi fun h hh => he.handleOk (hi.handles h hh)
  | openFile junk name =>
    rcases hm.rooted.open_cases junk name with ⟨i, f, ho, hlt, huse, hname, hsame⟩ | ⟨ho, -⟩
    · simp only [step, ho, Option.bind_eq_bind, Option.bind_some] at hs
      cases hs
      refine ⟨hm, hi.file_lt, hi.file_inj, fun h hh => ?_⟩
      have hok : s.HandleOk h := by
        rcases List.mem_append.mp hh with hh | hh
        · exact hi.handles h hh
        · rw [List.mem_singleton.mp hh]
          exact handleOk_open hi hlt huse hname hsame
      exact ⟨hok.valid, hok.nodup, hok.file_lt, hok.header⟩
    · simp only [step, ho, Option.bind_eq_bind, Option.bind_some] at hs
      cases hs
      exact hi
  | writeAt k garbage buf src n p =>
    cases hg : s.handles[k]? with
    | none =>
      rw [step, hg] at hs
      cases hs
    | some h => exact hwrite h n p (by rw [aim, hg, Option.map_some])
  | write k garbage buf src n =>
    cases hg : s.handles[k]? with
    | none =>
      rw [step, hg] at hs
      cases hs
    | some h => exact hwrite h n h.openFile.seekPosition (by rw [aim, hg, Option.map_some])

/-- Creations are of sizes that a file can have, and writes are harmless. -/
def Careful (s : Session) (e : Event) : Prop := e.InRange ∧ s.Harmless e

theorem inv_init (h : machine.init s) : s.Inv := by
  obtain ⟨⟨junk, d, hformat⟩, hnil⟩ := h
  obtain ⟨fs, d', hf, hformatted⟩ := FileSystem.format_cases junk d
  rw [hformat] at hf
  cases hf
  have hfree (i : ℕ) (hlt : i < FileSystem.numDirEntries) : ¬ s.dir.inUse i = true := by
    have hempty : s.dir.inUse i = false := hformatted.empty i hlt
    rw [hempty]
    exact Bool.false_ne_true
  refine ⟨hformatted.mounted, fun i hlt huse => absurd huse (hfree i hlt),
    fun i hlt j _ huse => absurd huse (hfree i hlt), fun h hh => ?_⟩
  rw [hnil] at hh
  cases hh

theorem inv_reach (hs : machine.Reach Careful s) : s.Inv :=
  hs.invariant Inv (fun _ h => inv_init h) fun _ _ _ _ hi hok hstep =>
    inv_step hi hok.1 hok.2 hstep

/-! ### A handle whose file was removed -/

theorem write_one {f : OpenFile} {d : Disk} (hv : f.hdr.Valid) (hn : f.hdr.sectors.Nodup)
    (hbytes : f.hdr.numBytes = 1) (hsectors : f.hdr.sectors = [f.hdr.dataSectors 0])
    (garbage buf : Mem) (b : UInt8) :
    ∃ d', f.writeAt d garbage buf (fun _ => b) 1 0 = some (d', 1) ∧
      (∀ x, x ≠ f.hdr.dataSectors 0 → d' x = d x) ∧ d' (f.hdr.dataSectors 0) 0 = b := by
  obtain ⟨d', hd, hframe, hagree⟩ := OpenFile.writeAt_start (d := d) (n := 1) garbage buf
    (fun _ => b) hv hn hbytes.ge
  refine ⟨d', hd, fun x hx => hframe x ?_, hagree 0 Nat.one_pos⟩
  rwa [hsectors, List.mem_singleton]

theorem contents_one {d : Disk} {x y : ℤ} (hbytes : (onDisk d x).numBytes = 1)
    (hy : (onDisk d x).dataSectors 0 = y) : contents d x = [d y 0] := by
  subst hy
  rw [contents, hbytes]
  rfl

/-- A file is created, opened and removed, and then another one is created and opened. -/
def reuse : List Event :=
  [.create FileSystem.blank (fun _ => 97) 1, .openFile FileSystem.blank fun _ => 97,
    .remove FileSystem.blank fun _ => 97, .create FileSystem.blank (fun _ => 98) 1,
    .openFile FileSystem.blank fun _ => 98]

theorem careful_create {junk : Junk} {name : Mem} {size : ℤ} (hpos : 0 ≤ size)
    (hmax : size ≤ maxFileSize) : s.Careful (.create junk name size) :=
  ⟨⟨hpos, hmax⟩, nofun⟩

theorem careful_remove (junk : Junk) (name : Mem) : s.Careful (.remove junk name) :=
  ⟨trivial, nofun⟩

theorem careful_open (junk : Junk) (name : Mem) : s.Careful (.openFile junk name) :=
  ⟨trivial, nofun⟩

/-- The handles of both files have the same sector `y`. -/
theorem run_reuse : ∃ s₀ s f g x y, machine.init s₀ ∧ machine.Meets Careful s₀ reuse ∧
    machine.run s₀ reuse = some s ∧ s.handles = [⟨0, f⟩, ⟨1, g⟩] ∧
    f.hdr.numBytes = 1 ∧ f.hdr.sectors = [y] ∧ f.hdr.dataSectors 0 = y ∧
    g.hdr.numBytes = 1 ∧ g.hdr.sectors = [y] ∧ g.hdr.dataSectors 0 = y ∧ x ≠ y ∧
    (∃ i < FileSystem.numDirEntries, s.dir.inUse i = true ∧ s.dir.sector i = x ∧ s.files x = 1) ∧
    (onDisk s.disk x).numBytes = 1 ∧ (onDisk s.disk x).dataSectors 0 = y := by
  have hone : (0 : ℤ) ≤ 1 ∧ (1 : ℤ) ≤ maxFileSize := by decide
  obtain ⟨fs, d₀, hformat, hf⟩ := FileSystem.format_cases FileSystem.blank fun _ _ => 0
  obtain ⟨d₁, i, x, h, hc, hcreated⟩ := hf.create FileSystem.blank (fun _ => 97) hone.1 hone.2
  have hm₁ := hcreated.mounted hf.mounted
  rcases hm₁.rooted.open_cases FileSystem.blank fun _ => 97
    with ⟨i', f, ho, hlt, huse, hname, hsame⟩ | ⟨-, habs⟩
  swap
  · exact absurd hcreated.fileName (habs i hcreated.entry_lt hcreated.inUse)
  obtain rfl := hm₁.names i' hlt i hcreated.entry_lt huse hcreated.inUse
    (hname.trans hcreated.fileName.symm)
  rcases hm₁.rooted.remove_cases FileSystem.blank fun _ => 97 with ⟨-, habs⟩ | ⟨d₂, j, hr, hremoved⟩
  · exact absurd hcreated.fileName (habs i' hcreated.entry_lt hcreated.inUse)
  obtain ⟨hf₂, hsame₂⟩ := hf.create_remove hcreated hremoved
  obtain ⟨d₃, k, x', h', hc', hcreated'⟩ := hf₂.create FileSystem.blank (fun _ => 98) hone.1 hone.2
  obtain ⟨hx, hy⟩ := hcreated.same_sectors hcreated' hsame₂
  have hm₃ := hcreated'.mounted hf₂.mounted
  rcases hm₃.rooted.open_cases FileSystem.blank fun _ => 98
    with ⟨k', g, ho', hlt', huse', hname', hsame'⟩ | ⟨-, habs⟩
  swap
  · exact absurd hcreated'.fileName (habs k hcreated'.entry_lt hcreated'.inUse)
  obtain rfl := hm₃.names k' hlt' k hcreated'.entry_lt huse' hcreated'.inUse
    (hname'.trans hcreated'.fileName.symm)
  rw [hcreated.sector] at hsame
  rw [hcreated'.sector] at hsame'
  obtain ⟨hfbytes, hfsectors, hfdata⟩ := hcreated.one_sector (hsame.trans hcreated.header)
  obtain ⟨hgbytes, hgsectors, hgdata⟩ := hcreated'.one_sector (hsame'.trans hcreated'.header)
  obtain ⟨hbytes, -, hdata⟩ := hcreated'.one_sector hcreated'.header
  -- the sessions after each event
  let files : ℤ → ℕ := Function.update (fun _ => 0) x 0
  let files' : ℤ → ℕ := Function.update files x' 1
  let s₀ : Session := ⟨fs, d₀, fun _ => 0, 0, []⟩
  let s₁ : Session := ⟨fs, d₁, files, 1, []⟩
  let s₂ : Session := ⟨fs, d₁, files, 1, [⟨0, f⟩]⟩
  let s₃ : Session := ⟨fs, d₂, files, 1, [⟨0, f⟩]⟩
  let s₄ : Session := ⟨fs, d₃, files', 2, [⟨0, f⟩]⟩
  let s₅ : Session := ⟨fs, d₃, files', 2, [⟨0, f⟩, ⟨1, g⟩]⟩
  have hfind : (fs.dir d₁).find (fun _ => 97) = x := hcreated.find_eq hf.mounted
  have hfind' : (fs.dir d₃).find (fun _ => 98) = x' := hcreated'.find_eq hf₂.mounted
  have hfile : files x = 0 := Function.update_self ..
  have hfile' : files' x' = 1 := Function.update_self ..
  have hstep₁ : machine.step s₀ (.create FileSystem.blank (fun _ => 97) 1) = some s₁ := by
    simp [machine, step, s₀, s₁, hc, files]
  have hstep₂ : machine.step s₁ (.openFile FileSystem.blank fun _ => 97) = some s₂ := by
    simp [machine, step, dir, s₁, s₂, ho, hfind, hfile]
  have hstep₃ : machine.step s₂ (.remove FileSystem.blank fun _ => 97) = some s₃ := by
    simp [machine, step, s₂, s₃, hr]
  have hstep₄ : machine.step s₃ (.create FileSystem.blank (fun _ => 98) 1) = some s₄ := by
    simp [machine, step, s₃, s₄, hc', hfind', files']
  have hstep₅ : machine.step s₄ (.openFile FileSystem.blank fun _ => 98) = some s₅ := by
    simp [machine, step, dir, s₄, s₅, ho', hfind', hfile']
  have hne : x' ≠ h'.dataSectors 0 := by
    have hmem := (List.nodup_cons.mp hcreated'.nodup).1
    rwa [(hcreated'.one_sector ⟨rfl, rfl, fun _ _ => rfl⟩).2.1, List.mem_singleton] at hmem
  refine ⟨s₀, s₅, f, g, x', h'.dataSectors 0, ⟨⟨_, _, hformat⟩, rfl⟩, ?_, ?_, rfl, hfbytes,
    hy ▸ hfsectors, hy ▸ hfdata, hgbytes, hgsectors, hgdata, hne, ?_, hbytes, hdata⟩
  · exact fun _ _ => ⟨careful_create hone.1 hone.2, fun _ _ => ⟨careful_open _ _, fun _ _ =>
      ⟨careful_remove _ _, fun _ _ => ⟨careful_create hone.1 hone.2, fun _ _ =>
        ⟨careful_open _ _, trivial⟩⟩⟩⟩⟩
  · simp only [reuse, Machine.run_cons, hstep₁, hstep₂, hstep₃, hstep₄, hstep₅, Machine.run_nil,
      Option.bind_some]
  · exact ⟨k', hlt', huse', hcreated'.sector, hfile'⟩

/-- The write through the handle of the removed file. -/
def staleWrite : Event := .writeAt 0 (fun _ => 0) (fun _ => 0) (fun _ => 2) 1 0

/-- The write through the handle of the new file. -/
def ownWrite : Event := .writeAt 1 (fun _ => 0) (fun _ => 0) (fun _ => 1) 1 0

theorem ownWrite_careful {f g : OpenFile} (hh : s.handles = [⟨0, f⟩, ⟨1, g⟩])
    (hp : s.Present 1) : s.Careful ownWrite := by
  refine ⟨trivial, fun h n p haim => .inl ?_⟩
  simp only [aim, ownWrite, hh, List.getElem?_cons_succ, List.getElem?_cons_zero, Option.map_some,
    Option.some.injEq, Prod.mk.injEq] at haim
  obtain ⟨rfl, -, -⟩ := haim
  exact hp

/-- In a run whose writes are harmless, a write changes its own file only. -/
theorem writes_are_isolated (hs : machine.Reach Careful s) (hok : s.Careful e)
    (haim : s.aim e = some (h, numBytes, position)) (hstep : machine.step s e = some s') :
    s.Untouched s' h.file := by
  have hi := inv_reach hs
  have hu := (kept_step hi hok.2 haim hstep).untouched hi
  exact ⟨hu.map, hu.dir, hu.other⟩

/-- The file that took the sectors of a removed one is written through its own handle. -/
theorem writes_are_isolated_reuse : ∃ s₀ s s', machine.init s₀ ∧
    machine.run s₀ reuse = some s ∧ machine.step s ownWrite = some s' ∧ s.Untouched s' 1 := by
  obtain ⟨s₀, s, f, g, x, y, h₀, hmeets, hrun, hhandles, -, -, -, hbytes, hsectors, hy, -,
    ⟨i, hlt, huse, rfl, hfile⟩, -, -⟩ := run_reuse
  have hreach : machine.Reach Careful s := Machine.Reach.run (.init h₀) hmeets hrun
  have hg := (inv_reach hreach).handles ⟨1, g⟩ (by simp [hhandles])
  rw [← hy] at hsectors
  obtain ⟨d', hw, -, -⟩ := write_one (d := s.disk) hg.valid hg.nodup hbytes hsectors (fun _ => 0)
    (fun _ => 0) 1
  have hstep : machine.step s ownWrite = some { s with disk := d' } := by
    simp [machine, step, ownWrite, hhandles, hw]
  have haim : s.aim ownWrite = some (⟨1, g⟩, 1, 0) := by simp [aim, ownWrite, hhandles]
  exact ⟨s₀, s, _, h₀, hrun, hstep, writes_are_isolated hreach
    (ownWrite_careful hhandles ⟨i, hlt, huse, hfile⟩) haim hstep⟩

/-- A write through the handle of a removed file changes the contents of another one. -/
theorem removed_file_overwrites_another : ∃ s₀ s s' h i, machine.init s₀ ∧
    machine.Meets (fun _ e => e.InRange) s₀ (reuse ++ [ownWrite]) ∧
    machine.run s₀ (reuse ++ [ownWrite]) = some s ∧ s.aim staleWrite = some (h, 1, 0) ∧
    machine.step s staleWrite = some s' ∧ i < FileSystem.numDirEntries ∧ s.dir.inUse i = true ∧
    s.files (s.dir.sector i) ≠ h.file ∧ contents s.disk (s.dir.sector i) = [1] ∧
    contents s'.disk (s.dir.sector i) = [2] ∧ ¬ s.Untouched s' h.file := by
  obtain ⟨s₀, s, f, g, x, y, h₀, hmeets, hrun, hhandles, hfbytes, hfsectors, hfy, hbytes, hsectors,
    hy, hne, ⟨i, hlt, huse, rfl, hfile⟩, hdbytes, hdy⟩ := run_reuse
  have hreach : machine.Reach Careful s := Machine.Reach.run (.init h₀) hmeets hrun
  have hi := inv_reach hreach
  have hf := hi.handles ⟨0, f⟩ (by simp [hhandles])
  have hg := hi.handles ⟨1, g⟩ (by simp [hhandles])
  have hcareful := ownWrite_careful hhandles ⟨i, hlt, huse, hfile⟩
  rw [← hy] at hsectors
  rw [← hfy] at hfsectors
  obtain ⟨d₁, hw₁, hframe₁, hbyte₁⟩ := write_one (d := s.disk) hg.valid hg.nodup hbytes hsectors
    (fun _ => 0) (fun _ => 0) 1
  obtain ⟨d₂, hw₂, hframe₂, hbyte₂⟩ := write_one (d := d₁) hf.valid hf.nodup hfbytes hfsectors
    (fun _ => 0) (fun _ => 0) 2
  rw [hy] at hframe₁ hbyte₁
  rw [hfy] at hframe₂ hbyte₂
  let s₁ : Session := { s with disk := d₁ }
  have hstep₁ : machine.step s ownWrite = some s₁ := by
    simp [machine, step, ownWrite, hhandles, hw₁, s₁]
  have haim₁ : s.aim ownWrite = some (⟨1, g⟩, 1, 0) := by simp [aim, ownWrite, hhandles]
  have hentry := ((kept_step hi hcareful.2 haim₁ hstep₁).sameDir hi).entry i hlt
  have hsector : s₁.dir.sector i = s.dir.sector i := hentry.sector
  have hheader₁ : onDisk d₁ (s.dir.sector i) = onDisk s.disk (s.dir.sector i) := by
    rw [onDisk, onDisk, hframe₁ _ hne]
  have hheader₂ : onDisk d₂ (s.dir.sector i) = onDisk s.disk (s.dir.sector i) := by
    rw [onDisk, hframe₂ _ hne]
    exact hheader₁
  have hold : contents d₁ (s.dir.sector i) = [1] := by
    rw [contents_one (hheader₁ ▸ hdbytes) (hheader₁ ▸ hdy), hbyte₁]
  have hnew : contents d₂ (s.dir.sector i) = [2] := by
    rw [contents_one (hheader₂ ▸ hdbytes) (hheader₂ ▸ hdy), hbyte₂]
  have hother : s₁.files (s₁.dir.sector i) ≠ 0 := by
    rw [hsector]
    exact hfile.trans_ne Nat.one_ne_zero
  have hone : (0 : ℤ) ≤ 1 ∧ (1 : ℤ) ≤ maxFileSize := by decide
  refine ⟨s₀, s₁, { s with disk := d₂ }, ⟨0, f⟩, i, h₀, ?_, ?_, ?_, ?_, hlt, ?_, hother,
    hsector ▸ hold, hsector ▸ hnew, fun hu => ?_⟩
  · exact fun _ _ => ⟨hone, fun _ _ => ⟨trivial, fun _ _ => ⟨trivial, fun _ _ => ⟨hone, fun _ _ =>
      ⟨trivial, fun _ _ => ⟨trivial, trivial⟩⟩⟩⟩⟩⟩
  · rw [Machine.run_append, hrun, Option.bind_some, Machine.run_cons, hstep₁, Option.bind_some,
      Machine.run_nil]
  · simp [aim, staleWrite, hhandles, s₁]
  · simp [machine, step, staleWrite, hhandles, hw₂, s₁]
  · exact hentry.inUse.trans huse
  · have heq := hu.other i hlt (hentry.inUse.trans huse) hother
    rw [hsector, hold, hnew] at heq
    cases heq

end Session
end Coursework.Nachos
