import Coursework.Nachos.FileSystem.Store.Mount
import Coursework.Nachos.FileSystem.Store.Transfers

/-!
# The file system implements the store

Every call that the store allows is answered as the store may answer it, and so is every list of
calls, across restarts of Nachos.
-/
namespace Coursework.Nachos.Session
open Disk FileHeader FileSystem

variable {s s' : Session} {st st' : Store} {i n k : ℕ} {name bytes new : List UInt8} {d' : Disk}
  {h : Handle} {position numBytes : ℤ} {e : Event} {buf into garbage src : Mem} {junk : Junk}

theorem forall₂_set {α β : Type*} {R : α → β → Prop} {l : List α} {l' : List β} {a : α} {b : β}
    (h : List.Forall₂ R l l') (hab : R a b) (k : ℕ) : List.Forall₂ R (l.set k a) (l'.set k b) := by
  induction h generalizing k with
  | nil => exact .nil
  | cons hr _ ih =>
    cases k with
    | zero => exact .cons hab ‹_›
    | succ k => exact .cons hr (ih k)

theorem OpensAt.congr {g : Handle} (ho : s.OpensAt h name i) (hfile : g.file = h.file) :
    s.OpensAt g name i :=
  ⟨ho.entry_lt, ho.inUse, ho.name, ho.file.trans hfile.symm⟩

/-- Only the positions of handles are different. -/
theorem Shows.moved (hs : Shows s st) (hl : s.LiveAt k h name bytes i) {f : OpenFile}
    (hhdr : f.hdr = h.openFile.hdr) (hpos : f.seekPosition = position) :
    Shows { s with handles := s.handles.set k { h with openFile := f } }
      (st.moved k name position) where
  inv := by
    refine ⟨hs.inv.mounted, hs.inv.file_lt, hs.inv.file_inj, fun g hg => ?_⟩
    have hok : s.HandleOk g := by
      rcases List.mem_or_eq_of_mem_set hg with hg | rfl
      · exact hs.inv.handles g hg
      · exact hl.ok.congr rfl hhdr
    exact ⟨hok.valid, hok.nodup, hok.file_lt, hok.header⟩
  files := hs.files
  sectors := hs.sectors
  free := hs.free
  handles := by
    have hstays (j : ℕ) :
        s.Stays { s with handles := s.handles.set k { h with openFile := f } } j :=
      ⟨⟨rfl, rfl, rfl⟩, rfl, rfl⟩
    refine forall₂_set (hs.handles.imp fun g g' hg => hg.stays fun j _ _ => hstays j)
      ⟨hpos, fun other hother => ?_⟩ k
    cases hother
    exact ⟨i, (hl.opens.stays (hstays i)).congr rfl⟩

/-- The bytes of a file are different, and perhaps the positions of handles. -/
theorem Shows.wrote (hs : Shows s st) (hl : s.LiveAt k h name bytes i)
    (hw : s.Wrote s' name new i) {handles : List StoreHandle}
    (hh : List.Forall₂ s'.HandleShows s'.handles handles) :
    Shows s' { files := st.files.insert name new, free := st.free, handles := handles } where
  inv := hw.inv
  files := by
    have hslot := slot_of_used hl.opens.inUse
    rw [hl.opens.name] at hslot
    exact hs.files.replace hl.opens.entry_lt hslot hw.slot hw.other
  sectors j hj huse := by
    have hold := hw.unused j hj huse
    have hstays := hw.stays j hj hold
    rw [hstays.entry.sector, hstays.header]
    exact hs.sectors j hj hold
  free := hw.map.trans hs.free
  handles := hh

/-! ### Calls on handles -/

theorem answers_length (hs : Shows s st) (hl : st.Live k name bytes position) :
    s.Answers st (.length k) := by
  obtain ⟨h, i, hlive, -⟩ := hs.live hl
  refine ⟨s, _, st, ?_, .length hl, hs⟩
  simp [call, hlive.handle, OpenFile.length, hlive.length]

theorem answers_seek (hs : Shows s st) (hl : st.Live k name bytes position) (position' : ℤ) :
    s.Answers st (.seek k position') := by
  obtain ⟨h, i, hlive, -⟩ := hs.live hl
  refine ⟨_, .done, _, ?_, .seek hl, hs.moved hlive (f := h.openFile.seek position') rfl rfl⟩
  simp [call, hlive.handle]

theorem answers_readAt (hs : Shows s st) (hl : st.Live k name bytes position) {position' : ℤ}
    (hpos : 0 ≤ position') (hint : position' + numBytes ≤ intMax) :
    s.Answers st (.readAt k buf into numBytes position') := by
  obtain ⟨h, i, hlive, -⟩ := hs.live hl
  obtain ⟨into', hread, hslice⟩ := hlive.readAt buf into hpos hint
  refine ⟨s, _, st, ?_, .readAt hl, hs⟩
  simp [call, hlive.handle, hread, hslice]

theorem answers_read (hs : Shows s st) (hl : st.Live k name bytes position) (hpos : 0 ≤ position)
    (hint : position + numBytes ≤ intMax) : s.Answers st (.read k buf into numBytes) := by
  obtain ⟨h, i, hlive, hseek⟩ := hs.live hl
  obtain ⟨into', hread, hslice⟩ := hlive.readAt buf into hpos hint
  refine ⟨_, _, _, ?_, .read hl, hs.moved hlive (f := { h.openFile with
    seekPosition := position + OpenFile.amount bytes.length numBytes position }) rfl rfl⟩
  simp [call, hlive.handle, OpenFile.read, hread, hslice, hseek]

theorem answers_writeAt (hs : Shows s st) (hl : st.Live k name bytes position) {position' : ℤ}
    (hpos : 0 ≤ position') (hint : position' + numBytes ≤ intMax) :
    s.Answers st (.writeAt k garbage buf src numBytes position') := by
  obtain ⟨h, i, hlive, -⟩ := hs.live hl
  obtain ⟨d', n, hwrite, hn, hbytes⟩ := hlive.writeAt garbage buf src hpos hint
  have hstep : s.step (.writeAt k garbage buf src numBytes position') =
      some { s with disk := d' } := by
    simp [step, hlive.handle, hwrite]
  have hw := hlive.wrote hs.inv (e := .writeAt k garbage buf src numBytes position') trivial
    (by rw [aim, hlive.handle, Option.map_some]) hstep hbytes
  refine ⟨_, _, _, ?_, .writeAt hl hn, hs.wrote hlive hw ?_⟩
  · simp [call, hlive.handle, hwrite, hstep]
  · exact hs.handles.imp fun g g' hg => hg.stays hw.stays

theorem answers_write (hs : Shows s st) (hl : st.Live k name bytes position) (hpos : 0 ≤ position)
    (hint : position + numBytes ≤ intMax) : s.Answers st (.write k garbage buf src numBytes) := by
  obtain ⟨h, i, hlive, hseek⟩ := hs.live hl
  obtain ⟨d', n, hwrite, hn, hbytes⟩ := hlive.writeAt garbage buf src hpos hint
  have hstep : s.step (.write k garbage buf src numBytes) = some { s with
      disk := d'
      handles := s.handles.set k
        { h with openFile := { h.openFile with seekPosition := position + n } } } := by
    simp [step, hlive.handle, OpenFile.write, hwrite, hseek]
  have hw := hlive.wrote hs.inv (e := .write k garbage buf src numBytes) trivial
    (by rw [aim, hlive.handle, Option.map_some, hseek]) hstep hbytes
  refine ⟨_, _, _, ?_, .write hl hn, hs.wrote hlive hw ?_⟩
  · simp [call, hlive.handle, OpenFile.write, hwrite, hseek, hstep]
  · refine forall₂_set (hs.handles.imp fun g g' hg => hg.stays hw.stays)
      ⟨rfl, fun other hother => ?_⟩ k
    cases hother
    exact ⟨i, (hlive.opens.stays (hw.stays i hlive.opens.entry_lt hlive.opens.inUse)).congr rfl⟩

/-! ### Runs -/

theorem implements : Store.service.Implements call Shows := by
  intro s st c hs hallows
  cases c with
  | create junk name initialSize => exact answers_create hs hallows.1 hallows.2
  | remove junk name => exact answers_remove hs
  | openFile junk name => exact answers_open hs
  | length handle =>
    obtain ⟨name, bytes, position, hl⟩ := hallows
    exact answers_length hs hl
  | seek handle position' =>
    obtain ⟨name, bytes, position, hl⟩ := hallows
    exact answers_seek hs hl position'
  | readAt handle buf into numBytes position' =>
    obtain ⟨⟨name, bytes, position, hl⟩, hpos, hint⟩ := hallows
    exact answers_readAt hs hl hpos hint
  | writeAt handle garbage buf src numBytes position' =>
    obtain ⟨⟨name, bytes, position, hl⟩, hpos, hint⟩ := hallows
    exact answers_writeAt hs hl hpos hint
  | read handle buf into numBytes =>
    obtain ⟨name, bytes, position, hl, hpos, hint⟩ := hallows
    exact answers_read hs hl hpos hint
  | write handle garbage buf src numBytes =>
    obtain ⟨name, bytes, position, hl, hpos, hint⟩ := hallows
    exact answers_write hs hl hpos hint
  | mount junk => exact answers_mount hs

/-- The session that begins when the disk has been formatted. -/
def start (fs : FileSystem) (d : Disk) : Session := ⟨fs, d, fun _ => 0, 0, []⟩

theorem shows_start {fs : FileSystem} {d : Disk} (hf : Formatted fs d) :
    Shows (start fs d) Store.empty where
  inv := by
    have hfree (i : ℕ) (hi : i < numDirEntries) : ¬ (start fs d).dir.inUse i = true :=
      fun huse => absurd ((hf.empty i hi).symm.trans huse) (by decide)
    exact ⟨hf.mounted, fun i hi huse => absurd huse (hfree i hi),
      fun i hi _ _ huse => absurd huse (hfree i hi), fun _ hg => by cases hg⟩
  files := .empty fun i hi => slot_of_free (hf.empty i hi)
  sectors i hi huse := absurd ((hf.empty i hi).symm.trans huse) (by decide)
  free := hf.numClear
  handles := .nil

/-- Whatever was on the disk, once it is formatted all calls that the store allows are answered as
by a store that starts empty, and its files are those on the disk. -/
theorem file_system_is_store (junk : Junk) (d : Disk) (calls : List FileCall)
    (h : Store.service.AllowsAll Store.empty calls) :
    ∃ fs d' s as st, format junk d = some (fs, d') ∧
      answers call (start fs d') calls = some (s, as) ∧
      Store.service.Run Store.empty calls as st ∧
      BoundedMap.Represents numDirEntries s.slot st.files := by
  obtain ⟨fs, d', hformat, hf⟩ := format_cases junk d
  obtain ⟨s, as, st, hrun, hstore, hs⟩ := implements.answers (shows_start hf) h
  exact ⟨fs, d', s, as, st, hformat, hrun, hstore, hs.files⟩

/-- Three bytes are written to a new file, and read again after a restart. -/
def reload : List FileCall :=
  [.create blank (fun _ => 97) 3, .openFile blank fun _ => 97,
    .writeAt 0 (fun _ => 0) (fun _ => 0) (fun j => UInt8.ofNat (j + 1)) 3 0, .mount blank,
    .openFile blank fun _ => 97, .readAt 0 (fun _ => 0) (fun _ => 0) 3 0]

theorem not_refuses_empty (name : List UInt8) : ¬ Store.empty.Refuses name 3 := by
  rintro (hmem | hfull | hfew)
  · exact Finmap.notMem_empty hmem
  · exact absurd hfull (by decide)
  · exact absurd hfew (by decide)

theorem reload_allowed : Store.service.AllowsAll Store.empty reload := by
  refine ⟨⟨by decide, by decide⟩, fun _ _ hcreate => ⟨trivial, fun _ _ hopen => ?_⟩⟩
  cases hcreate with
  | refuse hrefuses => exact absurd hrefuses (not_refuses_empty _)
  | create =>
    cases hopen with
    | openAbsent habsent => exact absurd (Finmap.mem_insert.mpr (.inl rfl)) habsent
    | openFile =>
      refine ⟨⟨⟨_, _, _, rfl, Finmap.lookup_insert _⟩, by decide, by decide⟩, fun _ _ hwrite => ?_⟩
      cases hwrite with
      | writeAt hlive =>
        cases hlive.handle
        refine ⟨trivial, fun _ _ hmount => ⟨trivial, fun _ _ hreopen => ?_⟩⟩
        cases hmount with
        | mount =>
          cases hreopen with
          | openAbsent habsent => exact absurd (Finmap.mem_insert.mpr (.inl rfl)) habsent
          | openFile =>
            exact ⟨⟨⟨_, _, _, rfl, Finmap.lookup_insert _⟩, by decide, by decide⟩,
              fun _ _ _ => trivial⟩

theorem file_system_is_store_reload : ∃ fs d' s as st,
    format blank (fun _ _ => 0) = some (fs, d') ∧
      answers call (start fs d') reload = some (s, as) ∧
      Store.service.Run Store.empty reload as st ∧
      BoundedMap.Represents numDirEntries s.slot st.files :=
  file_system_is_store blank (fun _ _ => 0) reload reload_allowed

end Coursework.Nachos.Session
