import Coursework.Nachos.FileSystem.Consistent

/-!
# When `Create` and `Remove` return `FALSE`

`Create` works on copies of the directory and of the map, and there are four reasons for it to
give up. Nothing is on the disk by then. Where it does not give up the name resolves to a file
of the size that was asked for, and the other names resolve as before.
-/
namespace Coursework.Nachos

/-- `Length` -/
def OpenFile.length (f : OpenFile) : ℤ := f.hdr.numBytes

namespace FileSystem
open Disk FileHeader

/-- The names are the same in the characters that are compared. -/
def SameName (name other : Mem) : Prop := Mem.strncmp name other Directory.fileNameMaxLen = 0

/-- An entry in use has the name. -/
def InDirectory (fs : FileSystem) (d : Disk) (name : Mem) : Prop :=
  ∃ i < numDirEntries, (fs.dir d).inUse i = true ∧ SameName ((fs.dir d).name i) name

/-- The name is there, no sector is free for the header, no entry is free, or the sectors that are
left are too few for the data. -/
def CreateFails (fs : FileSystem) (d : Disk) (name : Mem) (size : ℤ) : Prop :=
  InDirectory fs d name ∨ (fs.map d).numClear = 0 ∨
    (∀ i < numDirEntries, (fs.dir d).inUse i = true) ∨
    ((fs.map d).numClear - 1 : ℤ) < (size + 127) / 128

variable {fs : FileSystem} {d d' : Disk} {name other : Mem} {size s : ℤ} {i : ℕ}
  {h : FileHeader} {dir : Directory} {ok : Bool}

theorem inDirectory_iff : InDirectory fs d name ↔ ¬ Absent fs d name := by
  rw [InDirectory, Absent]
  simp only [SameName, Mem.strncmp_eq_zero, not_forall, not_not, exists_prop]
  exact Iff.rfl

/-! ### Refusal -/

/-- `Allocate` returns `FALSE` when the clear bits are too few, for sizes of every kind. -/
theorem allocate_false_iff {g : FileHeader} {m m' : BitMap}
    (ha : g.allocate m size = some (ok, h, m')) :
    ok = false ↔ (m.numClear : ℤ) < divRoundUp size sectorSize := by
  rw [allocate] at ha
  by_cases hfew : (m.numClear : ℤ) < divRoundUp size sectorSize
  · rw [if_pos hfew] at ha
    cases ha
    exact iff_of_true rfl hfew
  · rw [if_neg hfew] at ha
    split_ifs at ha
    cases ha
    exact iff_of_false (by decide) hfew

/-- What is written after the allocation is written with success. -/
theorem store_true {junk : Junk} {m : BitMap}
    (h : fs.store junk d s dir (true, h, m) = some (ok, d')) : ok = true := by
  simp only [store, not_true_eq_false, if_false, Option.bind_eq_bind, Option.bind_eq_some_iff] at h
  obtain ⟨_, -, _, -, _, -, hresult⟩ := h
  cases hresult
  rfl

theorem Prepared.createFails_iff {m : BitMap} {s : ℕ} (hp : Prepared fs d name dir m s i) :
    CreateFails fs d name size ↔ (m.numClear : ℤ) < divRoundUp size sectorSize := by
  have hcount := hp.numClear
  rw [divRoundUp_eq]
  constructor
  · rintro (hname | hnone | hfull | hfew)
    · exact absurd hp.name_new (inDirectory_iff.mp hname)
    · omega
    · have huse := hfull i hp.entry_lt
      rw [hp.entry_free] at huse
      cases huse
    · omega
  · intro hfew
    exact .inr (.inr (.inr (by omega)))

namespace Rooted

/-- Whatever the size, these are the conditions for `FALSE`, and the disk is then as it was. -/
theorem create_false_iff (hm : Rooted fs d) (junk : Junk) (name : Mem) (size : ℤ) :
    (∃ d', fs.create junk d name size = some (false, d')) ↔ CreateFails fs d name size := by
  rcases hm.create_prepared junk name with ⟨hc, hrefused⟩ | ⟨dir, m, s, i, hp, hc⟩
  · apply iff_of_true ⟨d, hc size⟩
    rcases hrefused with hname | hfull | hnone
    · exact .inl (inDirectory_iff.mpr hname)
    · exact .inr (.inr (.inl hfull))
    · exact .inr (.inl hnone)
  · rw [hp.createFails_iff, hc]
    constructor
    · rintro ⟨d', hd'⟩
      obtain ⟨⟨ok, h, m'⟩, halloc, hstore⟩ := Option.bind_eq_some_iff.mp hd'
      apply (allocate_false_iff halloc).mp
      rw [Bool.eq_false_iff]
      rintro rfl
      cases store_true hstore
    · intro hfew
      refine ⟨d, ?_⟩
      rw [allocate, if_pos hfew]
      rfl

theorem create_false (hm : Rooted fs d) {junk : Junk}
    (hc : fs.create junk d name size = some (false, d')) : d' = d := by
  have hfails := (hm.create_false_iff junk name size).mp ⟨d', hc⟩
  rcases hm.create_prepared junk name with ⟨hc', -⟩ | ⟨dir, m, s, i, hp, hc'⟩
  · rw [hc'] at hc
    cases hc
    rfl
  · rw [hp.createFails_iff] at hfails
    rw [hc', allocate, if_pos hfails] at hc
    cases hc
    rfl

end Rooted

/-! ### Names that resolve as before -/

namespace Created

/-- Another name has the entry that it had, if any. -/
theorem other_cases (hm : Mounted fs d) (hc : Created fs d name size d' i s h)
    (hne : ¬ SameName other name) :
    (∃ j < numDirEntries, (fs.dir d).inUse j = true ∧
      (fs.dir d).find other = (fs.dir d).sector j ∧
      (fs.dir d').find other = (fs.dir d).sector j) ∨
    (fs.dir d).find other = -1 ∧ (fs.dir d').find other = -1 := by
  have hm' := hc.mounted hm
  have hchars : other.chars Directory.fileNameMaxLen ≠ name.chars Directory.fileNameMaxLen :=
    fun h => hne (Mem.strncmp_eq_zero.mpr h)
  by_cases habs : Absent fs d other
  · refine .inr ⟨hm.rooted.find_of_absent habs, hm'.rooted.find_of_absent fun j hj huse hname => ?_⟩
    rcases hc.stored.used_cases hj huse with rfl | ⟨hji, hold⟩
    · exact hchars (hname.symm.trans hc.fileName)
    · rw [(hc.other j hj hji).fileName] at hname
      exact habs j hj hold hname
  · rw [Absent] at habs
    simp only [not_forall, not_not] at habs
    obtain ⟨j, hj, huse, hname⟩ := habs
    have hji : j ≠ i := by
      rintro rfl
      rw [hc.entry_free] at huse
      cases huse
    have hsame := hc.other j hj hji
    refine .inl ⟨j, hj, huse, hm.rooted.find_of_entry hj huse hname, ?_⟩
    rw [hm'.rooted.find_of_entry hj (hsame.inUse.trans huse) (hsame.fileName.trans hname), hsame.sector]

theorem other_find (hm : Mounted fs d) (hc : Created fs d name size d' i s h)
    (hne : ¬ SameName other name) : (fs.dir d').find other = (fs.dir d).find other := by
  rcases hc.other_cases hm hne with ⟨j, -, -, hfind, hfind'⟩ | ⟨hfind, hfind'⟩
  · rw [hfind, hfind']
  · rw [hfind, hfind']

theorem other_open (hm : Mounted fs d) (hc : Created fs d name size d' i s h)
    (hne : ¬ SameName other name) (junk : Junk) :
    fs.openFile junk d' other = fs.openFile junk d other := by
  rw [(hc.mounted hm).rooted.open_eq, hm.rooted.open_eq, hc.other_find hm hne]
  rcases hc.other_cases hm hne with ⟨j, hj, huse, hfind, -⟩ | ⟨hfind, -⟩
  · have hsector : d' ((fs.dir d).sector j) = d ((fs.dir d).sector j) :=
      hc.stored.frame_file hm.rooted hj huse List.mem_cons_self
    rw [hfind, OpenFile.new, OpenFile.new, fetchFrom, fetchFrom, readSector, readSector, hsector]
  · rw [hfind, if_neg (by decide), if_neg (by decide)]

end Created

/-! ### Sizes that a header cannot hold -/

/-- The header that is read back for the name has the size, and each byte is in a sector that was
free before. -/
def Holds (fs : FileSystem) (d : Disk) (name : Mem) (size : ℤ) (d' : Disk) : Prop :=
  0 ≤ size ∧ ∀ g : FileHeader, ∃ h, g.fetchFrom d' ((fs.dir d').find name) = some h ∧
    h.numBytes = size ∧ ∀ k : ℕ, k < size →
      ∃ x, h.byteToSector k = some x ∧ ¬ (fs.map d).Marked x ∧ (fs.map d').Marked x

/-- `Create` returns `FALSE`, or the new file can hold its bytes. -/
def CreatesWhole (fs : FileSystem) (junk : Junk) (d : Disk) (name : Mem) (size : ℤ) : Prop :=
  (∃ d', fs.create junk d name size = some (false, d')) ∨
    ∃ d', fs.create junk d name size = some (true, d') ∧ Holds fs d name size d'

theorem Created.holds (hm : Mounted fs d) (hc : Created fs d name size d' i s h) :
    Holds fs d name size d' := by
  have hv : (onDisk d' s).Valid := hc.header.valid hc.valid
  refine ⟨?_, fun g => ?_⟩
  · rw [← hc.numBytes]
    exact hc.valid.numBytes_nonneg
  obtain ⟨h', hfetch, hsame⟩ := g.fetchFrom_eq hc.isSector hv.sectors_le
  have hsame := hsame.trans hc.header
  have hv' := hsame.valid hc.valid
  have hbytes := hv'.bytes_le
  have hdirect := hv'.sectors_le
  refine ⟨h', ?_, hsame.numBytes.trans hc.numBytes, fun k hk => ?_⟩
  · rw [hc.find_eq hm, hfetch]
  · rw [← hc.numBytes, ← hsame.numBytes] at hk
    have hlt : ((k / sectorSize : ℕ) : ℤ) < h'.numSectors := by
      rw [sectorSize] at *
      omega
    have hmem := mem_sectors hlt
    rw [hsame.sectors] at hmem
    refine ⟨h'.dataSectors (k / sectorSize), if_pos (by omega), hc.clear _ (.tail _ hmem), ?_⟩
    rw [hc.marked]
    exact .inr (.tail _ hmem)

/-- The array is not left by an allocation that succeeds. -/
theorem le_of_allocate {g : FileHeader} {m m' : BitMap}
    (ha : g.allocate m size = some (true, h, m')) : size ≤ maxFileSize := by
  have henough := mt (allocate_false_iff ha).mpr nofun
  rw [allocate, if_neg henough] at ha
  split_ifs at ha with hdirect
  rw [divRoundUp_eq, show (numDirect : ℤ) = 30 from rfl] at hdirect
  rw [show (maxFileSize : ℤ) = 3840 from rfl]
  omega

theorem Rooted.le_of_create (hm : Rooted fs d) {junk : Junk}
    (hc : fs.create junk d name size = some (true, d')) : size ≤ maxFileSize := by
  rcases hm.create_prepared junk name with ⟨hc', -⟩ | ⟨dir, m, s, i, -, hc'⟩
  · rw [hc'] at hc
    cases hc
  · rw [hc'] at hc
    obtain ⟨⟨ok, h, m'⟩, halloc, hstore⟩ := Option.bind_eq_some_iff.mp hc
    cases ok with
    | true => exact le_of_allocate halloc
    | false => cases hstore

/-- The condition on the size, where none of the reasons to give up holds. -/
theorem creates_whole_iff (hm : Mounted fs d) (junk : Junk) (name : Mem) (size : ℤ) :
    CreatesWhole fs junk d name size ↔
      CreateFails fs d name size ∨ 0 ≤ size ∧ size ≤ maxFileSize := by
  constructor
  · rintro (hfalse | ⟨d', hc, hpos, -⟩)
    · exact .inl ((hm.rooted.create_false_iff junk name size).mp hfalse)
    · exact .inr ⟨hpos, hm.rooted.le_of_create hc⟩
  · rintro (hfails | ⟨hpos, hmax⟩)
    · exact .inl ((hm.rooted.create_false_iff junk name size).mpr hfails)
    · rcases hm.rooted.create_cases junk name hpos hmax with ⟨hc, -⟩ | ⟨d', i, s, h, hc, hcreated⟩
      · exact .inl ⟨d, hc⟩
      · exact .inr ⟨d', hc, hcreated.holds hm⟩

/-- On a formatted disk there is room for a file of up to 1018 sectors. -/
theorem Formatted.not_createFails (hf : Formatted fs d) (name : Mem)
    (hsize : (size + 127) / 128 ≤ 1018) : ¬ CreateFails fs d name size := by
  rintro (⟨i, hi, huse, -⟩ | hnone | hfull | hfew)
  · rw [hf.empty i hi] at huse
    cases huse
  · rw [hf.numClear] at hnone
    cases hnone
  · have huse := hfull 0 (by decide)
    rw [hf.empty 0 (by decide)] at huse
    cases huse
  · rw [hf.numClear] at hfew
    omega

theorem creates_whole_iff_formatted : ∃ fs d, Mounted fs d ∧
    CreatesWhole fs blank d (fun _ => 97) 3840 := by
  obtain ⟨fs, d, -, hf⟩ := format_cases blank fun _ _ => 0
  exact ⟨fs, d, hf.mounted, (creates_whole_iff hf.mounted blank (fun _ => 97) 3840).mpr
    (.inr ⟨by decide, by decide⟩)⟩

/-- There is no file of -5 bytes, but `Create` does not return `FALSE`. -/
theorem create_negative_size : ¬ ∀ fs d, Mounted fs d → ∀ junk name, ∀ size : ℤ,
    -intMax - 1 ≤ size → size ≤ intMax → CreatesWhole fs junk d name size := by
  intro hall
  obtain ⟨fs, d, -, hf⟩ := format_cases blank fun _ _ => 0
  rcases hall fs d hf.mounted blank (fun _ => 97) (-5) (by decide) (by decide)
    with hfalse | ⟨d', -, hpos, -⟩
  · exact hf.not_createFails _ (by decide) ((hf.mounted.rooted.create_false_iff _ _ _).mp hfalse)
  · exact absurd hpos (by decide)

/-- What `Create` and `Remove` return, and what is on the disk then. -/
theorem create_remove_outcomes (hm : Mounted fs d) (name : Mem) :
    (∀ junk (size : ℤ), 0 ≤ size → size ≤ maxFileSize →
      ∃ ok d', fs.create junk d name size = some (ok, d') ∧
        (ok = false ↔ CreateFails fs d name size) ∧ (ok = false → d' = d) ∧
        (ok = true →
          (∀ junk', ∃ f, fs.openFile junk' d' name = some (some f) ∧ f.length = size) ∧
          ∀ other, ¬ SameName other name → (fs.dir d').find other = (fs.dir d).find other ∧
            ∀ junk', fs.openFile junk' d' other = fs.openFile junk' d other)) ∧
    ∀ junk, ∃ ok d', fs.remove junk d name = some (ok, d') ∧
      (ok = false ↔ ¬ InDirectory fs d name) ∧ (ok = false → d' = d) := by
  refine ⟨fun junk size hpos hmax => ?_, fun junk => ?_⟩
  · have hfalse := hm.rooted.create_false_iff junk name size
    rcases hm.rooted.create_cases junk name hpos hmax with ⟨hc, -⟩ | ⟨d', i, s, h, hc, hcreated⟩
    · exact ⟨false, d, hc, iff_of_true rfl (hfalse.mp ⟨d, hc⟩), fun _ => rfl, nofun⟩
    · refine ⟨true, d', hc, iff_of_false nofun fun hfails => ?_, nofun, fun _ =>
        ⟨fun junk' => ?_, fun other hne =>
          ⟨hcreated.other_find hm hne, fun junk' => hcreated.other_open hm hne junk'⟩⟩⟩
      swap
      · obtain ⟨h', ho, hsame⟩ := hcreated.open_new hm junk'
        exact ⟨_, ho, hsame.numBytes.trans hcreated.numBytes⟩
      obtain ⟨d'', hd''⟩ := hfalse.mpr hfails
      rw [hc] at hd''
      cases hd''
  · rw [inDirectory_iff, not_not]
    rcases hm.rooted.remove_cases junk name with ⟨hr, habs⟩ | ⟨d', i, hr, hremoved⟩
    · exact ⟨false, d, hr, iff_of_true rfl habs, fun _ => rfl⟩
    · refine ⟨true, d', hr, iff_of_false nofun fun habs => ?_, nofun⟩
      exact habs i hremoved.entry_lt hremoved.entry_used hremoved.fileName

/-- On a formatted disk a file of 200 bytes can be created and opened, and there is nothing to
remove. -/
theorem create_remove_outcomes_formatted : ∃ fs d, Mounted fs d ∧
    (∃ d' f, fs.create blank d (fun _ => 97) 200 = some (true, d') ∧
      fs.openFile blank d' (fun _ => 97) = some (some f) ∧ f.length = 200) ∧
    fs.remove blank d (fun _ => 97) = some (false, d) := by
  obtain ⟨fs, d, -, hf⟩ := format_cases blank fun _ _ => 0
  obtain ⟨hcreate, hremove⟩ := create_remove_outcomes hf.mounted fun _ => 97
  obtain ⟨ok, d', hc, hfalse, -, htrue⟩ := hcreate blank 200 (by decide) (by decide)
  obtain ⟨ok', d'', hr, hfalse', hsame⟩ := hremove blank
  have hok : ok = true := by
    rw [← Bool.not_eq_false, hfalse]
    exact hf.not_createFails _ (by decide)
  have hok' : ok' = false := by
    rw [hfalse']
    rintro ⟨i, hi, huse, -⟩
    rw [hf.empty i hi] at huse
    cases huse
  subst hok hok'
  obtain ⟨f, hf', hlen⟩ := (htrue rfl).1 blank
  rw [hsame rfl] at hr
  exact ⟨fs, d, hf.mounted, ⟨d', f, hc, hf', hlen⟩, hr⟩

end FileSystem
end Coursework.Nachos
