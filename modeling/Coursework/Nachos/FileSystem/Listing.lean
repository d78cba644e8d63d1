import Coursework.Nachos.FileSystem.Names
import Coursework.Nachos.FileSystem.Outcome

/-!
# The names that `List` prints

A name of nine characters fills what `strncpy` may write, and no operation sets the byte after it:
it has the value that was in memory when the disk was formatted. `List` prints up to the end of the
string, so it prints the names when that byte is zero in each entry that gets such a name.
-/
namespace Coursework.Nachos

namespace Directory

/-- `printf("%s\n", table[i].name)`, and `none` where the string does not end in the table. -/
def printName (d : Directory) (i : ℕ) : Option (List UInt8) :=
  let room := d.tableSize * entrySize - (entrySize * i + 8)
  let string := (d.name i).text room
  if string.length < room then some (string ++ [10]) else none

/-- The loop of `List` for the first `n` entries. -/
def listLoop (d : Directory) : ℕ → Option (List UInt8)
  | 0 => some []
  | n + 1 => do
    let printed ← listLoop d n
    if d.inUse n then
      let line ← d.printName n
      some (printed ++ line)
    else some printed

def list (d : Directory) : Option (List UInt8) := d.listLoop d.tableSize

/-- The entry that the loop of `Add` fills. -/
def firstFree (d : Directory) : Option ℕ := (List.range d.tableSize).find? fun i => !d.inUse i

/-- `table[i].name[FileNameMaxLen]` -/
def lastByte (d : Directory) (i : ℕ) : UInt8 := d.name i fileNameMaxLen

/-- The name is a string that ends in its field. -/
def Ends (d : Directory) (i : ℕ) : Prop := ∃ k < fileNameMaxLen + 1, d.name i k = 0

/-- The names in use among the first `n` entries. -/
def usedNames (d : Directory) (n : ℕ) : List (List UInt8) :=
  ((List.range n).filter d.inUse).map fun i => key (d.name i)

variable {d d' : Directory} {i j n : ℕ} {s : Mem} {newSector : ℤ}

theorem mem_usedNames {k : List UInt8} :
    k ∈ d.usedNames n ↔ ∃ i < n, d.inUse i = true ∧ key (d.name i) = k := by
  simp [usedNames, and_assoc]

/-- A name that is shorter than nine characters ends, a longer one depends on the byte after. -/
theorem ends_iff : d.Ends i ↔ (key (d.name i)).length < fileNameMaxLen ∨ d.lastByte i = 0 := by
  rw [Ends, Nat.exists_lt_succ_right, Mem.length_text_lt_iff, lastByte]

/-! ### Printing -/

theorem printName_eq (hi : i < d.tableSize) (h : d.Ends i) :
    d.printName i = some (key (d.name i) ++ [10]) := by
  obtain ⟨k, hk, h0⟩ := h
  rw [fileNameMaxLen] at hk
  have hroom : k + 1 < d.tableSize * entrySize - (entrySize * i + 8) := by
    rw [entrySize]
    omega
  have hkey : key (d.name i) = (d.name i).text k := Mem.text_of_zero h0 (by rw [fileNameMaxLen]; omega)
  have hlen : ((d.name i).text k).length ≤ k := Mem.length_text_le
  rw [printName, Mem.text_of_zero h0 (by omega), if_pos (by omega), hkey]

theorem listLoop_eq (hn : n ≤ d.tableSize) (h : ∀ i < n, d.inUse i = true → d.Ends i) :
    d.listLoop n = some ((d.usedNames n).flatMap (· ++ [10])) := by
  induction n with
  | zero => rfl
  | succ n ih =>
    rw [listLoop, ih (by omega) fun i hi => h i (by omega), usedNames, usedNames, List.range_succ,
      List.filter_append, List.map_append, List.flatMap_append, Option.bind_eq_bind, Option.bind_some]
    cases huse : d.inUse n with
    | false => simp [huse]
    | true =>
      rw [if_pos rfl, printName_eq (by omega) (h n (by omega) huse)]
      simp [huse]

/-! ### The byte after the characters -/

theorem lastByte_setInUse (i : ℕ) (b : Bool) (j : ℕ) :
    (d.setInUse i b).lastByte j = d.lastByte j := by
  rw [lastByte, name, Mem.drop, setInUse_table]
  exact Mem.copy_of_not_mem (by rw [entrySize, fileNameMaxLen]; omega)

theorem lastByte_setName (i : ℕ) (s : Mem) (j : ℕ) : (d.setName i s).lastByte j = d.lastByte j := by
  rw [lastByte, name, Mem.drop, setName_table, Mem.strncpy]
  exact Mem.copy_of_not_mem (by rw [entrySize, fileNameMaxLen]; omega)

theorem lastByte_setSector (i : ℕ) (newSector : ℤ) (j : ℕ) :
    (d.setSector i newSector).lastByte j = d.lastByte j := by
  rw [lastByte, name, Mem.drop, setSector_table]
  exact Mem.copy_of_not_mem (by rw [entrySize, fileNameMaxLen]; omega)

/-- The constructor leaves the names as the memory is. -/
theorem lastByte_new (size : ℕ) (garbage : Mem) (j : ℕ) :
    (new size garbage).lastByte j = (Directory.mk size garbage).lastByte j := by
  have hall (l : List ℕ) (d : Directory) :
      (l.foldl (fun d i => d.setInUse i false) d).lastByte j = d.lastByte j := by
    induction l generalizing d with
    | nil => rfl
    | cons i l ih => rw [List.foldl_cons, ih, lastByte_setInUse]
  exact hall _ _

theorem firstFree_eq_some : d.firstFree = some i ↔
    i < d.tableSize ∧ d.inUse i = false ∧ ∀ j < i, d.inUse j = true := by
  rw [firstFree, List.find?_range_eq_some, List.mem_range]
  simp [and_left_comm]

/-- `Add` fills the first free entry and leaves the byte after the characters of every name. -/
theorem add_true (h : d.add s newSector = (true, d')) :
    ∃ i, d.firstFree = some i ∧ d'.inUse i = true ∧ ∀ j, d'.lastByte j = d.lastByte j := by
  rw [add] at h
  split at h
  · cases h
  · split at h
    next i hfree =>
      cases h
      refine ⟨i, hfree, ?_, fun j => ?_⟩
      · rw [inUse, setSector_table, Mem.copy_of_not_mem (by omega), setName_table, Mem.strncpy,
          Mem.copy_of_not_mem (by omega)]
        exact inUse_setInUse i true
      · rw [lastByte_setSector, lastByte_setName, lastByte_setInUse]
    next => cases h

end Directory

namespace FileSystem
open Disk FileHeader

def list (fs : FileSystem) (junk : Junk) (d : Disk) : Option (List UInt8) := do
  let directory := Directory.new numDirEntries junk.table
  let directory ← directory.fetchFrom d fs.directoryFile (junk.buf 0)
  directory.list

/-- The open files, the disk, and the names of the files that were created and not removed since,
as far as they count. -/
structure Session where
  fs : FileSystem
  disk : Disk
  names : Finset (List UInt8)

/-- The operations that change the directory, with the memory they find. -/
inductive Edit where
  | create (junk : Junk) (name : Mem) (initialSize : Int32)
  | remove (junk : Junk) (name : Mem)

/-- After any formatting one operation after another. -/
def session : Machine Session Edit where
  init s := (∃ junk d, format junk d = some (s.fs, s.disk)) ∧ s.names = ∅
  step s
    | .create junk name initialSize =>
      (s.fs.create junk s.disk name initialSize.toInt).map fun result =>
        ⟨s.fs, result.2, if result.1 then insert (Directory.key name) s.names else s.names⟩
    | .remove junk name =>
      (s.fs.remove junk s.disk name).map fun result =>
        ⟨s.fs, result.2, if result.1 then s.names.erase (Directory.key name) else s.names⟩

/-- The names in use end in their fields, and `List` prints the names of the files, each on a line
of its own. -/
structure ShowsNames (s : Session) : Prop where
  ends : ∀ i < numDirEntries, (s.fs.dir s.disk).inUse i = true → (s.fs.dir s.disk).Ends i
  listed : ∀ junk, ∃ lines : List (List UInt8),
    s.fs.list junk s.disk = some (lines.flatMap (· ++ [10])) ∧ lines.Nodup ∧
      ∀ k, k ∈ lines ↔ k ∈ s.names

/-- `Create` gives up, or the name is shorter than nine characters, or the byte after the name in
the entry that it gets was zero in the memory `mem`. -/
def Edit.NameEnds (mem : Mem) (s : Session) : Edit → Prop
  | .create _ name initialSize => CreateFails s.fs s.disk name initialSize.toInt ∨
      (∃ k < Directory.fileNameMaxLen, name k = 0) ∨
      ∀ i, (s.fs.dir s.disk).firstFree = some i → Directory.lastByte ⟨numDirEntries, mem⟩ i = 0
  | .remove _ _ => True

/-- The entries in use have the names of the files, and the byte after the characters is the one in
the memory `mem`, which is zero where a name goes up to it. -/
structure Session.Inv (mem : Mem) (s : Session) : Prop where
  rooted : Rooted s.fs s.disk
  lastByte : ∀ i < numDirEntries,
    (s.fs.dir s.disk).lastByte i = Directory.lastByte ⟨numDirEntries, mem⟩ i
  names : ∀ k, k ∈ s.names ↔ k ∈ (s.fs.dir s.disk).usedNames numDirEntries
  ends : ∀ i < numDirEntries, (s.fs.dir s.disk).inUse i = true → (s.fs.dir s.disk).Ends i

variable {fs : FileSystem} {d d' : Disk} {junk : Junk} {dir dir' : Directory} {name : Mem}
  {size x : ℤ} {i j : ℕ} {h : FileHeader} {mem : Mem} {s s' : Session} {e : Edit}

/-! ### Tables with the same bytes -/

theorem SameTable.agree_name (h : SameTable dir dir') (hi : i < dir.tableSize) :
    Mem.Agree (Directory.fileNameMaxLen + 1) (dir'.name i) (dir.name i) := by
  intro k hk
  have hagree := h.agree
  rw [Directory.entrySize] at hagree
  rw [Directory.fileNameMaxLen] at hk
  exact hagree _ (by rw [Directory.entrySize]; omega)

theorem SameTable.lastByte (h : SameTable dir dir') (hi : i < dir.tableSize) :
    dir'.lastByte i = dir.lastByte i :=
  h.agree_name hi _ (Nat.lt_succ_self _)

theorem SameTable.ends (h : SameTable dir dir') (hi : i < dir.tableSize) (he : dir.Ends i) :
    dir'.Ends i := by
  obtain ⟨k, hk, h0⟩ := he
  exact ⟨k, hk, (h.agree_name hi k hk).trans h0⟩

theorem SameDir.usedNames (h : SameDir dir dir') :
    dir'.usedNames dir.tableSize = dir.usedNames dir.tableSize := by
  have hfilter : (List.range dir.tableSize).filter dir'.inUse =
      (List.range dir.tableSize).filter dir.inUse := by
    apply List.filter_congr
    intro i hi
    exact (h.entry i (List.mem_range.mp hi)).inUse
  rw [Directory.usedNames, Directory.usedNames, hfilter]
  apply List.map_congr_left
  intro i hi
  have hlt := List.mem_range.mp (List.mem_filter.mp hi).1
  exact (h.entry i hlt).key_eq

theorem SameDir.firstFree (h : SameDir dir dir') (hfree : dir'.firstFree = some i) :
    dir.firstFree = some i := by
  rw [Directory.firstFree_eq_some, h.tableSize] at hfree
  obtain ⟨hi, hfree, hused⟩ := hfree
  rw [Directory.firstFree_eq_some]
  refine ⟨hi, ?_, fun j hj => ?_⟩
  · rw [← (h.entry i hi).inUse, hfree]
  · rw [← (h.entry j (hj.trans hi)).inUse, hused j hj]

/-! ### The names after a creation and after a removal -/

/-- What a `Create` that returns `TRUE` does to the names. -/
theorem Rooted.create_true (hm : Rooted fs d) (hlow : -intMax - 1 ≤ size) (hhigh : size ≤ intMax)
    (hc : fs.create junk d name size = some (true, d')) :
    ∃ i x h, Stored fs d name d' i x h ∧ (fs.dir d).firstFree = some i ∧
      ∀ j < numDirEntries, (fs.dir d').lastByte j = (fs.dir d).lastByte j := by
  rcases hm.create_prepared junk name with ⟨hc', -⟩ | ⟨dir, m, x, i, hp, hc'⟩
  · rw [hc'] at hc
    cases hc
  rw [hc'] at hc
  obtain ⟨⟨ok, h, m'⟩, halloc, hstore⟩ := Option.bind_eq_some_iff.mp hc
  cases ok with
  | false => cases hstore
  | true =>
    obtain ⟨hst, ht⟩ := taken_of_allocate hp.numBits hlow hhigh halloc
    obtain ⟨d₁, hd₁, htable, hstored⟩ := hm.store_eq junk hp hst ht
    cases hd₁.symm.trans hstore
    obtain ⟨dir₀, hsame, hadd⟩ := hp.added
    obtain ⟨k, hfree, huse, hlast⟩ := Directory.add_true hadd
    have hfree₀ := hsame.sameDir.firstFree hfree
    obtain ⟨hk, hclear, -⟩ := Directory.firstFree_eq_some.mp hfree₀
    have hki : k = i := by
      by_contra hne
      rw [(hp.other k hk hne).inUse, hclear] at huse
      cases huse
    refine ⟨i, x, h, hstored, hki ▸ hfree₀, fun j hj => ?_⟩
    rw [htable.lastByte (hp.tableSize.symm ▸ hj), hlast, hsame.lastByte hj]

theorem Stored.mem_usedNames (hs : Stored fs d name d' i x h) {k : List UInt8} :
    k ∈ (fs.dir d').usedNames numDirEntries ↔
      k = Directory.key name ∨ k ∈ (fs.dir d).usedNames numDirEntries := by
  rw [Directory.mem_usedNames, Directory.mem_usedNames]
  constructor
  · rintro ⟨j, hj, huse, rfl⟩
    rcases hs.used_cases hj huse with rfl | ⟨hji, huse⟩
    · exact .inl (Directory.key_eq_iff.mpr hs.fileName)
    · exact .inr ⟨j, hj, huse, (hs.other j hj hji).key_eq.symm⟩
  · rintro (rfl | ⟨j, hj, huse, rfl⟩)
    · exact ⟨i, hs.entry_lt, hs.inUse, Directory.key_eq_iff.mpr hs.fileName⟩
    · have hji : j ≠ i := by
        rintro rfl
        rw [hs.entry_free] at huse
        cases huse
      exact ⟨j, hj, (hs.other j hj hji).inUse.trans huse, (hs.other j hj hji).key_eq⟩

theorem Removed.mem_usedNames (hm : Rooted fs d) (hr : Removed fs d name d' i) {k : List UInt8} :
    k ∈ (fs.dir d').usedNames numDirEntries ↔
      k ≠ Directory.key name ∧ k ∈ (fs.dir d).usedNames numDirEntries := by
  rw [Directory.mem_usedNames, Directory.mem_usedNames]
  constructor
  · rintro ⟨j, hj, huse, rfl⟩
    obtain ⟨hji, huse⟩ := hr.used_cases hj huse
    refine ⟨fun heq => hji ?_, j, hj, huse, (hr.other j hj hji).key_eq.symm⟩
    rw [(hr.other j hj hji).key_eq, Directory.key_eq_iff] at heq
    exact hm.names j hj i hr.entry_lt huse hr.entry_used (heq.trans hr.fileName.symm)
  · rintro ⟨hne, j, hj, huse, rfl⟩
    have hji : j ≠ i := by
      rintro rfl
      exact hne (Directory.key_eq_iff.mpr hr.fileName)
    exact ⟨j, hj, (hr.other j hj hji).inUse.trans huse, (hr.other j hj hji).key_eq⟩

/-! ### Sessions -/

namespace Session.Inv

theorem showsNames (hi : s.Inv mem) : ShowsNames s := by
  refine ⟨hi.ends, fun junk => ?_⟩
  obtain ⟨dir, hfetch, htable⟩ := hi.rooted.fetchDir junk.table (junk.buf 0)
  refine ⟨(s.fs.dir s.disk).usedNames numDirEntries, ?_, ?_, fun k => (hi.names k).symm⟩
  · have hends (i : ℕ) (hlt : i < dir.tableSize) (huse : dir.inUse i = true) : dir.Ends i := by
      rw [htable.tableSize] at hlt
      rw [(htable.sameDir.entry i hlt).inUse] at huse
      exact htable.ends hlt (hi.ends i hlt huse)
    rw [list, hfetch, Option.bind_eq_bind, Option.bind_some, Directory.list,
      Directory.listLoop_eq le_rfl hends, htable.tableSize, htable.sameDir.usedNames]
    rfl
  · apply (List.nodup_range.filter _).map_on
    intro i hi' j hj heq
    simp only [List.mem_filter, List.mem_range] at hi' hj
    exact hi.rooted.names i hi'.1 j hj.1 hi'.2 hj.2 (Directory.key_eq_iff.mp heq)

/-- A new name is in an entry with the byte that the entry had in the memory. -/
theorem ends_new (hi : s.Inv mem) (hs : Stored s.fs s.disk name d' i x h)
    (hlast : ∀ j < numDirEntries, (s.fs.dir d').lastByte j = (s.fs.dir s.disk).lastByte j) :
    (s.fs.dir d').Ends i ↔ (∃ k < Directory.fileNameMaxLen, name k = 0) ∨
      Directory.lastByte ⟨numDirEntries, mem⟩ i = 0 := by
  rw [Directory.ends_iff, Directory.key_eq_iff.mpr hs.fileName, Mem.length_text_lt_iff,
    hlast i hs.entry_lt, hi.lastByte i hs.entry_lt]

/-- An entry that is as before ends as before. -/
theorem ends_old (hi : s.Inv mem) (hj : j < numDirEntries)
    (huse : (s.fs.dir s.disk).inUse j = true)
    (hsame : Directory.SameEntry (s.fs.dir s.disk) (s.fs.dir d') j)
    (hlast : (s.fs.dir d').lastByte j = (s.fs.dir s.disk).lastByte j) : (s.fs.dir d').Ends j := by
  rw [Directory.ends_iff, hsame.key_eq, hlast, ← Directory.ends_iff]
  exact hi.ends j hj huse

theorem step (hi : s.Inv mem) (hok : e.NameEnds mem s) (hs : session.step s e = some s') :
    s'.Inv mem := by
  cases e with
  | create junk name initialSize =>
    obtain ⟨⟨ok, d'⟩, hc, rfl⟩ := Option.map_eq_some_iff.mp hs
    cases ok with
    | false =>
      obtain rfl := hi.rooted.create_false hc
      exact hi
    | true =>
      obtain ⟨hlow, hhigh⟩ := le_toInt_le initialSize
      obtain ⟨i, x, h, hstored, hfree, hlast⟩ := hi.rooted.create_true hlow hhigh hc
      constructor
      · exact hstored.rooted hi.rooted
      · exact fun j hj => (hlast j hj).trans (hi.lastByte j hj)
      · intro k
        rw [hstored.mem_usedNames, ← hi.names]
        exact Finset.mem_insert
      · intro j hj huse
        rcases hstored.used_cases hj huse with rfl | ⟨hji, huse⟩
        · rw [hi.ends_new hstored hlast]
          rcases hok with hfails | hok
          · obtain ⟨d'', hd''⟩ := (hi.rooted.create_false_iff junk name _).mpr hfails
            cases hc.symm.trans hd''
          · exact hok.imp_right fun hzero => hzero j hfree
        · exact hi.ends_old hj huse (hstored.other j hj hji) (hlast j hj)
  | remove junk name =>
    obtain ⟨⟨ok, d'⟩, hr, rfl⟩ := Option.map_eq_some_iff.mp hs
    rcases hi.rooted.remove_table junk name with ⟨hr', -⟩ | ⟨d₁, i, dir, hr', hremoved, hdir, hdir'⟩
    · cases hr'.symm.trans hr
      exact hi
    · cases hr'.symm.trans hr
      have hlast (j : ℕ) (hj : j < numDirEntries) :
          (s.fs.dir d').lastByte j = (s.fs.dir s.disk).lastByte j := by
        have hj' : j < (dir.setInUse i false).tableSize := hj.trans_eq hdir.tableSize.symm
        rw [hdir'.lastByte hj', Directory.lastByte_setInUse, hdir.lastByte hj]
      constructor
      · exact hremoved.rooted hi.rooted
      · exact fun j hj => (hlast j hj).trans (hi.lastByte j hj)
      · intro k
        rw [hremoved.mem_usedNames hi.rooted, ← hi.names]
        exact Finset.mem_erase
      · intro j hj huse
        obtain ⟨hji, huse⟩ := hremoved.used_cases hj huse
        exact hi.ends_old hj huse (hremoved.other j hj hji) (hlast j hj)

/-- A name that goes up to a byte that is not zero has no end. -/
theorem not_showsNames (hi : s.Inv mem) (hok : ¬ e.NameEnds mem s)
    (hs : session.step s e = some s') : ¬ ShowsNames s' := by
  cases e with
  | create junk name initialSize =>
    rw [Edit.NameEnds, not_or, not_or] at hok
    obtain ⟨hfails, hlong, hzero⟩ := hok
    obtain ⟨⟨ok, d'⟩, hc, rfl⟩ := Option.map_eq_some_iff.mp hs
    cases ok with
    | false => exact absurd ((hi.rooted.create_false_iff junk name _).mp ⟨d', hc⟩) hfails
    | true =>
      obtain ⟨hlow, hhigh⟩ := le_toInt_le initialSize
      obtain ⟨i, x, h, hstored, hfree, hlast⟩ := hi.rooted.create_true hlow hhigh hc
      intro hshows
      rcases (hi.ends_new hstored hlast).mp (hshows.ends i hstored.entry_lt hstored.inUse)
        with hshort | hlast
      · exact hlong hshort
      · apply hzero
        intro j hj
        cases hfree.symm.trans hj
        exact hlast
  | remove junk name => exact absurd trivial hok

end Session.Inv

/-- A formatted disk has no names. -/
theorem inv_format {junk : Junk} {d : Disk} (hf : format junk d = some (fs, d')) :
    Session.Inv junk.table ⟨fs, d', ∅⟩ := by
  obtain ⟨fs', d₁, hf', hformatted, htable⟩ := format_table junk d
  cases hf.symm.trans hf'
  constructor
  · exact hformatted.mounted.rooted
  · intro i hi
    rw [htable.lastByte (hi.trans_eq (Directory.tableSize_new _ _).symm), Directory.lastByte_new]
  · intro k
    rw [Directory.mem_usedNames]
    refine iff_of_false (Finset.notMem_empty k) ?_
    rintro ⟨i, hi, huse, -⟩
    cases huse.symm.trans (hformatted.empty i hi)
  · intro i hi huse
    cases huse.symm.trans (hformatted.empty i hi)

theorem session_visits_iff {junk : Junk} {d : Disk} (hf : format junk d = some (fs, d'))
    (es : List Edit) : session.Visits ShowsNames ⟨fs, d', ∅⟩ es ↔
      session.Meets (Edit.NameEnds junk.table) ⟨fs, d', ∅⟩ es := by
  apply Machine.visits_iff_meets (I := Session.Inv junk.table) (fun _ hi => hi.showsNames) ?_ ?_
    (inv_format hf) (Machine.meets_true _ _)
  · exact fun s e s' hi _ hok hs => hi.step hok hs
  · exact fun s e s' hi hok hs => hi.not_showsNames hok hs

/-- On a formatted disk the listing stays right as long as each name of nine characters or more
gets an entry with a zero byte after the name in the memory that was formatted from. -/
theorem list_shows_names_iff (junk : Junk) (d : Disk) :
    ∃ fs d', format junk d = some (fs, d') ∧ ∀ es : List Edit,
      (session.Visits ShowsNames ⟨fs, d', ∅⟩ es ↔
        session.Meets (Edit.NameEnds junk.table) ⟨fs, d', ∅⟩ es) := by
  obtain ⟨fs, d', hf, -⟩ := format_cases junk d
  exact ⟨fs, d', hf, fun es => session_visits_iff hf es⟩

/-- In memory full of ones a name of ten characters has no end. -/
theorem list_overruns_name : ¬ ∀ junk d fs d', format junk d = some (fs, d') →
    ∀ es, session.Visits ShowsNames ⟨fs, d', ∅⟩ es := by
  intro hall
  let junk : Junk := { blank with table := fun _ => 1 }
  let name : Mem := fun k => if k < 10 then 97 else 0
  obtain ⟨fs, d', hf, hformatted⟩ := format_cases junk fun _ _ => 0
  obtain ⟨d₁, i, x, h, hc, -⟩ := hformatted.create blank name
    (show (0 : ℤ) ≤ 200 by decide) (by decide)
  have hstep : session.step ⟨fs, d', ∅⟩ (.create blank name 200) =
      some ⟨fs, d₁, {Directory.key name}⟩ := by
    have hsize : (200 : Int32).toInt = 200 := by decide
    simp only [session, hsize, hc]
    rfl
  have hfree : (fs.dir d').firstFree = some 0 :=
    Directory.firstFree_eq_some.mpr ⟨Nat.succ_pos 9, hformatted.empty 0 (by decide), nofun⟩
  have hno : ¬ Edit.NameEnds junk.table ⟨fs, d', ∅⟩ (.create blank name 200) := by
    rintro (hfails | ⟨k, hk, hzero⟩ | hlast)
    · exact hformatted.not_createFails name (by decide) hfails
    · have hchar : name k = 97 := if_pos (hk.trans (by decide))
      rw [hchar] at hzero
      cases hzero
    · cases hlast 0 hfree
  have hshows := (hall junk _ fs d' hf [.create blank name 200]).2 _ hstep
  exact (inv_format hf).not_showsNames hno hstep hshows

end FileSystem
end Coursework.Nachos
