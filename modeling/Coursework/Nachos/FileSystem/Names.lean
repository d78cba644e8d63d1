import Coursework.Lib.Answers
import Coursework.Lib.BoundedMap
import Coursework.Nachos.FileSystem.Directory

/-!
# A directory is a map from names to sectors

A name counts as far as `strncmp` compares it, and the table has room for as many names as it
has entries. Whatever stale names the free entries have, and whenever the table goes to a file
and comes back, the answers are those of a finite map.
-/
namespace Coursework.Nachos.Directory
open BoundedMap

/-- The characters of a name that count. -/
abbrev key (s : Mem) : List UInt8 := s.text fileNameMaxLen

/-- The name and the sector of an entry in use. -/
def slot (d : Directory) (i : ℕ) : Option (List UInt8 × ℤ) :=
  if d.inUse i then some (key (d.name i), d.sector i) else none

/-- What a directory is asked to do, with the memory that the buffers find. -/
inductive Request where
  | add (name : Mem) (newSector : Int32)
  | remove (name : Mem)
  | find (name : Mem)
  | writeBack (garbage buf : Mem)
  | fetchFrom (buf : Mem)

inductive Answer where
  | bool (b : Bool)
  | sector (x : ℤ)
  | done
  deriving DecidableEq

/-- A directory and the disk that its file is on. -/
structure Site where
  directory : Directory
  disk : Disk

/-- A request, with `file` for the transfers. -/
def Site.serve (file : OpenFile) (s : Site) : Request → Option (Site × Answer)
  | .add name newSector =>
    let result := s.directory.add name newSector.toInt
    some (⟨result.2, s.disk⟩, .bool result.1)
  | .remove name =>
    let result := s.directory.remove name
    some (⟨result.2, s.disk⟩, .bool result.1)
  | .find name => some (s, .sector (s.directory.find name))
  | .writeBack garbage buf =>
    (s.directory.writeBack s.disk file garbage buf).map fun disk => (⟨s.directory, disk⟩, .done)
  | .fetchFrom buf =>
    (s.directory.fetchFrom s.disk file buf).map fun directory => (⟨directory, s.disk⟩, .done)

/-- The request to the map that a request to the directory stands for. -/
def Request.op : Request → Op (List UInt8) ℤ
  | .add name newSector => .add (key name) newSector.toInt
  | .remove name => .remove (key name)
  | .find name => .find (key name)
  | .writeBack _ _ => .save
  | .fetchFrom _ => .restore

/-- The answer of the map in the terms of the directory, where -1 stands for no sector. -/
def Answer.ofResult : Result ℤ → Answer
  | .bool b => .bool b
  | .value v => .sector (v.getD (-1))
  | .done => .done

/-- A request that needs the file. -/
def Request.Transfers : Request → Prop
  | .writeBack _ _ | .fetchFrom _ => True
  | _ => False

/-- A file that has its own sectors and room for the table. -/
structure LargeEnough (file : OpenFile) (tableSize : ℕ) : Prop where
  valid : file.hdr.Valid
  nodup : file.hdr.sectors.Nodup
  numBytes : ((tableSize * entrySize : ℕ) : ℤ) ≤ file.hdr.numBytes

variable {d d' : Directory} {i n : ℕ} {s : Mem} {m : BoundedMap (List UInt8) ℤ} {file : OpenFile}

/-! ### One operation -/

theorem slot_of_free (h : d.inUse i = false) : d.slot i = none :=
  if_neg (Bool.eq_false_iff.mp h)

theorem slot_of_used (h : d.inUse i = true) : d.slot i = some (key (d.name i), d.sector i) :=
  if_pos h

theorem isSome_slot : (d.slot i).isSome ↔ d.inUse i = true := by
  cases h : d.inUse i with
  | false => simp [slot_of_free h]
  | true => simp [slot_of_used h]

theorem key_eq_iff : key (d.name i) = key s ↔ d.fileName i = s.chars fileNameMaxLen :=
  Mem.text_eq_iff

theorem SameEntry.key_eq (h : SameEntry d d' i) : key (d'.name i) = key (d.name i) :=
  Mem.text_eq_iff.mpr h.fileName

theorem SameEntry.slot (h : SameEntry d d' i) : d'.slot i = d.slot i := by
  rw [Directory.slot, Directory.slot, h.inUse, h.sector, h.key_eq]

theorem represents_new (size : ℕ) (garbage : Mem) :
    Represents size (new size garbage).slot (∅ : BoundedMap (List UInt8) ℤ) :=
  .empty fun _ hi => slot_of_free (inUse_new garbage hi)

section Represents
variable (h : Represents d.tableSize d.slot m)
include h

/-- The index of a name is that of the slot with its key. -/
theorem findIndex_slot (s : Mem) :
    (∃ i < d.tableSize, d.findIndex s = some i ∧ d.slot i = some (key s, d.sector i)) ∨
    d.findIndex s = none ∧ key s ∉ m := by
  rcases d.findIndex_cases s with ⟨i, hi, huse, hname, hfind⟩ | ⟨habs, hfind⟩
  · left
    refine ⟨i, hi, hfind, ?_⟩
    rw [slot_of_used huse, key_eq_iff.mpr hname]
  · right
    refine ⟨hfind, h.not_mem fun i hi v hs => ?_⟩
    have huse := isSome_slot.mp (Option.isSome_iff_exists.mpr ⟨_, hs⟩)
    rw [slot_of_used huse] at hs
    exact habs i hi huse (key_eq_iff.mp (Prod.mk.inj (Option.some.inj hs)).1)

theorem find_eq_lookup (s : Mem) : d.find s = (m.lookup (key s)).getD (-1) := by
  rw [find]
  rcases findIndex_slot h s with ⟨i, hi, hfind, hs⟩ | ⟨hfind, hk⟩
  · rw [hfind, h.lookup_of_slot hi hs, Option.getD_some]
  · rw [hfind, Finmap.lookup_eq_none.mpr hk, Option.getD_none]

theorem add_eq (s : Mem) (newSector : Int32) :
    (d.add s newSector.toInt).1 = (BoundedMap.add d.tableSize m (key s) newSector.toInt).1 ∧
      (d.add s newSector.toInt).2.tableSize = d.tableSize ∧
      Represents d.tableSize (d.add s newSector.toInt).2.slot
        (BoundedMap.add d.tableSize m (key s) newSector.toInt).2 := by
  obtain ⟨hlow, hhigh⟩ := le_toInt_le newSector
  rcases findIndex_slot h s with ⟨i, hi, hfind, hs⟩ | ⟨hfind, hk⟩
  · rw [add, hfind, BoundedMap.add, if_pos (.inl (h.mem_of_slot hi hs))]
    exact ⟨rfl, rfl, h⟩
  · rcases add_cases newSector.toInt hlow hhigh hfind
      with ⟨i, hi, hfree, d', hadd, hsize, huse, hsector, hname, hother⟩ | ⟨hfull, hadd⟩
    · have hroom : ¬ d.tableSize ≤ m.keys.card := by
        rw [h.full_iff]
        intro hall
        have hused := isSome_slot.mp (hall i hi)
        rw [hfree] at hused
        cases hused
      rw [hadd, BoundedMap.add, if_neg (not_or.mpr ⟨hk, hroom⟩)]
      refine ⟨rfl, hsize, h.insert hi (slot_of_free hfree) hk ?_ fun j _ hne => (hother j hne).slot⟩
      rw [slot_of_used huse, key_eq_iff.mpr hname, hsector]
    · have hfull := h.full_iff.mpr fun i hi => isSome_slot.mpr (hfull i hi)
      rw [hadd, BoundedMap.add, if_pos (.inr hfull)]
      exact ⟨rfl, rfl, h⟩

theorem remove_eq (s : Mem) : (d.remove s).1 = (BoundedMap.remove m (key s)).1 ∧
    (d.remove s).2.tableSize = d.tableSize ∧
    Represents d.tableSize (d.remove s).2.slot (BoundedMap.remove m (key s)).2 := by
  rcases findIndex_slot h s with ⟨i, hi, hfind, hs⟩ | ⟨hfind, hk⟩
  · rw [remove, hfind, BoundedMap.remove, if_pos (h.mem_of_slot hi hs)]
    exact ⟨rfl, rfl, h.erase hi hs (slot_of_free (inUse_setInUse i false))
      fun j _ hne => (sameEntry_setInUse false hne).slot⟩
  · rw [remove, hfind, BoundedMap.remove, if_neg hk]
    exact ⟨rfl, rfl, h⟩

end Represents

/-- Tables with the same bytes represent the same map. -/
theorem represents_of_agree (h : Represents n d.slot m)
    (ha : Mem.Agree (n * entrySize) d'.table d.table) : Represents n d'.slot m :=
  h.congr fun _ hi => (SameEntry.of_table hi ha).slot

/-! ### Runs -/

/-- The directory represents the map, and what is in the file the one that was saved. -/
structure Shows (file : OpenFile) (n : ℕ) (s : Site) (t : State (List UInt8) ℤ) : Prop where
  tableSize : s.directory.tableSize = n
  map : Represents n s.directory.slot t.map
  saved : ∀ m, t.saved = some m → Represents n (Directory.mk n (OpenFile.content s.disk file.hdr)).slot m

theorem serve_shows {s : Site} {t t' : State (List UInt8) ℤ} {r : Request} {a : Result ℤ}
    (hs : Shows file n s t) (hr : r.Transfers → LargeEnough file n)
    (ht : BoundedMap.step n t r.op = some (t', a)) :
    ∃ s', s.serve file r = some (s', .ofResult a) ∧ Shows file n s' t' := by
  obtain ⟨d, disk⟩ := s
  obtain ⟨hsize, hmap, hsaved⟩ := hs
  simp only at hsize hmap hsaved
  subst hsize
  cases r with
  | add name newSector =>
    cases ht
    obtain ⟨hresult, hsize, hmap'⟩ := add_eq hmap name newSector
    refine ⟨⟨(d.add name newSector.toInt).2, disk⟩, ?_, hsize, hmap', hsaved⟩
    rw [Site.serve, hresult]
    rfl
  | remove name =>
    cases ht
    obtain ⟨hresult, hsize, hmap'⟩ := remove_eq hmap name
    refine ⟨⟨(d.remove name).2, disk⟩, ?_, hsize, hmap', hsaved⟩
    rw [Site.serve, hresult]
    rfl
  | find name =>
    cases ht
    refine ⟨⟨d, disk⟩, ?_, rfl, hmap, hsaved⟩
    rw [Site.serve, find_eq_lookup hmap]
    rfl
  | writeBack garbage buf =>
    cases ht
    obtain ⟨hv, hnodup, hlen⟩ := hr trivial
    obtain ⟨disk', hdisk, -, hagree⟩ := OpenFile.writeAt_start (d := disk) garbage buf d.table hv
      hnodup hlen
    refine ⟨⟨d, disk'⟩, ?_, rfl, hmap, fun m hm => ?_⟩
    · rw [Site.serve, writeBack, hdisk]
      rfl
    · cases hm
      exact represents_of_agree hmap hagree
  | fetchFrom buf =>
    obtain ⟨m, hm, heq⟩ := Option.map_eq_some_iff.mp ht
    cases heq
    obtain ⟨hv, -, hlen⟩ := hr trivial
    refine ⟨⟨⟨d.tableSize, d.table.copy 0 (d.tableSize * entrySize)
      (OpenFile.content disk file.hdr)⟩, disk⟩, ?_, rfl, ?_, hsaved⟩
    · rw [Site.serve, fetchFrom, OpenFile.readAt_start hv hlen]
      rfl
    · exact represents_of_agree (hsaved m hm) Mem.agree_copy

theorem add_false {name : Mem} {newSector : ℤ} (h : (d.add name newSector).1 = false) :
    (d.add name newSector).2 = d := by
  rw [add] at h ⊢
  split at h
  · rfl
  · split at h
    · cases h
    · rfl

/-- The answers of a directory that starts empty are those of a map that starts empty, and a name
that is not added changes nothing. -/
theorem directory_answers_as_map (size : ℕ) (garbage : Mem) (disk : Disk) (file : OpenFile)
    (reqs : List Request) (hfile : ∀ r ∈ reqs, r.Transfers → LargeEnough file size)
    (hsaved : ∀ l buf r, reqs = l ++ .fetchFrom buf :: r → ∃ garbage buf', .writeBack garbage buf' ∈ l) :
    ∃ s t results, answers (Site.serve file) ⟨new size garbage, disk⟩ reqs =
        some (s, results.map Answer.ofResult) ∧
      answers (BoundedMap.step size) ⟨∅, none⟩ (reqs.map Request.op) = some (t, results) ∧
      ∀ name newSector, (s.directory.add name newSector).1 = false →
        (s.directory.add name newSector).2 = s.directory := by
  have hshows : Shows file size ⟨new size garbage, disk⟩ ⟨∅, none⟩ :=
    ⟨tableSize_new size garbage, represents_new size garbage, nofun⟩
  have hsave : ∀ l r, reqs.map Request.op = l ++ .restore :: r → .save ∈ l := by
    intro l r heq
    obtain ⟨l', r', rfl, rfl, hr'⟩ := List.map_eq_append_iff.mp heq
    obtain ⟨e, r'', rfl, he, -⟩ := List.map_eq_cons_iff.mp hr'
    cases e with
    | fetchFrom buf =>
      obtain ⟨garbage, buf', hmem⟩ := hsaved l' buf r'' rfl
      exact List.mem_map.mpr ⟨_, hmem, rfl⟩
    | add | remove | find | writeBack => cases he
  obtain ⟨t, results, hmap⟩ := answers_of_saved (n := size) (s := ⟨∅, none⟩) fun _ => hsave
  obtain ⟨s, hs, -⟩ := answers_simulate (R := Shows file size)
    (P := fun r : Request => r.Transfers → LargeEnough file size)
    (fun _ _ _ _ _ hr hp ht => serve_shows hr hp ht) hshows hfile hmap
  exact ⟨s, t, results, hs, hmap, fun name newSector => add_false⟩

/-- In a table of one entry a second name finds no room, and a name that was removed is back when
the table is read from the file. -/
theorem directory_answers_as_map_one :
    ∃ file s, answers (Site.serve file) ⟨new 1 fun _ => 255, fun _ _ => 0⟩
      [.add (fun _ => 97) 7, .add (fun _ => 98) 8, .writeBack (fun _ => 0) fun _ => 0,
        .remove fun _ => 97, .fetchFrom fun _ => 0, .find fun _ => 97] =
      some (s, [.bool true, .bool false, .done, .bool true, .done, .sector 7]) := by
  let file : OpenFile := ⟨⟨200, 2, fun k => if k = 0 then 5 else 9⟩, 0⟩
  have hlarge : LargeEnough file 1 :=
    ⟨⟨by decide, by decide, by decide, by decide, by decide⟩, by decide, by decide⟩
  obtain ⟨s, t, results, hs, hmap, -⟩ := directory_answers_as_map 1 (fun _ => 255) (fun _ _ => 0)
    file [.add (fun _ => 97) 7, .add (fun _ => 98) 8, .writeBack (fun _ => 0) fun _ => 0,
      .remove fun _ => 97, .fetchFrom fun _ => 0, .find fun _ => 97] (fun _ _ _ => hlarge)
    fun l buf r heq => by
      rcases l with _ | ⟨a, _ | ⟨b, _ | ⟨c, l⟩⟩⟩
      · cases heq
      · cases heq
      · cases heq
      · simp only [List.cons_append, List.cons.injEq] at heq
        obtain ⟨-, -, rfl, -⟩ := heq
        exact ⟨_, _, .tail _ (.tail _ List.mem_cons_self)⟩
  have hresults : some results = some [.bool true, .bool false, .done, .bool true, .done,
      .value (some 7)] := congrArg (Option.map Prod.snd) hmap.symm
  cases hresults
  exact ⟨file, s, hs⟩

end Coursework.Nachos.Directory
