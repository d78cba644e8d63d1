import Coursework.Nachos.FileSystem.OpenFile

/-!
# The directory of `directory.cc`

The table of entries is read from a file and written to it byte for byte, so the table is kept
as its memory. An entry has 20 bytes: `inUse` at 0, `sector` at 4 and `name` at 8; the others
are never used.
-/
namespace Coursework.Nachos

/-- `class Directory` -/
structure Directory where
  tableSize : ℕ
  table : Mem

namespace Directory

def fileNameMaxLen : ℕ := 9

/-- `sizeof(DirectoryEntry)` -/
def entrySize : ℕ := 20

def inUse (d : Directory) (i : ℕ) : Bool := d.table (entrySize * i) ≠ 0

def sector (d : Directory) (i : ℕ) : ℤ := (d.table.word (entrySize * i + 4)).toInt

/-- The pointer `table[i].name`. -/
def name (d : Directory) (i : ℕ) : Mem := d.table.drop (entrySize * i + 8)

/-- `table[i].inUse = b` -/
def setInUse (d : Directory) (i : ℕ) (b : Bool) : Directory :=
  { d with table := d.table.copy (entrySize * i) 1 fun _ => if b then 1 else 0 }

/-- `strncpy(table[i].name, s, FileNameMaxLen)` -/
def setName (d : Directory) (i : ℕ) (s : Mem) : Directory :=
  { d with table := d.table.strncpy (entrySize * i + 8) s fileNameMaxLen }

/-- `table[i].sector = newSector` -/
def setSector (d : Directory) (i : ℕ) (newSector : ℤ) : Directory :=
  { d with table := d.table.copy (entrySize * i + 4) 4 (byteOf (.ofInt 32 newSector)) }

/-- The constructor, in new memory. -/
def new (size : ℕ) (garbage : Mem) : Directory :=
  (List.range size).foldl (fun d i => d.setInUse i false) ⟨size, garbage⟩

def fetchFrom (d : Directory) (disk : Disk) (file : OpenFile) (buf : Mem) : Option Directory := do
  let (table, _) ← file.readAt disk buf d.table (d.tableSize * entrySize : ℕ) 0
  some { d with table := table }

def writeBack (d : Directory) (disk : Disk) (file : OpenFile) (garbage buf : Mem) :
    Option Disk := do
  let (disk, _) ← file.writeAt disk garbage buf d.table (d.tableSize * entrySize : ℕ) 0
  some disk

/-- `none` stands for -1. -/
def findIndex (d : Directory) (s : Mem) : Option ℕ :=
  (List.range d.tableSize).find? fun i =>
    d.inUse i && decide (Mem.strncmp (d.name i) s fileNameMaxLen = 0)

def find (d : Directory) (s : Mem) : ℤ :=
  match d.findIndex s with
  | some i => d.sector i
  | none => -1

def add (d : Directory) (s : Mem) (newSector : ℤ) : Bool × Directory :=
  match d.findIndex s with
  | some _ => (false, d)
  | none =>
    match (List.range d.tableSize).find? fun i => !d.inUse i with
    | some i => (true, ((d.setInUse i true).setName i s).setSector i newSector)
    | none => (false, d)

def remove (d : Directory) (s : Mem) : Bool × Directory :=
  match d.findIndex s with
  | some i => (true, d.setInUse i false)
  | none => (false, d)

/-! ### Entries -/

/-- The name of an entry as far as it is compared. -/
def fileName (d : Directory) (i : ℕ) : Mem := (d.name i).chars fileNameMaxLen

/-- The same entry in two tables. -/
structure SameEntry (d d' : Directory) (i : ℕ) : Prop where
  inUse : d'.inUse i = d.inUse i
  sector : d'.sector i = d.sector i
  fileName : d'.fileName i = d.fileName i

variable {d d' : Directory} {i j n : ℕ} {s : Mem} {newSector : ℤ}

theorem SameEntry.of_agree
    (h : ∀ k < entrySize, d'.table (entrySize * i + k) = d.table (entrySize * i + k)) :
    SameEntry d d' i where
  inUse := by
    have h0 := h 0 (by decide)
    rw [Nat.add_zero] at h0
    rw [Directory.inUse, Directory.inUse, h0]
  sector := by
    rw [Directory.sector, Directory.sector]
    congr 1
    apply Mem.word_congr
    intro k hk
    rw [Nat.add_assoc]
    exact h _ (by rw [entrySize]; omega)
  fileName := by
    apply Mem.chars_congr
    intro k hk
    rw [Directory.name, Directory.name, Mem.drop, Mem.drop, Nat.add_assoc]
    exact h _ (by rw [entrySize]; rw [fileNameMaxLen] at hk; omega)

/-- The entries of a table are given by its memory. -/
theorem SameEntry.of_table (hi : i < n) (h : Mem.Agree (n * entrySize) d'.table d.table) :
    SameEntry d d' i := by
  apply SameEntry.of_agree
  intro k hk
  rw [entrySize] at *
  exact h _ (by omega)

theorem SameEntry.trans {d'' : Directory} (h : SameEntry d d' i) (h' : SameEntry d' d'' i) :
    SameEntry d d'' i :=
  ⟨h'.inUse.trans h.inUse, h'.sector.trans h.sector, h'.fileName.trans h.fileName⟩

theorem setInUse_table (i : ℕ) (b : Bool) : (d.setInUse i b).table =
    d.table.copy (entrySize * i) 1 fun _ => if b then 1 else 0 := rfl

theorem setName_table (i : ℕ) (s : Mem) : (d.setName i s).table =
    d.table.strncpy (entrySize * i + 8) s fileNameMaxLen := rfl

theorem setSector_table (i : ℕ) (newSector : ℤ) : (d.setSector i newSector).table =
    d.table.copy (entrySize * i + 4) 4 (byteOf (.ofInt 32 newSector)) := rfl

theorem inUse_setInUse (i : ℕ) (b : Bool) : (d.setInUse i b).inUse i = b := by
  rw [inUse, setInUse_table, Mem.copy_of_mem (by omega) (by omega)]
  cases b <;> rfl

theorem sameEntry_setInUse (b : Bool) (h : j ≠ i) : SameEntry d (d.setInUse i b) j := by
  apply SameEntry.of_agree
  intro k hk
  rw [entrySize] at *
  rw [setInUse_table]
  exact Mem.copy_of_not_mem (by rw [entrySize]; omega)

theorem inUse_new (garbage : Mem) (hi : i < n) : (new n garbage).inUse i = false := by
  have hall (k : ℕ) (hk : k ≤ n) : ∀ i < k, ((List.range k).foldl (fun d i => d.setInUse i false)
      (Directory.mk n garbage)).inUse i = false := by
    induction k with
    | zero => exact nofun
    | succ k ih =>
      intro i hi
      rw [List.range_succ, List.foldl_append, List.foldl_cons, List.foldl_nil]
      by_cases hik : i = k
      · rw [hik, inUse_setInUse]
      · rw [(sameEntry_setInUse false hik).inUse]
        exact ih (by omega) i (by omega)
  exact hall n le_rfl i hi

theorem tableSize_new (n : ℕ) (garbage : Mem) : (new n garbage).tableSize = n := by
  have hall (l : List ℕ) (d : Directory) :
      (l.foldl (fun d i => d.setInUse i false) d).tableSize = d.tableSize := by
    induction l generalizing d with
    | nil => rfl
    | cons i l ih => exact ih _
  exact hall _ _

/-! ### Looking up, adding and removing a name -/

theorem findIndex_cases (d : Directory) (s : Mem) :
    (∃ i < d.tableSize, d.inUse i = true ∧ d.fileName i = s.chars fileNameMaxLen ∧
      d.findIndex s = some i) ∨
    (∀ i < d.tableSize, d.inUse i = true → d.fileName i ≠ s.chars fileNameMaxLen) ∧
      d.findIndex s = none := by
  rw [findIndex]
  cases h : (List.range d.tableSize).find? fun i =>
      d.inUse i && decide (Mem.strncmp (d.name i) s fileNameMaxLen = 0) with
  | some i =>
    have hi := List.mem_range.mp (List.mem_of_find?_eq_some h)
    have hmatch := List.find?_some h
    rw [Bool.and_eq_true, decide_eq_true_eq, Mem.strncmp_eq_zero] at hmatch
    exact .inl ⟨i, hi, hmatch.1, hmatch.2, rfl⟩
  | none =>
    right
    refine ⟨fun i hi huse hname => ?_, rfl⟩
    have hmatch := List.find?_eq_none.mp h i (List.mem_range.mpr hi)
    rw [Bool.and_eq_true, decide_eq_true_eq, Mem.strncmp_eq_zero] at hmatch
    exact hmatch ⟨huse, hname⟩

/-- `Add` of a name that is not in the table fills a free entry, or the table is full. -/
theorem add_cases (newSector : ℤ) (hlow : -intMax - 1 ≤ newSector) (hhigh : newSector ≤ intMax)
    (hnew : d.findIndex s = none) :
    (∃ i < d.tableSize, d.inUse i = false ∧ ∃ d', d.add s newSector = (true, d') ∧
      d'.tableSize = d.tableSize ∧ d'.inUse i = true ∧ d'.sector i = newSector ∧
      d'.fileName i = s.chars fileNameMaxLen ∧ ∀ j, j ≠ i → SameEntry d d' j) ∨
    (∀ i < d.tableSize, d.inUse i = true) ∧ d.add s newSector = (false, d) := by
  rw [add, hnew]
  simp only
  cases h : (List.range d.tableSize).find? fun i => !d.inUse i with
  | some i =>
    have hi := List.mem_range.mp (List.mem_of_find?_eq_some h)
    have huse := List.find?_some h
    left
    refine ⟨i, hi, by simpa using huse, _, rfl, rfl, ?_, ?_, ?_, fun j hj => ?_⟩
    · rw [inUse, setSector_table, Mem.copy_of_not_mem (by omega), setName_table, Mem.strncpy,
        Mem.copy_of_not_mem (by omega)]
      exact inUse_setInUse i true
    · rw [sector, setSector_table, Mem.word_of_bytes (w := .ofInt 32 newSector),
        FileHeader.toInt_ofInt hlow hhigh]
      intro k hk
      rw [Mem.copy_of_mem (by omega) (by omega), Nat.add_sub_cancel_left]
    · have hcopy : Mem.Agree fileNameMaxLen
          ((((d.setInUse i true).setName i s).setSector i newSector).name i)
          (((d.setInUse i true).setName i s).name i) := by
        intro k hk
        exact Mem.copy_of_not_mem (by omega)
      rw [fileName, Mem.chars_congr hcopy, name, setName_table, Mem.chars_strncpy]
    · apply (sameEntry_setInUse true hj).trans
      apply SameEntry.of_agree
      intro k hk
      rw [entrySize] at hk
      rw [setSector_table, Mem.copy_of_not_mem (by rw [entrySize]; omega), setName_table, Mem.strncpy,
        Mem.copy_of_not_mem (by rw [entrySize, fileNameMaxLen]; omega)]
  | none =>
    right
    refine ⟨fun i hi => ?_, rfl⟩
    have huse := List.find?_range_eq_none.mp h i hi
    rwa [Bool.not_not] at huse

end Directory
end Coursework.Nachos
