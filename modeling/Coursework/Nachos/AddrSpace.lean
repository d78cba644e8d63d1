import Coursework.Nachos.Bin.Noff
import Coursework.Nachos.FileSystem.OpenFile
import Coursework.Nachos.Mipssim.ByteOrder

/-!
# Loading a program, after `addrspace.cc`

The constructor reads the header of the executable, clears as many pages as the sizes ask for and
reads two segments to the addresses in the header. Nothing compares the addresses with the size,
or the sizes with the file. The program is loaded as it should be exactly when both segments lie
in the file and in the address space, and agree where they overlap.
-/
namespace Coursework.Nachos
open Mips (Word)
open Mipssim (TranslationEntry addrSpace pageSize numPhysPages wordToHost wordToHost_load
  hostBytes)

/-- `class OpenFile` of either kind: a file on the simulated disk, or, where there is no file
system yet, the content of a file of the host. -/
inductive Executable where
  | filesys (f : OpenFile) (d : Disk)
  | stub (content : List UInt8)

namespace Executable

/-- `none` stands for what is undefined and for a failed assertion of `Lseek`; `buf` is the new
buffer of `OpenFile::ReadAt`. -/
def readAt (buf into : Mem) (numBytes position : ℤ) : Executable → Option (Mem × ℕ)
  | filesys f d => f.readAt d buf into numBytes position
  | stub content =>
    if position < 0 then none
    else
      let n := min numBytes.toNat (content.length - position.toNat)
      some (into.copy 0 n (Mem.drop (fun j => content.getD j 0) position.toNat), n)

def length : Executable → ℤ
  | filesys f _ => f.hdr.numBytes
  | stub content => content.length

def content : Executable → Mem
  | filesys f d => OpenFile.content d f.hdr
  | stub content => fun j => content.getD j 0

/-- The header of the file describes sectors that exist. -/
def WellFormed : Executable → Prop
  | filesys f _ => f.hdr.Valid
  | stub _ => True

end Executable

namespace AddrSpace

def swapSegment (bigEndian : Bool) (s : Segment) : Segment where
  virtualAddr := wordToHost bigEndian s.virtualAddr
  inFileAddr := wordToHost bigEndian s.inFileAddr
  size := wordToHost bigEndian s.size

def swapHeader (bigEndian : Bool) (noffH : NoffHeader) : NoffHeader where
  noffMagic := wordToHost bigEndian noffH.noffMagic
  code := swapSegment bigEndian noffH.code
  initData := swapSegment bigEndian noffH.initData
  uninitData := swapSegment bigEndian noffH.uninitData

/-- The header of the executable; `garbage` is what `noffH` and the buffers have in them before. -/
def readHeader (bigEndian : Bool) (executable : Executable) (garbage : ℕ → Mem) :
    Option NoffHeader := do
  let (noffH, _) ← executable.readAt (garbage 1) (garbage 0) NoffHeader.sizeOf 0
  let noffH := NoffHeader.ofWords fun k => (hostBytes bigEndian noffH (4 * k) 4).word 0
  some (if noffH.noffMagic ≠ noffMagic ∧ wordToHost bigEndian noffH.noffMagic = noffMagic then
    swapHeader bigEndian noffH else noffH)

end AddrSpace

def userStackSize : Word := 1024

/-- The sum of the sizes wraps. -/
def NoffHeader.numPages (noffH : NoffHeader) : ℕ :=
  let size := noffH.code.size + noffH.initData.size + noffH.uninitData.size + userStackSize
  (divRoundUp size.toNat pageSize).toNat

/-- The object and the memory of the machine, by index from `mainMemory` on. The ranges that are
written are recorded: the first index and the number of bytes. -/
structure AddrSpace where
  numPages : ℕ
  pageTable : List TranslationEntry
  mainMemory : ℤ → UInt8
  written : List (ℤ × ℕ)

namespace AddrSpace

/-- How the constructor ends before its end. -/
inductive Stop where
  /-- An `ASSERT` of the constructor, all of which come before memory is written. -/
  | assertFailed
  | undefined
  deriving DecidableEq

def defined {α : Type} : Option α → Except Stop α
  | none => .error .undefined
  | some a => .ok a

/-- The code segment and the data segment are read in the same way. -/
def readSegment (executable : Executable) (buf : Mem) (seg : Segment) (space : AddrSpace) :
    Option AddrSpace :=
  if seg.size.toInt > 0 then do
    let base := seg.virtualAddr.toInt
    let (into, n) ← executable.readAt buf (fun j => space.mainMemory (base + j)) seg.size.toInt
      seg.inFileAddr.toInt
    some { space with
      mainMemory := fun i => if base ≤ i then into (i - base).toNat else space.mainMemory i
      written := space.written ++ [(base, n)] }
  else some space

/-- The translation is set up, and the pages are zeroed. -/
def cleared (numPages : ℕ) (mainMemory : ℤ → UInt8) : AddrSpace where
  numPages := numPages
  pageTable := addrSpace numPages
  mainMemory i := if 0 ≤ i ∧ i < numPages * pageSize then 0 else mainMemory i
  written := [(0, numPages * pageSize)]

/-- The constructor; `mainMemory` is the memory before. -/
def new (bigEndian : Bool) (executable : Executable) (garbage : ℕ → Mem) (mainMemory : ℤ → UInt8) :
    Except Stop AddrSpace := do
  let noffH ← defined (readHeader bigEndian executable garbage)
  if noffH.noffMagic ≠ noffMagic then throw .assertFailed
  if noffH.numPages > numPhysPages then throw .assertFailed
  let space := cleared noffH.numPages mainMemory
  let space ← defined (space.readSegment executable (garbage 2) noffH.code)
  defined (space.readSegment executable (garbage 3) noffH.initData)

end AddrSpace

/-! ### Programs that are loaded -/

namespace Segment

/-- There is a byte of the segment at address `i`. -/
def Covers (seg : Segment) (i : ℤ) : Prop :=
  seg.virtualAddr.toInt ≤ i ∧ i < seg.virtualAddr.toInt + seg.size.toInt

/-- The position in the file of the byte at address `i`. -/
def inFile (seg : Segment) (i : ℤ) : ℤ := seg.inFileAddr.toInt + (i - seg.virtualAddr.toInt)

/-- The segment is empty, or it lies in the file and in the pages. -/
def Inside (executable : Executable) (numPages : ℕ) (seg : Segment) : Prop :=
  0 < seg.size.toInt →
    0 ≤ seg.inFileAddr.toInt ∧ seg.inFileAddr.toInt + seg.size.toInt ≤ executable.length ∧
      0 ≤ seg.virtualAddr.toInt ∧ seg.virtualAddr.toInt + seg.size.toInt ≤ numPages * pageSize

end Segment

namespace AddrSpace

/-- Each byte of the segment is in the file and stands at its address below the bound. -/
def Holds (executable : Executable) (seg : Segment) (space : AddrSpace) : Prop :=
  ∀ i, seg.Covers i → 0 ≤ i ∧ i < space.numPages * pageSize ∧
    0 ≤ seg.inFile i ∧ seg.inFile i < executable.length ∧
    space.mainMemory i = executable.content (seg.inFile i).toNat

/-- The pages are part of the memory, nothing else is written, and what is there is the program. -/
structure Loaded (executable : Executable) (noffH : NoffHeader) (space : AddrSpace) : Prop where
  numPages_le : space.numPages ≤ numPhysPages
  written : ∀ r ∈ space.written, ∀ i, r.1 ≤ i → i < r.1 + r.2 →
    0 ≤ i ∧ i < space.numPages * pageSize
  code : space.Holds executable noffH.code
  initData : space.Holds executable noffH.initData
  zero : ∀ i : ℤ, 0 ≤ i → i < space.numPages * pageSize → ¬ noffH.code.Covers i →
    ¬ noffH.initData.Covers i → space.mainMemory i = 0

/-- The constructor stops at an `ASSERT`, or the program is loaded. -/
def Safe (executable : Executable) (noffH : NoffHeader) : Except Stop AddrSpace → Prop
  | .error .assertFailed => True
  | .error .undefined => False
  | .ok space => space.Loaded executable noffH

/-- Both segments lie in the file and in the pages, and agree where they overlap. -/
structure Fits (executable : Executable) (noffH : NoffHeader) : Prop where
  code : noffH.code.Inside executable noffH.numPages
  initData : noffH.initData.Inside executable noffH.numPages
  agree : ∀ i, noffH.code.Covers i → noffH.initData.Covers i →
    executable.content (noffH.code.inFile i).toNat =
      executable.content (noffH.initData.inFile i).toNat

variable {executable : Executable} {noffH : NoffHeader} {seg : Segment} {space space' : AddrSpace}
  {garbage : ℕ → Mem} {mainMemory : ℤ → UInt8} {buf into : Mem} {numBytes position : ℤ}
  {numPages : ℕ} {bigEndian : Bool}

/-! ### Segments -/

theorem readAt_inside (hwf : executable.WellFormed) (hn : 0 < numBytes) (hpos : 0 ≤ position)
    (hle : position + numBytes ≤ executable.length) :
    executable.readAt buf into numBytes position =
      some (into.copy 0 numBytes.toNat (executable.content.drop position.toNat),
        numBytes.toNat) := by
  cases executable with
  | filesys f d =>
    have hle' : position + numBytes ≤ f.hdr.numBytes := hle
    have hmax := FileHeader.Valid.numBytes_le hwf
    have hclip : f.clip numBytes position = some numBytes.toNat := by
      rw [OpenFile.clip_eq hn hpos (by omega) (by unfold intMax; omega), min_eq_left (by omega)]
    exact OpenFile.readAt_eq hwf hclip (by omega)
  | stub content =>
    have hle' : position + numBytes ≤ content.length := hle
    have hmin : min numBytes.toNat (content.length - position.toNat) = numBytes.toNat := by omega
    rw [Executable.readAt, if_neg (not_lt.mpr hpos), hmin]
    rfl

/-- A header with the right magic number is read from its words on a host of either byte order. -/
theorem readHeader_words (hwf : executable.WellFormed)
    (hlen : (NoffHeader.sizeOf : ℤ) ≤ executable.length)
    (hwords : ∀ j < NoffHeader.sizeOf, executable.content j = Mem.words noffH.toWords j)
    (hmagic : noffH.noffMagic = noffMagic) :
    readHeader bigEndian executable garbage = some noffH := by
  rw [readHeader, readAt_inside hwf (by decide) le_rfl (by rwa [Int.zero_add])]
  simp only [Option.bind_eq_bind, Option.bind_some]
  generalize hmem : (garbage 0).copy 0 (NoffHeader.sizeOf : ℤ).toNat
    (executable.content.drop (0 : ℤ).toNat) = mem
  have hword (k : ℕ) (hk : k < 10) :
      wordToHost bigEndian ((hostBytes bigEndian mem (4 * k) 4).word 0) =
        noffH.toWords.getD k 0 := by
    rw [wordToHost_load, ← Mem.word_words]
    apply Mem.word_congr
    intro i hi
    rw [NoffHeader.sizeOf] at hwords hmem
    rw [← hmem, Mem.copy_of_mem (by omega) (by omega), Mem.drop, ← hwords _ (by omega)]
    congr 1
    omega
  have hheader : swapHeader bigEndian
      (.ofWords fun k => (hostBytes bigEndian mem (4 * k) 4).word 0) = noffH :=
    (NoffHeader.ofWords_congr hword).trans noffH.ofWords_toWords
  cases bigEndian with
  | false =>
    -- the host has the byte order of the file
    have hsame : NoffHeader.ofWords (fun k => (hostBytes false mem (4 * k) 4).word 0) = noffH :=
      hheader
    rw [hsame, if_neg fun h => h.1 hmagic]
  | true =>
    have hmagic' : wordToHost true ((hostBytes true mem (4 * 0) 4).word 0) = noffMagic :=
      (hword 0 (by decide)).trans hmagic
    rw [if_pos, hheader]
    refine ⟨fun h => ?_, hmagic'⟩
    have hturned : wordToHost true noffMagic = noffMagic :=
      (congrArg (wordToHost true) h).symm.trans hmagic'
    exact absurd hturned (by decide)

theorem readSegment_numPages (h : space.readSegment executable buf seg = some space') :
    space'.numPages = space.numPages := by
  rw [readSegment] at h
  split_ifs at h
  · obtain ⟨⟨into, n⟩, -, h⟩ := Option.bind_eq_some_iff.mp h
    cases h
    rfl
  · cases h
    rfl

theorem readSegment_pageTable (h : space.readSegment executable buf seg = some space') :
    space'.pageTable = space.pageTable := by
  rw [readSegment] at h
  split_ifs at h
  · obtain ⟨⟨into, n⟩, -, h⟩ := Option.bind_eq_some_iff.mp h
    cases h
    rfl
  · cases h
    rfl

theorem readSegment_eq (space : AddrSpace) (buf : Mem) (hwf : executable.WellFormed)
    (hsize : 0 < seg.size.toInt) (hpos : 0 ≤ seg.inFileAddr.toInt)
    (hle : seg.inFileAddr.toInt + seg.size.toInt ≤ executable.length) :
    space.readSegment executable buf seg = some { space with
      mainMemory := fun i => if seg.virtualAddr.toInt ≤ i then
        Mem.copy (fun j => space.mainMemory (seg.virtualAddr.toInt + j)) 0 seg.size.toInt.toNat
          (executable.content.drop seg.inFileAddr.toInt.toNat) (i - seg.virtualAddr.toInt).toNat
        else space.mainMemory i
      written := space.written ++ [(seg.virtualAddr.toInt, seg.size.toInt.toNat)] } := by
  simp only [readSegment, if_pos hsize, readAt_inside hwf hsize hpos hle, Option.bind_eq_bind,
    Option.bind_some]

/-- What is at the addresses of the segment comes from the file, and the rest is as it was. -/
theorem readSegment_inside (space : AddrSpace) (buf : Mem) (hwf : executable.WellFormed)
    (hin : seg.Inside executable numPages) :
    ∃ space', space.readSegment executable buf seg = some space' ∧
      space'.numPages = space.numPages ∧
      (∀ r ∈ space'.written, r ∈ space.written ∨
        ∀ i, r.1 ≤ i → i < r.1 + r.2 → seg.Covers i) ∧
      (∀ i, seg.Covers i →
        space'.mainMemory i = executable.content (seg.inFile i).toNat) ∧
      ∀ i, ¬ seg.Covers i → space'.mainMemory i = space.mainMemory i := by
  by_cases hsize : 0 < seg.size.toInt
  · obtain ⟨hpos, hle, -, -⟩ := hin hsize
    refine ⟨_, readSegment_eq space buf hwf hsize hpos hle, rfl, fun r hr => ?_, fun i hi => ?_,
      fun i hi => ?_⟩
    · rcases List.mem_append.mp hr with hr | hr
      · exact .inl hr
      · right
        obtain rfl := List.mem_singleton.mp hr
        intro i hbase hlt
        rw [Int.toNat_of_nonneg (le_of_lt hsize)] at hlt
        exact ⟨hbase, hlt⟩
    · obtain ⟨hbase, hlt⟩ := hi
      simp only [if_pos hbase]
      rw [Mem.copy_of_mem (by omega) (by omega), Mem.drop, Segment.inFile]
      congr 1
      omega
    · simp only [Segment.Covers, not_and_or, not_le, not_lt] at hi
      by_cases hbase : seg.virtualAddr.toInt ≤ i
      · simp only [if_pos hbase]
        rw [Mem.copy_of_not_mem (by omega), Int.toNat_of_nonneg (by omega), add_sub_cancel]
      · simp only [if_neg hbase]
  · refine ⟨space, if_neg hsize, rfl, fun r hr => .inl hr, fun i hi => ?_, fun i hi => rfl⟩
    obtain ⟨hbase, hlt⟩ := hi
    omega

/-! ### The constructor -/

theorem new_eq (hread : readHeader bigEndian executable garbage = some noffH)
    (hmagic : noffH.noffMagic = noffMagic) :
    new bigEndian executable garbage mainMemory =
      if noffH.numPages > numPhysPages then .error .assertFailed
      else defined (((cleared noffH.numPages mainMemory).readSegment executable (garbage 2)
        noffH.code).bind fun space => space.readSegment executable (garbage 3) noffH.initData) := by
  rw [new, hread]
  simp only [defined, bind, Except.bind]
  rw [if_neg (not_not.mpr hmagic)]
  by_cases hpages : noffH.numPages > numPhysPages
  · rw [if_pos hpages, if_pos hpages]
    rfl
  · rw [if_neg hpages, if_neg hpages]
    cases (cleared noffH.numPages mainMemory).readSegment executable (garbage 2) noffH.code <;> rfl

theorem cleared_zero {i : ℤ} (h0 : 0 ≤ i) (hbound : i < numPages * pageSize) :
    (cleared numPages mainMemory).mainMemory i = 0 := by
  simp only [cleared, h0, hbound, and_self, if_true]

theorem cleared_written {r : ℤ × ℕ} {i : ℤ} (hr : r ∈ (cleared numPages mainMemory).written)
    (hlow : r.1 ≤ i) (hhigh : i < r.1 + r.2) : 0 ≤ i ∧ i < numPages * pageSize := by
  simp only [cleared, List.mem_singleton] at hr
  simp only [hr, zero_add, Nat.cast_mul] at hlow hhigh
  exact ⟨hlow, hhigh⟩

theorem new_fits (hwf : executable.WellFormed)
    (hread : readHeader bigEndian executable garbage = some noffH)
    (hmagic : noffH.noffMagic = noffMagic) (hpages : noffH.numPages ≤ numPhysPages)
    (hfits : Fits executable noffH) :
    Safe executable noffH (new bigEndian executable garbage mainMemory) := by
  obtain ⟨space₁, h₁, hpages₁, hwritten₁, hin₁, hout₁⟩ :=
    readSegment_inside (cleared noffH.numPages mainMemory) (garbage 2) hwf hfits.code
  obtain ⟨space₂, h₂, hpages₂, hwritten₂, hin₂, hout₂⟩ :=
    readSegment_inside space₁ (garbage 3) hwf hfits.initData
  rw [new_eq hread hmagic, if_neg (not_lt.mpr hpages), h₁, Option.bind_some, h₂]
  have hnum : space₂.numPages = noffH.numPages := by rw [hpages₂, hpages₁, cleared]
  have hinside {seg : Segment} (hseg : seg.Inside executable noffH.numPages) (i : ℤ)
      (hi : seg.Covers i) : 0 ≤ i ∧ i < space₂.numPages * pageSize ∧
      0 ≤ seg.inFile i ∧ seg.inFile i < executable.length := by
    obtain ⟨hbase, hlt⟩ := hi
    obtain ⟨hpos, hle, hva, hend⟩ := hseg (by omega)
    rw [hnum, Segment.inFile]
    omega
  change space₂.Loaded executable noffH
  constructor
  · rw [hnum]
    exact hpages
  · intro r hr i hlow hhigh
    rcases hwritten₂ r hr with hr | hr
    · rcases hwritten₁ r hr with hr | hr
      · rw [hnum]
        exact cleared_written hr hlow hhigh
      · have := hinside hfits.code i (hr i hlow hhigh)
        exact ⟨this.1, this.2.1⟩
    · have := hinside hfits.initData i (hr i hlow hhigh)
      exact ⟨this.1, this.2.1⟩
  · intro i hi
    obtain ⟨h0, hbound, hpos, hlen⟩ := hinside hfits.code i hi
    refine ⟨h0, hbound, hpos, hlen, ?_⟩
    by_cases hboth : noffH.initData.Covers i
    · rw [hin₂ i hboth, hfits.agree i hi hboth]
    · rw [hout₂ i hboth, hin₁ i hi]
  · intro i hi
    obtain ⟨h0, hbound, hpos, hlen⟩ := hinside hfits.initData i hi
    exact ⟨h0, hbound, hpos, hlen, hin₂ i hi⟩
  · intro i h0 hbound hcode hdata
    rw [hnum] at hbound
    rw [hout₂ i hdata, hout₁ i hcode, cleared_zero h0 hbound]

/-- A program that fits is loaded, and the memory around its pages is left alone. -/
theorem new_loads (hwf : executable.WellFormed)
    (hread : readHeader bigEndian executable garbage = some noffH)
    (hmagic : noffH.noffMagic = noffMagic) (hpages : noffH.numPages ≤ numPhysPages)
    (hfits : Fits executable noffH) (mainMemory : ℤ → UInt8) :
    ∃ space, new bigEndian executable garbage mainMemory = .ok space ∧
      space.Loaded executable noffH ∧ space.numPages = noffH.numPages ∧
      space.pageTable = addrSpace noffH.numPages ∧
      ∀ i : ℤ, ¬ (0 ≤ i ∧ i < noffH.numPages * pageSize) →
        space.mainMemory i = mainMemory i := by
  have hsafe : Safe executable noffH (new bigEndian executable garbage mainMemory) :=
    new_fits hwf hread hmagic hpages hfits
  obtain ⟨space₁, h₁, hpages₁, -, -, hout₁⟩ :=
    readSegment_inside (cleared noffH.numPages mainMemory) (garbage 2) hwf hfits.code
  obtain ⟨space₂, h₂, hpages₂, -, -, hout₂⟩ :=
    readSegment_inside space₁ (garbage 3) hwf hfits.initData
  have hnew : new bigEndian executable garbage mainMemory = .ok space₂ := by
    rw [new_eq hread hmagic, if_neg (not_lt.mpr hpages), h₁, Option.bind_some, h₂, defined]
  rw [hnew] at hsafe
  have hloaded : space₂.Loaded executable noffH := hsafe
  have hnum : space₂.numPages = noffH.numPages := by rw [hpages₂, hpages₁, cleared]
  refine ⟨space₂, hnew, hloaded, hnum, ?_, fun i hi => ?_⟩
  · rw [readSegment_pageTable h₂, readSegment_pageTable h₁, cleared]
  · have hcode : ¬ noffH.code.Covers i := fun h => hi (hnum ▸
      ⟨(hloaded.code i h).1, (hloaded.code i h).2.1⟩)
    have hdata : ¬ noffH.initData.Covers i := fun h => hi (hnum ▸
      ⟨(hloaded.initData i h).1, (hloaded.initData i h).2.1⟩)
    rw [hout₂ i hdata, hout₁ i hcode, cleared]
    exact if_neg hi

/-- A segment that stands in the pages is in the file and in the pages. -/
theorem Holds.inside (h : space.Holds executable seg) :
    seg.Inside executable space.numPages := by
  intro hsize
  obtain ⟨hfirst, -, hpos, -⟩ := h seg.virtualAddr.toInt ⟨le_rfl, by omega⟩
  obtain ⟨-, hlast, -, hlen, -⟩ := h (seg.virtualAddr.toInt + seg.size.toInt - 1)
    ⟨by omega, by omega⟩
  rw [Segment.inFile] at hpos hlen
  refine ⟨?_, ?_, ?_, ?_⟩ <;> omega

/-- The constructor stops or loads the program exactly when there are too many pages or the
segments fit. -/
theorem addrSpace_safe (hwf : executable.WellFormed)
    (hread : readHeader bigEndian executable garbage = some noffH)
    (hmagic : noffH.noffMagic = noffMagic) (mainMemory : ℤ → UInt8) :
    Safe executable noffH (new bigEndian executable garbage mainMemory) ↔
      noffH.numPages > numPhysPages ∨ Fits executable noffH := by
  by_cases hpages : noffH.numPages > numPhysPages
  · rw [new_eq hread hmagic, if_pos hpages]
    exact iff_of_true trivial (.inl hpages)
  · refine ⟨fun h => .inr ?_, fun h => ?_⟩
    · rw [new_eq hread hmagic, if_neg hpages] at h
      cases hspace : ((cleared noffH.numPages mainMemory).readSegment executable (garbage 2)
          noffH.code).bind fun space => space.readSegment executable (garbage 3) noffH.initData with
      | none =>
        rw [hspace] at h
        exact h.elim
      | some space =>
        rw [hspace] at h
        have hloaded : space.Loaded executable noffH := h
        obtain ⟨space₁, h₁, h₂⟩ := Option.bind_eq_some_iff.mp hspace
        have hnum : space.numPages = noffH.numPages := by
          rw [readSegment_numPages h₂, readSegment_numPages h₁, cleared]
        constructor
        · rw [← hnum]
          exact hloaded.code.inside
        · rw [← hnum]
          exact hloaded.initData.inside
        · intro i hcode hdata
          rw [← (hloaded.code i hcode).2.2.2.2, ← (hloaded.initData i hdata).2.2.2.2]
    · exact new_fits hwf hread hmagic (not_lt.mp hpages) (h.resolve_left hpages)

/-! ### Two programs -/

/-- The code is four bytes behind the header. -/
def fourBytes : NoffHeader := ⟨noffMagic, ⟨0, 40, 4⟩, ⟨0, 0, 0⟩, ⟨0, 0, 0⟩⟩

def fourBytesOnDisk : Executable :=
  .filesys ⟨⟨44, 1, fun _ => 2⟩, 0⟩ fun _ => Mem.words fourBytes.toWords

theorem fourBytesOnDisk_wellFormed : fourBytesOnDisk.WellFormed where
  numBytes_nonneg := by decide
  numSectors_nonneg := by decide
  bytes_le := by decide
  sectors_le := by decide
  isSector s hs := by
    obtain ⟨k, -, rfl⟩ := List.mem_map.mp hs
    exact (by decide : Disk.IsSector 2)

theorem readHeader_fourBytes :
    readHeader bigEndian fourBytesOnDisk garbage = some fourBytes := by
  apply readHeader_words fourBytesOnDisk_wellFormed (by decide : (40 : ℤ) ≤ 44)
  · intro j hj
    rw [NoffHeader.sizeOf] at hj
    change Mem.words _ (j % 128) = _
    rw [Nat.mod_eq_of_lt (by omega)]
  · rfl

theorem addrSpace_safe_fourBytes : Safe fourBytesOnDisk fourBytes
    (new true fourBytesOnDisk (fun _ _ => 0) fun _ => 0) := by
  apply (addrSpace_safe fourBytesOnDisk_wellFormed readHeader_fourBytes rfl _).mpr
  refine .inr ⟨fun _ => ?_, fun h => ?_, fun i _ hdata => ?_⟩
  · exact (by decide : (0 : ℤ) ≤ 40 ∧ (40 + 4 : ℤ) ≤ 44 ∧ (0 : ℤ) ≤ 0 ∧ (0 + 4 : ℤ) ≤ (9 : ℕ) * 128)
  · exact absurd h (by decide)
  · have hlow : (0 : ℤ) ≤ i := hdata.1
    have hhigh : i < (0 + 0 : ℤ) := hdata.2
    omega

/-- Twice as much code as there is memory, and uninitialised data of a negative size. -/
def tooBig : NoffHeader := ⟨noffMagic, ⟨0, 40, 8192⟩, ⟨0, 0, 0⟩, ⟨0, 0, -8192⟩⟩

/-- The header, and then the code. -/
def tooBigFile : List UInt8 :=
  (List.range NoffHeader.sizeOf).map (Mem.words tooBig.toWords) ++ List.replicate 8192 0

theorem tooBigFile_wellFormed : (Executable.stub tooBigFile).WellFormed := trivial

theorem length_tooBigFile : tooBigFile.length = 8232 := by
  rw [tooBigFile, List.length_append, List.length_map, List.length_range, List.length_replicate,
    NoffHeader.sizeOf]

theorem readHeader_tooBig :
    readHeader bigEndian (.stub tooBigFile) garbage = some tooBig := by
  apply readHeader_words tooBigFile_wellFormed
  · change (40 : ℤ) ≤ tooBigFile.length
    rw [length_tooBigFile]
    decide
  · intro j hj
    change tooBigFile.getD j 0 = _
    rw [tooBigFile, List.getD_eq_getElem?_getD, List.getElem?_append_left (by simpa using hj),
      List.getElem?_map, List.getElem?_range hj]
    rfl
  · rfl

/-- The check for programs that are too big passes, and all of the code is written. -/
theorem new_tooBig : ∃ space,
    new false (.stub tooBigFile) (fun _ _ => 0) (fun _ => 0) = .ok space ∧
      space.numPages = 8 ∧ space.written = [(0, 8 * 128), (0, 8192)] ∧
      ¬ Safe (.stub tooBigFile) tooBig (.ok space) := by
  obtain ⟨space, hspace, hpages, hwritten⟩ : ∃ space,
      new false (.stub tooBigFile) (fun _ _ => 0) (fun _ => 0) = .ok space ∧
        space.numPages = 8 ∧ space.written = [(0, 8 * 128), (0, 8192)] := by
    have hlen : (40 + 8192 : ℤ) ≤ tooBigFile.length := by
      rw [length_tooBigFile]
      decide
    have hcode := readSegment_eq (cleared 8 fun _ => 0) (fun _ => 0) tooBigFile_wellFormed
      (by decide : 0 < tooBig.code.size.toInt) (by decide) hlen
    rw [new_eq readHeader_tooBig rfl, if_neg (by decide), show tooBig.numPages = 8 from rfl, hcode]
    exact ⟨_, rfl, rfl, rfl⟩
  refine ⟨space, hspace, hpages, hwritten, fun hsafe => ?_⟩
  have hloaded : space.Loaded (.stub tooBigFile) tooBig := hsafe
  have hbound := hloaded.written (0, 8192) (by simp [hwritten]) 8191 (by decide) (by decide)
  rw [hpages] at hbound
  exact absurd hbound.2 (by decide)

end AddrSpace
end Coursework.Nachos
