import Coursework.Nachos.AddrSpace
import Coursework.Nachos.Bin.Coff2noff.Faithful
import Coursework.Nachos.FileSystem.Copy
import Mathlib.Algebra.Order.BigOperators.Group.List
import Mathlib.Algebra.Order.Ring.Nat

/-!
# From the compiler to the memory of the machine

A COFF file is converted by `coff2noff`, perhaps copied to the simulated disk, and loaded. The
memory of the program is then what the section headers say, with zeros everywhere else.
-/
namespace Coursework.Nachos.Coff2noff
open FileSystem (Mounted TransferJunk)
open Mipssim (pageSize numPhysPages memorySize)

/-! ### What is to be in memory -/

/-- There are bytes of the section in the file. -/
abbrev Section.IsCopied (s : Section) : Prop := s.IsText ∨ s.IsData

/-- There is a byte of the section at address `i`. -/
def Section.Covers (s : Section) (i : ℤ) : Prop :=
  s.IsCopied ∧ s.s_paddr.toInt ≤ i ∧ i < s.s_paddr.toInt + s.s_size.toNat

/-- The sections, with the stack, in pages. -/
def pages (l : List Section) : ℕ :=
  (divRoundUp (((l.map Section.s_size).sum + userStackSize).toNat : ℤ) pageSize).toNat

/-- The sections lie in the pages and are apart. -/
structure Placed (l : List Section) : Prop where
  inside : ∀ s ∈ l, s.IsCopied →
    0 ≤ s.s_paddr.toInt ∧ s.s_paddr.toInt + s.s_size.toNat ≤ pages l * pageSize
  apart : ∀ s ∈ texts l, ∀ t ∈ datas l, ∀ i, s.Covers i → ¬ t.Covers i

/-- The memory of the program. -/
structure Image (input : List UInt8) (l : List Section) (space : AddrSpace) : Prop where
  numPages : space.numPages = pages l
  written : ∀ r ∈ space.written, ∀ i, r.1 ≤ i → i < r.1 + r.2 → 0 ≤ i ∧ i < pages l * pageSize
  copied : ∀ s ∈ l, ∀ i, s.Covers i → space.mainMemory i =
    image input (s.s_scnptr.toNat + (i - s.s_paddr.toInt).toNat)
  zero : ∀ i : ℤ, 0 ≤ i → i < pages l * pageSize → (∀ s ∈ l, ¬ s.Covers i) →
    space.mainMemory i = 0

/-- The executable has these bytes. -/
structure Stores (executable : Executable) (out : OutFile) : Prop where
  wellFormed : executable.WellFormed
  length : executable.length = out.length
  content : ∀ j < out.length, executable.content j = out.bytes j

variable {input : List UInt8} {l : List Section} {s : Section} {out : OutFile} {noffH : NoffHeader}
  {seg : Segment} {i : ℤ} {executable : Executable}

/-! ### Sizes -/

theorem sum_filter_cons (p : Section → Prop) [DecidablePred p] (s : Section) (l : List Section) :
    (((s :: l).filter fun s => p s).map Section.s_size).sum =
      (if p s then s.s_size else 0) + ((l.filter fun s => p s).map Section.s_size).sum := by
  by_cases h : p s
  · simp [h]
  · simp [h]

/-- A section that is not empty is of one of the three kinds. -/
theorem size_kinds (h : s.Known) : s.s_size = (if s.IsText then s.s_size else 0) +
    (if s.IsData then s.s_size else 0) + (if s.IsBss then s.s_size else 0) := by
  by_cases hzero : s.s_size = 0
  · simp [hzero]
  · simp only [Section.Known, List.mem_cons, List.not_mem_nil, or_false] at h
    rcases h with h | h | h | h | h <;>
      simp [Section.IsText, Section.IsData, Section.IsBss, h, dotText, dotData, dotRdata,
        dotBss, dotSbss]

theorem sum_kinds (h : ∀ s ∈ l, s.Known) : (l.map Section.s_size).sum =
    ((texts l).map Section.s_size).sum + ((datas l).map Section.s_size).sum +
      ((bss l).map Section.s_size).sum := by
  induction l with
  | nil => rfl
  | cons s l ih =>
    rw [texts, datas, bss, sum_filter_cons, sum_filter_cons, sum_filter_cons, ← texts, ← datas,
      ← bss, List.map_cons, List.sum_cons, ih fun t ht => h t (.tail _ ht)]
    nth_rewrite 1 [size_kinds (h s List.mem_cons_self)]
    ac_rfl

/-- The size of a segment that holds a section or nothing. -/
theorem Holds.size_eq_sum (h : Holds input out seg l) (hlen : l.length ≤ 1) :
    seg.size = (l.map Section.s_size).sum := by
  rcases l with _ | ⟨s, _ | ⟨t, rest⟩⟩
  · exact h.size_eq rfl
  · rw [(h.copy s List.mem_cons_self).2.1]
    simp
  · simp at hlen

/-- The uninitialised segment is the section, or it is empty. -/
theorem Converted.uninitData_size (h : Converted input l noffH out) (hbss : (bss l).length ≤ 1) :
    noffH.uninitData.size = ((bss l).map Section.s_size).sum := by
  have huninit := h.uninitData
  rcases hl : bss l with _ | ⟨s, _ | ⟨t, rest⟩⟩
  · rw [hl] at huninit
    have hnone := (huninit noffH.uninitData.virtualAddr.toNat).not.mpr (by simp)
    apply BitVec.eq_of_toNat_eq
    simp
    omega
  · rw [hl] at huninit
    simp only [List.mem_singleton, exists_eq_left] at huninit
    have hmem : s ∈ bss l := by rw [hl]; exact List.mem_cons_self
    have hsize : s.s_size.toNat ≠ 0 := fun hzero =>
      (of_decide_eq_true (List.mem_filter.mp hmem).2).1 (BitVec.eq_of_toNat_eq hzero)
    have hfirst := (huninit s.s_paddr.toNat).mpr (by omega)
    have hlow := (huninit noffH.uninitData.virtualAddr.toNat).mp (by omega)
    have hlast := (huninit (s.s_paddr.toNat + s.s_size.toNat - 1)).mpr (by omega)
    have hend := (huninit (noffH.uninitData.virtualAddr.toNat +
      noffH.uninitData.size.toNat - 1)).mp (by omega)
    apply BitVec.eq_of_toNat_eq
    simp
    omega
  · rw [hl] at hbss
    simp at hbss

theorem Converted.numPages (h : Converted input l noffH out) (hknown : ∀ s ∈ l, s.Known)
    (htexts : (texts l).length ≤ 1) (hdatas : (datas l).length ≤ 1) (hbss : (bss l).length ≤ 1) :
    noffH.numPages = pages l := by
  rw [NoffHeader.numPages, pages, h.code.size_eq_sum htexts, h.initData.size_eq_sum hdatas,
    h.uninitData_size hbss, sum_kinds hknown]

/-! ### Segments and sections -/

theorem toInt_of_le {w : BitVec 32} (h : (w.toNat : ℤ) ≤ intMax) : w.toInt = w.toNat := by
  rw [BitVec.toInt_eq_toNat_of_lt]
  rw [intMax] at h
  omega

theorem mem_texts : s ∈ texts l ↔ s ∈ l ∧ s.IsText := by
  rw [texts, List.mem_filter, decide_eq_true_iff]

theorem mem_datas : s ∈ datas l ↔ s ∈ l ∧ s.IsData := by
  rw [datas, List.mem_filter, decide_eq_true_iff]

/-- A segment that holds a section is at its addresses, and its bytes are in the file. -/
structure Same (input : List UInt8) (out : OutFile) (seg : Segment) (s : Section) : Prop where
  covers : ∀ i, seg.Covers i ↔ s.Covers i
  inFile : ∀ i, s.Covers i → 0 ≤ seg.inFile i ∧ seg.inFile i < out.length ∧
    out.bytes (seg.inFile i).toNat = image input (s.s_scnptr.toNat + (i - s.s_paddr.toInt).toNat)
  range : seg.virtualAddr = s.s_paddr ∧ seg.size.toInt = s.s_size.toNat ∧
    0 ≤ seg.inFileAddr.toInt ∧ seg.inFileAddr.toInt + seg.size.toInt ≤ out.length

theorem Holds.same (h : Holds input out seg l) (hs : s ∈ l) (hcopied : s.IsCopied)
    (hsize : (s.s_size.toNat : ℤ) ≤ intMax) (hlen : (out.length : ℤ) ≤ intMax) :
    Same input out seg s := by
  obtain ⟨haddr, hseg, -, hend, hbytes⟩ := h.copy s hs
  have hint : seg.size.toInt = s.s_size.toNat := by rw [hseg, toInt_of_le hsize]
  have hfile : seg.inFileAddr.toInt = seg.inFileAddr.toNat := toInt_of_le (by omega)
  refine ⟨fun i => ?_, fun i hi => ?_, haddr, hint, by omega, by omega⟩
  · rw [Segment.Covers, Section.Covers, haddr, hint]
    exact (and_iff_right hcopied).symm
  · obtain ⟨-, hlow, hhigh⟩ := hi
    have hbyte := hbytes (i - s.s_paddr.toInt).toNat (by omega)
    rw [Segment.inFile, haddr, hfile]
    refine ⟨by omega, by omega, ?_⟩
    rw [← hbyte]
    congr 1
    omega

/-- A segment of at most one section. -/
inductive Segment.IsOf (input : List UInt8) (out : OutFile) (seg : Segment) :
    List Section → Prop where
  | nil (h : seg.size.toInt = 0) : IsOf input out seg []
  | single {s : Section} (h : Same input out seg s) : IsOf input out seg [s]

theorem Holds.isOf (h : Holds input out seg l) (hlen : l.length ≤ 1)
    (hcopied : ∀ s ∈ l, s.IsCopied) (hsize : ∀ s ∈ l, (s.s_size.toNat : ℤ) ≤ intMax)
    (hout : (out.length : ℤ) ≤ intMax) : Segment.IsOf input out seg l := by
  rcases l with _ | ⟨s, _ | ⟨t, rest⟩⟩
  · exact .nil (by rw [h.size_eq rfl]; rfl)
  · have hs : s ∈ [s] := List.mem_cons_self
    exact .single (h.same hs (hcopied s hs) (hsize s hs) hout)
  · simp at hlen

theorem Same.inside (h : Same input out seg s) (hst : Stores executable out) {numPages : ℕ}
    (hin : 0 ≤ s.s_paddr.toInt ∧ s.s_paddr.toInt + s.s_size.toNat ≤ numPages * pageSize) :
    seg.Inside executable numPages := by
  obtain ⟨haddr, hsize, hpos, hend⟩ := h.range
  intro _
  rw [haddr, hst.length]
  omega

/-- What is loaded for a segment is the section. -/
theorem Same.loaded (h : Same input out seg s) (hst : Stores executable out) {space : AddrSpace}
    (hloaded : space.Holds executable seg) (hi : s.Covers i) :
    space.mainMemory i = image input (s.s_scnptr.toNat + (i - s.s_paddr.toInt).toNat) := by
  obtain ⟨-, -, hpos, hlen, hbyte⟩ := hloaded i ((h.covers i).mpr hi)
  rw [hst.length] at hlen
  rw [hbyte, hst.content _ (by omega), (h.inFile i hi).2.2]

namespace Segment.IsOf

theorem covers_iff (h : Segment.IsOf input out seg l) (i : ℤ) :
    seg.Covers i ↔ ∃ s ∈ l, s.Covers i := by
  cases h with
  | nil hsize =>
    refine iff_of_false (fun hi => ?_) (by simp)
    obtain ⟨hlow, hhigh⟩ := hi
    omega
  | single h => simp [h.covers]

theorem inside (h : Segment.IsOf input out seg l) (hst : Stores executable out) {numPages : ℕ}
    (hin : ∀ s ∈ l, 0 ≤ s.s_paddr.toInt ∧ s.s_paddr.toInt + s.s_size.toNat ≤ numPages * pageSize) :
    seg.Inside executable numPages := by
  cases h with
  | nil hsize => exact fun hpos => absurd hsize hpos.ne'
  | single h => exact h.inside hst (hin _ List.mem_cons_self)

theorem loaded (h : Segment.IsOf input out seg l) (hst : Stores executable out) {space : AddrSpace}
    (hloaded : space.Holds executable seg) (hs : s ∈ l) (hi : s.Covers i) :
    space.mainMemory i = image input (s.s_scnptr.toNat + (i - s.s_paddr.toInt).toNat) := by
  cases h with
  | nil => cases hs
  | single h =>
    obtain rfl := List.mem_singleton.mp hs
    exact h.loaded hst hloaded hi

end Segment.IsOf

/-! ### Loading -/

/-- The sections of a file that is converted as it should be. -/
structure Single (l : List Section) : Prop where
  known : ∀ s ∈ l, s.Known
  texts_le : (texts l).length ≤ 1
  datas_le : (datas l).length ≤ 1
  bss_le : (bss l).length ≤ 1
  size_le : ∀ s ∈ l, s.IsCopied → (s.s_size.toNat : ℤ) ≤ intMax

theorem Converted.loads (h : Converted input l noffH out) (hl : Single l)
    (hout : NoffHeader.sizeOf ≤ out.length) (hst : Stores executable out) (hplaced : Placed l)
    (hpages : pages l ≤ numPhysPages) (bigEndian : Bool) (garbage : ℕ → Mem)
    (mainMemory : ℤ → UInt8) :
    ∃ space, AddrSpace.new bigEndian executable garbage mainMemory = .ok space ∧
      Image input l space := by
  have hnum := h.numPages hl.known hl.texts_le hl.datas_le hl.bss_le
  have hread : AddrSpace.readHeader bigEndian executable garbage = some noffH := by
    apply AddrSpace.readHeader_words hst.wellFormed _ _ h.magic
    · rw [hst.length]
      omega
    · intro j hj
      rw [hst.content j (by omega), h.header j hj]
  have hcode := h.code.isOf hl.texts_le (fun s hs => .inl (mem_texts.mp hs).2)
    (fun s hs => hl.size_le s (mem_texts.mp hs).1 (.inl (mem_texts.mp hs).2)) h.length_le
  have hinit := h.initData.isOf hl.datas_le (fun s hs => .inr (mem_datas.mp hs).2)
    (fun s hs => hl.size_le s (mem_datas.mp hs).1 (.inr (mem_datas.mp hs).2)) h.length_le
  have hfits : AddrSpace.Fits executable noffH := by
    refine ⟨hcode.inside hst fun s hs => ?_, hinit.inside hst fun s hs => ?_, fun i hi hi' => ?_⟩
    · rw [hnum]
      exact hplaced.inside s (mem_texts.mp hs).1 (.inl (mem_texts.mp hs).2)
    · rw [hnum]
      exact hplaced.inside s (mem_datas.mp hs).1 (.inr (mem_datas.mp hs).2)
    · obtain ⟨s, hs, hi⟩ := (hcode.covers_iff i).mp hi
      obtain ⟨t, ht, hi'⟩ := (hinit.covers_iff i).mp hi'
      exact absurd hi' (hplaced.apart s hs t ht i hi)
  obtain ⟨space, hnew, hloaded, hpages', -, -⟩ :=
    AddrSpace.new_loads hst.wellFormed hread h.magic (hnum.trans_le hpages) hfits mainMemory
  rw [hnum] at hpages'
  refine ⟨space, hnew, hpages', ?_, fun s hs i hi => ?_, fun i hlow hhigh hno => ?_⟩
  · rw [← hpages']
    exact hloaded.written
  · rcases hi.1 with htext | hdata
    · exact hcode.loaded hst hloaded.code (mem_texts.mpr ⟨hs, htext⟩) hi
    · exact hinit.loaded hst hloaded.initData (mem_datas.mpr ⟨hs, hdata⟩) hi
  · refine hloaded.zero i hlow (by rwa [hpages']) (fun hi => ?_) fun hi => ?_
    · obtain ⟨s, hs, hi⟩ := (hcode.covers_iff i).mp hi
      exact hno s (mem_texts.mp hs).1 hi
    · obtain ⟨s, hs, hi⟩ := (hinit.covers_iff i).mp hi
      exact hno s (mem_datas.mp hs).1 hi

/-- The executable is loaded as the sections say, on a host of either byte order. -/
def Loads (input : List UInt8) (executable : Executable) : Prop :=
  ∀ (bigEndian : Bool) (garbage : ℕ → Mem) (mainMemory : ℤ → UInt8), ∃ space,
    AddrSpace.new bigEndian executable garbage mainMemory = .ok space ∧
      Image input (sectionHeaders input) space

/-! ### The file and its copy on the disk -/

/-- The bytes of the output. -/
def OutFile.content (out : OutFile) : List UInt8 := out.bytes.bytes out.length

theorem OutFile.length_content (out : OutFile) : out.content.length = out.length :=
  Mem.length_bytes _ _

theorem stores_stub (out : OutFile) : Stores (.stub out.content) out where
  wellFormed := trivial
  length := congrArg _ out.length_content
  content _ hj := Mem.getD_bytes hj

/-- The copy of the output has its bytes. -/
theorem stores_copied {fs : FileSystem} {d d' : Disk} {name : Mem} {n : ℕ}
    (hc : FileSystem.Copied fs d out.content name d' n) (junk : Junk) :
    ∃ f, fs.openFile junk d' name = some (some f) ∧ Stores (.filesys f d') out := by
  obtain ⟨g, hopen, hsame⟩ :=
    hc.mounted.rooted.open_of_entry junk hc.entry_lt hc.inUse hc.fileName
  have hvalid := hsame.valid (hc.mounted.valid n hc.entry_lt hc.inUse)
  have hcontent := (FileSystem.contents_handle hsame hvalid).trans hc.contents
  have hlen : g.numBytes.toNat = out.length := by
    rw [← Mem.length_bytes (OpenFile.content d' g) g.numBytes.toNat, hcontent, out.length_content]
  have hpos := hvalid.numBytes_nonneg
  refine ⟨_, hopen, hvalid, ?_, fun j hj => ?_⟩
  · change g.numBytes = out.length
    omega
  · have hbyte := congrArg (fun bytes => bytes.getD j 0) hcontent
    simp only [OutFile.content, Mem.getD_bytes hj] at hbyte
    rw [← hbyte, Mem.getD_bytes (by rwa [hlen])]
    rfl

/-- There is the header and what has been copied. -/
theorem main_length (hvalid : Valid input) (h : main input noffH = .ok out) :
    NoffHeader.sizeOf ≤ out.length ∧
      out.length ≤ NoffHeader.sizeOf + copied (sectionHeaders input) := by
  obtain ⟨position, hmain⟩ := main_eq hvalid noffH
  rw [hmain] at h
  rcases convertSections_done hvalid.length_le hvalid.known hvalid.present hvalid.texts_le
    (@done_start _ position _) with ⟨st, hst, hdone⟩ | ⟨⟨failure, hst⟩, -⟩
  · rw [hst] at h
    simp only [Except.bind, OutFile.write] at h
    split_ifs at h
    cases h
    have hlen := hdone.length_le
    rw [hdone.position, List.nil_append] at hlen
    simp only
    omega
  · rw [hst] at h
    cases h

/-! ### The whole way -/

theorem length_copied (l : List Section) :
    (l.filter fun s => s.IsText ∨ s.IsData).length ≤ (texts l).length + (datas l).length := by
  induction l with
  | nil => rfl
  | cons s l ih =>
    rw [texts, datas] at ih ⊢
    by_cases htext : s.IsText <;> by_cases hdata : s.IsData <;>
      simp [htext, hdata] at ih ⊢ <;> omega

theorem Placed.size_le (h : Placed l) (hpages : pages l ≤ numPhysPages) (hs : s ∈ l)
    (hcopied : s.IsCopied) : s.s_size.toNat ≤ memorySize := by
  obtain ⟨hlow, hhigh⟩ := h.inside s hs hcopied
  have hle := Nat.mul_le_mul_right pageSize hpages
  rw [memorySize]
  omega

/-- What lies in the pages is small enough for a file. -/
theorem Placed.fits (h : Placed l) (hpages : pages l ≤ numPhysPages)
    (htexts : (texts l).length ≤ 1) (hdatas : (datas l).length ≤ 1) : Fits l := by
  have hsum : copied l ≤
      ((l.filter fun s => s.IsText ∨ s.IsData).map fun s => s.s_size.toNat).length •
        memorySize := by
    apply List.sum_le_card_nsmul
    intro n hn
    obtain ⟨s, hs, rfl⟩ := List.mem_map.mp hn
    obtain ⟨hs, hcopied⟩ := List.mem_filter.mp hs
    exact h.size_le hpages hs (of_decide_eq_true hcopied)
  have hlen := length_copied l
  have hmemory : memorySize = 4096 := rfl
  rw [List.length_map, nsmul_eq_mul, Nat.cast_id, hmemory] at hsum
  rw [Fits, NoffHeader.sizeOf, intMax]
  omega

/-- A program with one section of a kind, whose sections fit into memory, is converted. Its memory
is what the sections say, where it is loaded from the UNIX file and where it is loaded from a copy
on the simulated disk. -/
theorem program_from_coff (hvalid : Valid input)
    (hdatas : (datas (sectionHeaders input)).length ≤ 1)
    (hbss : (bss (sectionHeaders input)).length ≤ 1) (hplaced : Placed (sectionHeaders input))
    (hpages : pages (sectionHeaders input) ≤ numPhysPages) (noffH : NoffHeader) :
    ∃ out, main input noffH = .ok out ∧ Loads input (.stub out.content) ∧
      ∀ (fs : FileSystem) (d : Disk) (name : Mem) (junk : TransferJunk), Mounted fs d →
        NoffHeader.sizeOf + copied (sectionHeaders input) ≤ FileHeader.maxFileSize →
        (∃ d₁, fs.create junk.create d name out.content.length = some (true, d₁)) →
        ∃ d', fs.copy junk d out.content name = some d' ∧ ∀ junk', ∃ f,
          fs.openFile junk' d' name = some (some f) ∧ Loads input (.filesys f d') := by
  have hl : Single (sectionHeaders input) :=
    ⟨hvalid.known, hvalid.texts_le, hdatas, hbss, fun s hs hcopied => by
      have hsize := hplaced.size_le hpages hs hcopied
      have hmemory : memorySize = 4096 := rfl
      rw [intMax]
      omega⟩
  have haccepted : Accepted (sectionHeaders input) :=
    ⟨hdatas, Span.not_collides_of_length (length_spans.trans_le hbss),
      hplaced.fits hpages hvalid.texts_le hdatas⟩
  rcases main_cases hvalid noffH with ⟨out, hout, -, hright⟩ | ⟨-, hnot⟩
  · obtain ⟨noffH', hconverted⟩ := hright hbss
    obtain ⟨hlow, hhigh⟩ := main_length hvalid hout
    refine ⟨out, hout, hconverted.loads hl hlow (stores_stub out) hplaced hpages,
      fun fs d name junk hm hmax hcreate => ?_⟩
    obtain ⟨d', n, hd', hc⟩ := FileSystem.copied hm junk
      (out.length_content.trans_le (hhigh.trans hmax)) hcreate
    refine ⟨d', hd', fun junk' => ?_⟩
    obtain ⟨f, hopen, hstores⟩ := stores_copied hc junk'
    exact ⟨f, hopen, hconverted.loads hl hlow hstores hplaced hpages⟩
  · exact absurd haccepted hnot

/-! ### A program -/

theorem placed_smallSections : Placed smallSections := by
  refine ⟨by decide, fun s hs t ht i hi hi' => ?_⟩
  obtain rfl := List.mem_singleton.mp (show s ∈ [⟨dotText, 0, 4, 196⟩] from hs)
  obtain rfl := List.mem_singleton.mp (show t ∈ [⟨dotData, 4, 2, 200⟩] from ht)
  have hlow : (4 : ℤ) ≤ i := hi'.2.1
  have hhigh : i < (0 + 4 : ℤ) := hi.2.2
  omega

/-- It is copied to a formatted disk. -/
theorem program_from_coff_small : ∃ fs d d' out f, Mounted fs d ∧
    main smallProgram unset = .ok out ∧ Loads smallProgram (.stub out.content) ∧
    fs.copy ⟨FileSystem.blank, FileSystem.blank, fun _ => 0, fun _ _ => 0, fun _ _ => 0⟩ d
      out.content (fun _ => 97) = some d' ∧
    fs.openFile FileSystem.blank d' (fun _ => 97) = some (some f) ∧
    Loads smallProgram (.filesys f d') := by
  obtain ⟨out, hout, hstub, hdisk⟩ := program_from_coff valid_smallProgram
    (by rw [sectionHeaders_smallProgram]; decide) (by rw [sectionHeaders_smallProgram]; decide)
    (by rw [sectionHeaders_smallProgram]; exact placed_smallSections)
    (by rw [sectionHeaders_smallProgram]; decide) unset
  obtain ⟨fs, d, -, hf⟩ := FileSystem.format_cases FileSystem.blank fun _ _ => 0
  have hlen := (main_length valid_smallProgram hout).2
  rw [sectionHeaders_smallProgram, show copied smallSections = 6 by decide] at hlen hdisk
  obtain ⟨d₁, -, -, -, hcreate, -⟩ := hf.create FileSystem.blank (fun _ => 97)
    (Int.natCast_nonneg out.content.length) (by
      rw [out.length_content]
      exact Int.ofNat_le.mpr (hlen.trans (by decide)))
  obtain ⟨d', hd', hopen⟩ := hdisk fs d (fun _ => 97) ⟨FileSystem.blank, FileSystem.blank,
    fun _ => 0, fun _ _ => 0, fun _ _ => 0⟩ hf.mounted (by decide) ⟨d₁, hcreate⟩
  obtain ⟨f, hf', hload⟩ := hopen FileSystem.blank
  exact ⟨fs, d, d', out, f, hf.mounted, hout, hstub, hd', hf', hload⟩

end Coursework.Nachos.Coff2noff
