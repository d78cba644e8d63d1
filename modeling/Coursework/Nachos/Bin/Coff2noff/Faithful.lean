import Coursework.Nachos.Bin.Coff2noff.Sections

/-!
# Conversions that are faithful

The test for uninitialised sections that follow each other is the wrong way round: sections that
do are refused and others are taken for one. A conversion is faithful exactly when this test plays
no part, or refuses what is to be refused.
-/
namespace Coursework.Nachos.Coff2noff

/-- A COFF file with the data of its sections, no two of which are non-empty text. -/
structure Valid (input : List UInt8) : Prop where
  /-- Positions in a file are of type `long`. -/
  length_le : (input.length : ℤ) ≤ intMax
  headers : filehdrSize + aouthdrSize + numsections (image input) * scnhdrSize ≤ input.length
  mipsel : ((image input).word 0).setWidth 16 = mipselMagic
  omagic : ((image input).word filehdrSize).setWidth 16 = omagic
  known : ∀ s ∈ sectionHeaders input, s.Known
  present : ∀ s ∈ sectionHeaders input, s.Present input
  texts_le : (texts (sectionHeaders input)).length ≤ 1

/-- What can be put into one NOFF file. -/
def Convertible (l : List Section) : Prop :=
  (datas l).length ≤ 1 ∧ Span.Contiguous (spans l)

/-- The header of the output, and what it describes, are the sections. -/
structure Converted (input : List UInt8) (l : List Section) (noffH : NoffHeader) (out : OutFile) :
    Prop where
  header : ∀ j < NoffHeader.sizeOf, out.bytes j = Mem.words noffH.toWords j
  magic : noffH.noffMagic = noffMagic
  length_le : (out.length : ℤ) ≤ intMax
  code : Holds input out noffH.code (texts l)
  initData : Holds input out noffH.initData (datas l)
  apart : Apart noffH.code noffH.initData
  uninitData : ∀ i : ℕ, noffH.uninitData.virtualAddr.toNat ≤ i ∧
    i < noffH.uninitData.virtualAddr.toNat + noffH.uninitData.size.toNat ↔
    ∃ s ∈ bss l, s.s_paddr.toNat ≤ i ∧ i < s.s_paddr.toNat + s.s_size.toNat

/-- Exactly the sections that can be converted are accepted, and the output is right. -/
def Faithful (input : List UInt8) (l : List Section) (result : Except Failure OutFile) : Prop :=
  ((∃ out, result = .ok out) ↔ Convertible l) ∧
    ∀ out, result = .ok out → ∃ noffH, Converted input l noffH out

/-- There are two initialised sections; or there is at most one uninitialised section, and the
output is not too long; or the uninitialised sections do not follow each other, and one of them
starts where those before it would end, or the output is too long. -/
def Handled (l : List Section) : Prop :=
  2 ≤ (datas l).length ∨ (bss l).length ≤ 1 ∧ Fits l ∨
    ¬ Span.Contiguous (spans l) ∧ (Span.Collides (spans l) ∨ ¬ Fits l)

variable {input : List UInt8} {l : List Section} {st : State} {out : OutFile} {addr : BitVec 32}
  {noffH : NoffHeader}

theorem size_of_mem_spans {s : Span (BitVec 32)} (h : s ∈ spans l) : s.size ≠ 0 := by
  obtain ⟨t, ht, rfl⟩ := List.mem_map.mp h
  exact (of_decide_eq_true (List.mem_filter.mp ht).2).1

theorem length_spans : (spans l).length = (bss l).length := List.length_map _

/-- Where the code accepts what can be converted, there is at most one uninitialised section. -/
theorem bss_le (h : Accepted l) (hconvertible : Convertible l) : (bss l).length ≤ 1 := by
  by_contra hlen
  exact h.not_collides (hconvertible.2.collides (by rw [length_spans]; omega)
    fun s hs => size_of_mem_spans hs)

/-- At most one uninitialised section is left as it is. -/
theorem Done.uninitData_iff (h : Done input addr l st) (hbss : (bss l).length ≤ 1) (i : ℕ) :
    st.noffH.uninitData.virtualAddr.toNat ≤ i ∧
      i < st.noffH.uninitData.virtualAddr.toNat + st.noffH.uninitData.size.toNat ↔
    ∃ s ∈ bss l, s.s_paddr.toNat ≤ i ∧ i < s.s_paddr.toNat + s.s_size.toNat := by
  have hfold := h.uninitData
  rw [spans] at hfold
  rcases hl : bss l with _ | ⟨s, _ | ⟨t, rest⟩⟩
  · rw [hl] at hfold
    obtain ⟨-, hsize⟩ := Span.mk.inj (Option.some.inj hfold)
    rw [← hsize]
    apply iff_of_false
    · rintro ⟨hlow, hhigh⟩
      exact absurd hhigh (not_lt.mpr hlow)
    · rintro ⟨s, hs, -⟩
      cases hs
  · rw [hl] at hfold
    obtain ⟨haddr, hsize⟩ := Span.mk.inj (Option.some.inj hfold)
    rw [← haddr, ← hsize]
    simp
  · rw [hl] at hbss
    simp at hbss

/-- The header is written over the start of the output. -/
theorem Done.converted (h : Done input addr l st) (hbss : (bss l).length ≤ 1)
    (hw : { st.out with position := 0 : OutFile }.write (Mem.words st.noffH.toWords)
      NoffHeader.sizeOf = .ok out) :
    Converted input l st.noffH out := by
  have hplace : ({ st.out with position := 0 : OutFile }).length ≤ 0 ∨
      0 + NoffHeader.sizeOf ≤ NoffHeader.sizeOf := .inr (Nat.zero_add _).le
  have hcode : Holds input { st.out with position := 0 } st.noffH.code (texts l) :=
    ⟨h.code.size_eq, h.code.copy⟩
  have hinit : Holds input { st.out with position := 0 } st.noffH.initData (datas l) :=
    ⟨h.initData.size_eq, h.initData.copy⟩
  refine ⟨?_, h.magic, ?_, hcode.write hplace hw, hinit.write hplace hw, h.apart,
    h.uninitData_iff hbss⟩
  · intro j hj
    rw [OutFile.write] at hw
    split_ifs at hw
    cases hw
    exact Mem.copy_of_mem (Nat.zero_le j) (by omega)
  · rw [OutFile.write] at hw
    split_ifs at hw
    cases hw
    have hlen := h.length_le
    have hle := h.position_le
    simp only [NoffHeader.sizeOf, intMax] at *
    omega

/-- The headers are read and checked. -/
theorem main_eq (hvalid : Valid input) (noffH : NoffHeader) : ∃ position,
    main input noffH =
      (convertSections input (sectionHeaders input) (start position noffH)).bind fun st =>
        { st.out with position := 0 : OutFile }.write (Mem.words st.noffH.toWords)
          NoffHeader.sizeOf := by
  have hheaders := hvalid.headers
  have hread {position n : ℕ} (h : position + n ≤ input.length) :
      read input position n = .ok ((image input).drop position) := if_pos h
  have hfileh := hread (show 0 + filehdrSize ≤ input.length by omega)
  have hsystemh := hread (show filehdrSize + aouthdrSize ≤ input.length by omega)
  have hsections := hread hheaders
  have homagic : (((image input).drop filehdrSize).word 0).setWidth 16 = omagic := hvalid.omagic
  rw [Mem.drop_zero] at hfileh
  refine ⟨filehdrSize + aouthdrSize + numsections (image input) * scnhdrSize, ?_⟩
  rw [main, hfileh]
  simp only [bind, Except.bind, hvalid.mipsel, hsystemh, homagic, hsections, ne_eq,
    not_true_eq_false, if_false]

/-- What `main` comes to. -/
theorem main_cases (hvalid : Valid input) (noffH : NoffHeader) :
    (∃ out, main input noffH = .ok out ∧ Accepted (sectionHeaders input) ∧
      ((bss (sectionHeaders input)).length ≤ 1 →
        ∃ noffH, Converted input (sectionHeaders input) noffH out)) ∨
      (∃ failure, main input noffH = .error failure) ∧ ¬ Accepted (sectionHeaders input) := by
  obtain ⟨position, hmain⟩ := main_eq hvalid noffH
  have hstart : Done input noffH.uninitData.virtualAddr [] (start position noffH) := done_start
  rw [hmain]
  rcases convertSections_done hvalid.length_le hvalid.known hvalid.present hvalid.texts_le hstart
    with ⟨st, hst, hdone⟩ | ⟨⟨failure, hst⟩, hnot⟩
  · rw [List.nil_append] at hdone
    have hfits : ((0 : ℕ) + NoffHeader.sizeOf : ℤ) ≤ intMax := by decide
    obtain ⟨out, hout⟩ : ∃ out, { st.out with position := 0 : OutFile }.write
        (Mem.words st.noffH.toWords) NoffHeader.sizeOf = .ok out := ⟨_, if_pos hfits⟩
    left
    rw [hst]
    simp only [Except.bind]
    exact ⟨out, hout, hdone.accepted, fun hbss => ⟨st.noffH, hdone.converted hbss hout⟩⟩
  · rw [hst]
    exact .inr ⟨⟨failure, rfl⟩, hnot⟩

theorem accepted_iff_convertible : (Accepted l ↔ Convertible l) ↔ Handled l := by
  have hshort (hlen : (bss l).length ≤ 1) :
      Span.Contiguous (spans l) ∧ ¬ Span.Collides (spans l) := by
    rw [← length_spans] at hlen
    exact ⟨Span.contiguous_of_length hlen, Span.not_collides_of_length hlen⟩
  have hlong (hlen : ¬ (bss l).length ≤ 1) (hcont : Span.Contiguous (spans l)) :
      Span.Collides (spans l) := by
    apply hcont.collides
    · rw [length_spans]
      omega
    · exact fun s hs => size_of_mem_spans hs
  have haccepted : Accepted l ↔ (datas l).length ≤ 1 ∧ ¬ Span.Collides (spans l) ∧ Fits l :=
    ⟨fun h => ⟨h.datas_le, h.not_collides, h.fits⟩, fun h => ⟨h.1, h.2.1, h.2.2⟩⟩
  rw [haccepted, Convertible, Handled]
  by_cases hdatas : (datas l).length ≤ 1
  · have hone : ¬ 2 ≤ (datas l).length := by omega
    by_cases hbss : (bss l).length ≤ 1
    · obtain ⟨hcont, hno⟩ := hshort hbss
      simp only [hdatas, hone, hbss, hcont, hno, not_true_eq_false, not_false_eq_true, true_and,
        and_true, false_and, false_or, or_false, iff_true]
    · have hcollides := hlong hbss
      by_cases hcont : Span.Contiguous (spans l)
      · simp only [hdatas, hone, hbss, hcont, hcollides hcont, not_true_eq_false, false_and,
          and_false, false_or, iff_true, true_and]
      · simp only [hdatas, hone, hbss, hcont, not_false_eq_true, true_and, false_and, false_or,
          and_false, iff_false, not_and_or, not_not]
  · exact iff_of_true (iff_of_false (fun h => hdatas h.1) fun h => hdatas h.1) (.inl (by omega))

/-- A conversion is faithful exactly when the sections are handled. -/
theorem coff2noff_faithful (hvalid : Valid input) (noffH : NoffHeader) :
    Faithful input (sectionHeaders input) (main input noffH) ↔ Handled (sectionHeaders input) := by
  rw [← accepted_iff_convertible, Faithful]
  rcases main_cases hvalid noffH with ⟨out, hout, haccepted, hright⟩ | ⟨⟨failure, hfail⟩, hnot⟩
  · rw [hout]
    constructor
    · rintro ⟨h, -⟩
      exact iff_of_true haccepted (h.mp ⟨out, rfl⟩)
    · intro h
      have hconvertible := h.mp haccepted
      refine ⟨iff_of_true ⟨out, rfl⟩ hconvertible, ?_⟩
      rintro out' hout'
      cases hout'
      exact hright (bss_le haccepted hconvertible)
  · rw [hfail]
    have hno : ¬ ∃ out, (Except.error failure : Except Failure OutFile) = .ok out := nofun
    constructor
    · rintro ⟨h, -⟩
      exact iff_of_false hnot fun hconvertible => hno (h.mpr hconvertible)
    · intro h
      exact ⟨iff_of_false hno fun hconvertible => hnot (h.mpr hconvertible), nofun⟩

/-! ### Two files -/

/-- A section header. -/
def scnhdr (s : Section) : List UInt8 :=
  let long (w : BitVec 32) := (List.range 4).map (byteOf w)
  s.s_name ++ List.replicate (8 - s.s_name.length) 0 ++ long s.s_paddr ++ long s.s_paddr ++
    long s.s_size ++ long s.s_scnptr ++ List.replicate 16 0

/-- The headers of a file with these sections. -/
def coff (l : List Section) : List UInt8 :=
  [0x62, 0x01, UInt8.ofNat l.length, 0] ++ List.replicate 16 0 ++ [0x07, 0x01] ++
    List.replicate 54 0 ++ l.flatMap scnhdr

def unset : NoffHeader := ⟨0, ⟨0, 0, 0⟩, ⟨0, 0, 0⟩, ⟨0, 0, 0⟩⟩

/-- Two uninitialised sections that follow each other. -/
def bssSbss : List Section := [⟨dotBss, 0x100, 0x10, 0⟩, ⟨dotSbss, 0x110, 0x10, 0⟩]

theorem sectionHeaders_bssSbss : sectionHeaders (coff bssSbss) = bssSbss := by decide

theorem valid_bssSbss : Valid (coff bssSbss) := by
  constructor
  · decide +kernel
  · decide +kernel
  · decide
  · decide
  · rw [sectionHeaders_bssSbss]
    decide
  · rw [sectionHeaders_bssSbss]
    decide
  · rw [sectionHeaders_bssSbss]
    decide

/-- Sections that follow each other are refused. -/
theorem contiguous_refused :
    Valid (coff bssSbss) ∧ Convertible (sectionHeaders (coff bssSbss)) ∧
      main (coff bssSbss) unset = .error .bothBssAndSbss ∧
      ¬ Faithful (coff bssSbss) (sectionHeaders (coff bssSbss)) (main (coff bssSbss) unset) := by
  have hconvertible : Convertible (sectionHeaders (coff bssSbss)) := by
    rw [sectionHeaders_bssSbss]
    exact ⟨by decide, .cons_cons (by decide) (.singleton _)⟩
  have hmain : main (coff bssSbss) unset = .error .bothBssAndSbss := by
    obtain ⟨position, hmain⟩ := main_eq valid_bssSbss unset
    rw [hmain, sectionHeaders_bssSbss]
    rfl
  refine ⟨valid_bssSbss, hconvertible, hmain, fun hfaithful => ?_⟩
  obtain ⟨out, hout⟩ := hfaithful.1.mpr hconvertible
  rw [hmain] at hout
  cases hout

/-- Code, data and a table of zeros behind it. -/
def smallSections : List Section :=
  [⟨dotText, 0, 4, 196⟩, ⟨dotData, 4, 2, 200⟩, ⟨dotBss, 6, 10, 0⟩]

def smallProgram : List UInt8 := coff smallSections ++ [1, 2, 3, 4, 5, 6]

theorem sectionHeaders_smallProgram : sectionHeaders smallProgram = smallSections := by decide

theorem valid_smallProgram : Valid smallProgram := by
  constructor
  · decide +kernel
  · decide +kernel
  · decide
  · decide
  · rw [sectionHeaders_smallProgram]
    decide
  · rw [sectionHeaders_smallProgram]
    decide +kernel
  · rw [sectionHeaders_smallProgram]
    decide

theorem coff2noff_faithful_small : (∃ out, main smallProgram unset = .ok out) ∧
    Faithful smallProgram (sectionHeaders smallProgram) (main smallProgram unset) := by
  have hfaithful := (coff2noff_faithful valid_smallProgram unset).mpr (by
    rw [sectionHeaders_smallProgram]
    exact .inr (.inl ⟨by decide, by decide⟩))
  refine ⟨hfaithful.1.mpr ?_, hfaithful⟩
  rw [sectionHeaders_smallProgram]
  exact ⟨by decide, .singleton _⟩

end Coursework.Nachos.Coff2noff
