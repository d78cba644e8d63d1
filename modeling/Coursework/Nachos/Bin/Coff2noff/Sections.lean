import Coursework.Lib.Spans
import Coursework.Nachos.Bin.Coff2noff
import Mathlib.Data.BitVec

/-!
# The loop over the sections

After each section the output holds the sections that have been copied, one behind the other,
and the header describes them; the uninitialised sections have been merged. A section is refused
exactly when the sections up to it are not accepted.
-/
namespace Coursework.Nachos.Coff2noff

namespace Section

def IsText (s : Section) : Prop := s.s_size ≠ 0 ∧ s.s_name = dotText
def IsData (s : Section) : Prop := s.s_size ≠ 0 ∧ (s.s_name = dotData ∨ s.s_name = dotRdata)
def IsBss (s : Section) : Prop := s.s_size ≠ 0 ∧ (s.s_name = dotBss ∨ s.s_name = dotSbss)

instance (s : Section) : Decidable s.IsText := inferInstanceAs (Decidable (_ ∧ _))
instance (s : Section) : Decidable s.IsData := inferInstanceAs (Decidable (_ ∧ _))
instance (s : Section) : Decidable s.IsBss := inferInstanceAs (Decidable (_ ∧ _))

def Known (s : Section) : Prop := s.s_name ∈ [dotText, dotData, dotRdata, dotBss, dotSbss]

instance (s : Section) : Decidable s.Known := inferInstanceAs (Decidable (_ ∈ _))

/-- The data of the section is in the file. -/
def Present (input : List UInt8) (s : Section) : Prop :=
  s.IsText ∨ s.IsData → s.s_scnptr.toNat + s.s_size.toNat ≤ input.length

instance (input : List UInt8) (s : Section) : Decidable (s.Present input) :=
  inferInstanceAs (Decidable (_ → _))

def span (s : Section) : Span (BitVec 32) := ⟨s.s_paddr, s.s_size⟩

end Section

/-! ### The sections that are not empty -/

def texts (l : List Section) : List Section := l.filter (·.IsText)
def datas (l : List Section) : List Section := l.filter (·.IsData)
def bss (l : List Section) : List Section := l.filter (·.IsBss)

/-- The uninitialised sections. -/
def spans (l : List Section) : List (Span (BitVec 32)) := (bss l).map Section.span

/-- The number of bytes that are copied. -/
def copied (l : List Section) : ℕ :=
  ((l.filter fun s => s.IsText ∨ s.IsData).map fun s => s.s_size.toNat).sum

/-- No position in the output is beyond the largest one. -/
def Fits (l : List Section) : Prop := (NoffHeader.sizeOf + copied l : ℤ) ≤ intMax

instance (l : List Section) : Decidable (Fits l) := inferInstanceAs (Decidable (_ ≤ _))

/-- The sections with which the loop comes to its end. -/
structure Accepted (l : List Section) : Prop where
  datas_le : (datas l).length ≤ 1
  not_collides : ¬ Span.Collides (spans l)
  fits : Fits l

/-- The segment is the section of the list, or it is empty if there is none. -/
structure Holds (input : List UInt8) (out : OutFile) (seg : Segment) (l : List Section) :
    Prop where
  size_eq : l = [] → seg.size = 0
  copy : ∀ s ∈ l, seg.virtualAddr = s.s_paddr ∧ seg.size = s.s_size ∧
    NoffHeader.sizeOf ≤ seg.inFileAddr.toNat ∧
    seg.inFileAddr.toNat + s.s_size.toNat ≤ out.length ∧
    ∀ k < s.s_size.toNat, out.bytes (seg.inFileAddr.toNat + k) = image input (s.s_scnptr.toNat + k)

/-- The segments do not overlap in the file. -/
def Apart (seg seg' : Segment) : Prop :=
  seg.size = 0 ∨ seg'.size = 0 ∨
    seg.inFileAddr.toNat + seg.size.toNat ≤ seg'.inFileAddr.toNat ∨
    seg'.inFileAddr.toNat + seg'.size.toNat ≤ seg.inFileAddr.toNat

/-- The state after the sections of `done`; `addr` is the address of the uninitialised data
before the loop. -/
structure Done (input : List UInt8) (addr : BitVec 32) (done : List Section) (st : State) :
    Prop where
  magic : st.noffH.noffMagic = noffMagic
  position : st.out.position = NoffHeader.sizeOf + copied done
  inNoffFile : st.inNoffFile.toNat = st.out.position
  position_le : (st.out.position : ℤ) ≤ intMax
  length_le : st.out.length ≤ st.out.position
  code : Holds input st.out st.noffH.code (texts done)
  initData : Holds input st.out st.noffH.initData (datas done)
  datas_le : (datas done).length ≤ 1
  apart : Apart st.noffH.code st.noffH.initData
  uninitData : (spans done).foldlM Span.merge ⟨addr, 0⟩ =
    some ⟨st.noffH.uninitData.virtualAddr, st.noffH.uninitData.size⟩

variable {input : List UInt8} {addr : BitVec 32} {done rest l l' : List Section} {s : Section}
  {st st' : State} {f f' : OutFile} {seg seg' : Segment} {buf : Mem} {n : ℕ}

/-- A section has one name. -/
theorem Section.IsText.not_isData (h : s.IsText) : ¬ s.IsData := by
  rintro ⟨-, hname⟩
  rw [h.2] at hname
  exact absurd hname (by decide)

theorem Section.IsText.not_isBss (h : s.IsText) : ¬ s.IsBss := by
  rintro ⟨-, hname⟩
  rw [h.2] at hname
  exact absurd hname (by decide)

theorem Section.IsData.not_isBss (h : s.IsData) : ¬ s.IsBss := by
  rintro ⟨-, hname⟩
  rcases h.2 with hdata | hdata
  · rw [hdata] at hname
    exact absurd hname (by decide)
  · rw [hdata] at hname
    exact absurd hname (by decide)

theorem texts_concat : texts (done ++ [s]) = texts done ++ if s.IsText then [s] else [] := by
  rw [texts, List.filter_append, List.filter_singleton, texts]
  simp

theorem datas_concat : datas (done ++ [s]) = datas done ++ if s.IsData then [s] else [] := by
  rw [datas, List.filter_append, List.filter_singleton, datas]
  simp

theorem spans_concat :
    spans (done ++ [s]) = spans done ++ if s.IsBss then [s.span] else [] := by
  rw [spans, bss, List.filter_append, List.filter_singleton, List.map_append, spans, bss]
  by_cases h : s.IsBss <;> simp [h]

theorem copied_concat :
    copied (done ++ [s]) = copied done + if s.IsText ∨ s.IsData then s.s_size.toNat else 0 := by
  rw [copied, List.filter_append, List.filter_singleton, List.map_append, List.sum_append, copied]
  by_cases h : s.IsText ∨ s.IsData <;> simp [h]

/-- What the sections are accepted with, their start is accepted with. -/
theorem Accepted.left (h : Accepted (l ++ l')) : Accepted l := by
  refine ⟨?_, ?_, ?_⟩
  · have := h.datas_le
    rw [datas, List.filter_append, List.length_append] at this
    rw [datas]
    omega
  · rintro ⟨done, y, post, heq, hfollows⟩
    apply h.not_collides
    refine ⟨done, y, post ++ spans l', ?_, hfollows⟩
    rw [spans, bss, List.filter_append, List.map_append, ← bss, ← spans, heq]
    simp [spans, bss]
  · have := h.fits
    rw [Fits, copied, List.filter_append, List.map_append, List.sum_append] at this
    rw [Fits, copied]
    omega

/-! ### Copies -/

/-- A write behind the segments or to the header leaves them as they are. -/
theorem Holds.write (h : Holds input f seg l)
    (hplace : f.length ≤ f.position ∨ f.position + n ≤ NoffHeader.sizeOf)
    (hw : f.write buf n = .ok f') : Holds input f' seg l := by
  rw [OutFile.write] at hw
  split_ifs at hw
  cases hw
  refine ⟨h.size_eq, fun s hs => ?_⟩
  obtain ⟨haddr, hsize, hlow, hend, hbytes⟩ := h.copy s hs
  refine ⟨haddr, hsize, hlow, le_trans hend (le_max_left _ _), fun k hk => ?_⟩
  dsimp only
  rw [Mem.copy_of_not_mem (by omega)]
  exact hbytes k hk

/-- The section that is copied is behind the others. -/
theorem Done.holds_write (h : Done input addr done st)
    (hw : st.out.write ((image input).drop s.s_scnptr.toNat) s.s_size.toNat = .ok f') :
    Holds input f' ⟨s.s_paddr, st.inNoffFile, s.s_size⟩ [s] := by
  have hin := h.inNoffFile
  have hlow : NoffHeader.sizeOf ≤ st.out.position := by
    rw [h.position]
    exact Nat.le_add_right _ _
  rw [OutFile.write] at hw
  split_ifs at hw
  cases hw
  refine ⟨nofun, fun t ht => ?_⟩
  obtain rfl := List.mem_singleton.mp ht
  refine ⟨rfl, rfl, hin ▸ hlow, hin ▸ le_max_right _ _, fun k hk => ?_⟩
  dsimp only
  rw [hin, Mem.copy_of_mem (by omega) (by omega), Mem.drop, Nat.add_sub_cancel_left]

theorem copySection_eq (hlen : (input.length : ℤ) ≤ intMax)
    (hpresent : s.s_scnptr.toNat + s.s_size.toNat ≤ input.length) (st : State) :
    copySection input s st =
      (st.out.write ((image input).drop s.s_scnptr.toNat) s.s_size.toNat).map fun out =>
        { st with
          inPosition := s.s_scnptr.toNat + s.s_size.toNat
          out := out
          inNoffFile := st.inNoffFile + s.s_size } := by
  have hptr : 0 ≤ s.s_scnptr.toInt := by
    rw [BitVec.toInt_eq_toNat_cond]
    unfold intMax at hlen
    split_ifs <;> omega
  have hsize : ¬ s.s_size.toInt < 0 := by
    rw [BitVec.toInt_eq_toNat_cond]
    unfold intMax at hlen
    split_ifs <;> omega
  rw [copySection]
  simp only [if_pos hptr, if_neg hsize, read, if_pos hpresent, bind, Except.bind]
  cases st.out.write ((image input).drop s.s_scnptr.toNat) s.s_size.toNat <;> rfl

/-- A segment that has been copied ends before the next one. -/
theorem Holds.before {inNoffFile : BitVec 32} (h : Holds input f seg l)
    (hlen : f.length ≤ f.position) (hin : inNoffFile.toNat = f.position) :
    seg.size = 0 ∨ seg.inFileAddr.toNat + seg.size.toNat ≤ inNoffFile.toNat := by
  cases l with
  | nil => exact .inl (h.size_eq rfl)
  | cons s l =>
    obtain ⟨-, hsize, -, hend, -⟩ := h.copy s List.mem_cons_self
    right
    rw [hsize]
    omega

theorem Done.write (h : Done input addr done st) (hcopy : s.IsText ∨ s.IsData)
    (hw : st.out.write buf s.s_size.toNat = .ok f') :
    f'.position = NoffHeader.sizeOf + copied (done ++ [s]) ∧
      (st.inNoffFile + s.s_size).toNat = f'.position ∧ (f'.position : ℤ) ≤ intMax ∧
      f'.length ≤ f'.position := by
  have hposition := h.position
  have hin := h.inNoffFile
  have hlen := h.length_le
  rw [copied_concat, if_pos hcopy]
  rw [OutFile.write] at hw
  split_ifs at hw with hle
  cases hw
  unfold intMax at *
  refine ⟨?_, ?_, ?_, ?_⟩
  · simp only
    omega
  · rw [BitVec.toNat_add]
    simp only
    omega
  · simp only
    omega
  · simp only
    omega

theorem Done.write_error {failure : Failure} (h : Done input addr done st)
    (hcopy : s.IsText ∨ s.IsData) (hw : st.out.write buf s.s_size.toNat = .error failure) :
    ¬ Accepted (done ++ [s]) := by
  intro haccepted
  have hfits := haccepted.fits
  have hposition := h.position
  rw [OutFile.write] at hw
  split_ifs at hw with hle
  rw [Fits, copied_concat, if_pos hcopy] at hfits
  omega

/-! ### A round of the loop -/

/-- The sections before and this one are done, or the loop ends here and they are not accepted. -/
def Round (input : List UInt8) (addr : BitVec 32) (done : List Section) (s : Section) (st : State) :
    Prop :=
  (∃ st', convertSection input s st = .ok st' ∧ Done input addr (done ++ [s]) st') ∨
    (∃ failure, convertSection input s st = .error failure) ∧ ¬ Accepted (done ++ [s])

/-- A section that is not copied changes the uninitialised data only. -/
theorem Done.keep (h : Done input addr done st) (htext : ¬ s.IsText) (hdata : ¬ s.IsData)
    (hout : st'.out = st.out) (hin : st'.inNoffFile = st.inNoffFile)
    (hmagic : st'.noffH.noffMagic = st.noffH.noffMagic)
    (hcode : st'.noffH.code = st.noffH.code) (hinit : st'.noffH.initData = st.noffH.initData)
    (hfold : (spans (done ++ [s])).foldlM Span.merge ⟨addr, 0⟩ =
      some ⟨st'.noffH.uninitData.virtualAddr, st'.noffH.uninitData.size⟩) :
    Done input addr (done ++ [s]) st' := by
  constructor
  · rw [hmagic, h.magic]
  · rw [hout, copied_concat, if_neg (not_or.mpr ⟨htext, hdata⟩)]
    exact h.position
  · rw [hin, hout]
    exact h.inNoffFile
  · rw [hout]
    exact h.position_le
  · rw [hout]
    exact h.length_le
  · rw [hout, hcode, texts_concat, if_neg htext, List.append_nil]
    exact h.code
  · rw [hout, hinit, datas_concat, if_neg hdata, List.append_nil]
    exact h.initData
  · rw [datas_concat, if_neg hdata, List.append_nil]
    exact h.datas_le
  · rw [hcode, hinit]
    exact h.apart
  · exact hfold

/-- A section that is copied goes behind the others, or there is no room for it. -/
theorem Done.copy {noffH : NoffHeader} (h : Done input addr done st)
    (hlen : (input.length : ℤ) ≤ intMax) (hcopy : s.IsText ∨ s.IsData) (hpresent : s.Present input)
    (hmagic : noffH.noffMagic = noffMagic)
    (hcode : ∀ f', st.out.write ((image input).drop s.s_scnptr.toNat) s.s_size.toNat = .ok f' →
      Holds input f' noffH.code (texts (done ++ [s])))
    (hinit : ∀ f', st.out.write ((image input).drop s.s_scnptr.toNat) s.s_size.toNat = .ok f' →
      Holds input f' noffH.initData (datas (done ++ [s])))
    (hdatas : (datas (done ++ [s])).length ≤ 1) (hapart : Apart noffH.code noffH.initData)
    (hfold : (spans (done ++ [s])).foldlM Span.merge ⟨addr, 0⟩ =
      some ⟨noffH.uninitData.virtualAddr, noffH.uninitData.size⟩) :
    (∃ st', copySection input s { st with noffH := noffH } = .ok st' ∧
        Done input addr (done ++ [s]) st') ∨
      (∃ failure, copySection input s { st with noffH := noffH } = .error failure) ∧
        ¬ Accepted (done ++ [s]) := by
  rw [copySection_eq hlen (hpresent hcopy)]
  cases hw : st.out.write ((image input).drop s.s_scnptr.toNat) s.s_size.toNat with
  | error failure => exact .inr ⟨⟨failure, rfl⟩, h.write_error hcopy hw⟩
  | ok f' =>
    left
    obtain ⟨hposition, hin, hle, hlength⟩ := h.write hcopy hw
    exact ⟨_, rfl, hmagic, hposition, hin, hle, hlength, hcode f' hw, hinit f' hw, hdatas, hapart,
      hfold⟩

theorem round_empty (h : Done input addr done st) (hsize : s.s_size = 0) :
    Round input addr done s st := by
  left
  refine ⟨st, if_pos hsize, h.keep (fun h => h.1 hsize) (fun h => h.1 hsize) rfl rfl rfl rfl rfl ?_⟩
  rw [spans_concat, if_neg fun h => h.1 hsize, List.append_nil]
  exact h.uninitData

theorem round_text (h : Done input addr done st) (hlen : (input.length : ℤ) ≤ intMax)
    (htext : s.IsText) (hpresent : s.Present input) (htexts : texts done = []) :
    Round input addr done s st := by
  rw [Round, convertSection, if_neg htext.1, if_pos htext.2]
  apply h.copy hlen (.inl htext) hpresent
  · exact h.magic
  · intro f' hw
    rw [texts_concat, htexts, if_pos htext]
    exact h.holds_write hw
  · intro f' hw
    rw [datas_concat, if_neg htext.not_isData, List.append_nil]
    exact h.initData.write (.inl h.length_le) hw
  · rw [datas_concat, if_neg htext.not_isData, List.append_nil]
    exact h.datas_le
  · exact .inr ((h.initData.before h.length_le h.inNoffFile).imp_right .inr)
  · rw [spans_concat, if_neg htext.not_isBss, List.append_nil]
    exact h.uninitData

theorem round_data (h : Done input addr done st) (hlen : (input.length : ℤ) ≤ intMax)
    (hdata : s.IsData) (hpresent : s.Present input) : Round input addr done s st := by
  have htext : ¬ s.IsText := fun htext => htext.not_isData hdata
  have hconcat : datas (done ++ [s]) = datas done ++ [s] := by rw [datas_concat, if_pos hdata]
  rw [Round, convertSection, if_neg hdata.1, if_neg fun hname => htext ⟨hdata.1, hname⟩,
    if_pos hdata.2]
  cases hdatas : datas done with
  | cons t l =>
    -- there has been such a section
    have hmem : t ∈ datas done := by
      rw [hdatas]
      exact List.mem_cons_self
    have hsize : st.noffH.initData.size ≠ 0 := by
      rw [(h.initData.copy t hmem).2.1]
      exact (of_decide_eq_true (List.mem_filter.mp hmem).2).1
    rw [if_pos hsize]
    refine .inr ⟨⟨_, rfl⟩, fun haccepted => ?_⟩
    have hle := haccepted.datas_le
    rw [hconcat, hdatas] at hle
    simp at hle
  | nil =>
    rw [if_neg (not_not.mpr (h.initData.size_eq hdatas))]
    apply h.copy hlen (.inr hdata) hpresent
    · exact h.magic
    · intro f' hw
      rw [texts_concat, if_neg htext, List.append_nil]
      exact h.code.write (.inl h.length_le) hw
    · intro f' hw
      rw [hconcat, hdatas]
      exact h.holds_write hw
    · rw [hconcat, hdatas]
      exact le_rfl
    · exact (h.code.before h.length_le h.inNoffFile).imp_right fun hbefore => .inr (.inl hbefore)
    · rw [spans_concat, if_neg hdata.not_isBss, List.append_nil]
      exact h.uninitData

theorem round_bss (h : Done input addr done st) (hbss : s.IsBss) :
    Round input addr done s st := by
  have htext : ¬ s.IsText := fun htext => htext.not_isBss hbss
  have hdata : ¬ s.IsData := fun hdata => hdata.not_isBss hbss
  have hfold : (spans (done ++ [s])).foldlM Span.merge ⟨addr, 0⟩ =
      Span.merge ⟨st.noffH.uninitData.virtualAddr, st.noffH.uninitData.size⟩ s.span := by
    rw [spans_concat, if_pos hbss, List.foldlM_append, h.uninitData]
    simp
  rw [Round, convertSection, if_neg hbss.1, if_neg fun hname => htext ⟨hbss.1, hname⟩,
    if_neg fun hname => hdata ⟨hbss.1, hname⟩, if_pos hbss.2]
  by_cases hsize : st.noffH.uninitData.size ≠ 0
  · rw [if_pos hsize]
    by_cases haddr : s.s_paddr =
        st.noffH.uninitData.virtualAddr + st.noffH.uninitData.size
    · rw [if_pos haddr]
      refine .inr ⟨⟨_, rfl⟩, fun haccepted => ?_⟩
      rw [Span.merge, if_pos hsize] at hfold
      have hnone := hfold.trans (if_pos haddr)
      exact haccepted.not_collides ((Span.foldlM_merge_eq_none rfl).mp hnone)
    · rw [if_neg haddr]
      left
      refine ⟨_, rfl, h.keep htext hdata rfl rfl rfl rfl rfl ?_⟩
      rw [hfold, Span.merge, if_pos hsize]
      exact if_neg haddr
  · rw [if_neg hsize]
    left
    refine ⟨_, rfl, h.keep htext hdata rfl rfl rfl rfl rfl ?_⟩
    rw [hfold, Span.merge, if_neg hsize]
    rfl

theorem round_known (h : Done input addr done st) (hlen : (input.length : ℤ) ≤ intMax)
    (hknown : s.Known) (hpresent : s.Present input)
    (htexts : (texts (done ++ [s])).length ≤ 1) : Round input addr done s st := by
  by_cases hsize : s.s_size = 0
  · exact round_empty h hsize
  · simp only [Section.Known, List.mem_cons, List.not_mem_nil, or_false] at hknown
    rcases hknown with hname | hname | hname | hname | hname
    · have htext : s.IsText := ⟨hsize, hname⟩
      rw [texts_concat, if_pos htext, List.length_append, List.length_singleton] at htexts
      exact round_text h hlen htext hpresent (List.length_eq_zero_iff.mp (by omega))
    · exact round_data h hlen ⟨hsize, .inl hname⟩ hpresent
    · exact round_data h hlen ⟨hsize, .inr hname⟩ hpresent
    · exact round_bss h ⟨hsize, .inl hname⟩
    · exact round_bss h ⟨hsize, .inr hname⟩

/-! ### The loop -/

theorem done_start {inPosition : ℕ} {noffH : NoffHeader} :
    Done input noffH.uninitData.virtualAddr [] (start inPosition noffH) where
  magic := rfl
  position := rfl
  inNoffFile := rfl
  position_le := (by decide : ((40 : ℕ) : ℤ) ≤ intMax)
  length_le := Nat.zero_le _
  code := ⟨fun _ => rfl, nofun⟩
  initData := ⟨fun _ => rfl, nofun⟩
  datas_le := Nat.zero_le 1
  apart := .inl rfl
  uninitData := rfl

theorem Done.accepted (h : Done input addr done st) : Accepted done := by
  refine ⟨h.datas_le, fun hcollides => ?_, ?_⟩
  · have hsome := h.uninitData
    rw [(Span.foldlM_merge_eq_none rfl).mpr hcollides] at hsome
    cases hsome
  · have hle := h.position_le
    rw [h.position] at hle
    rw [Fits]
    omega

/-- The loop comes to its end exactly when the sections are accepted. -/
theorem convertSections_done (hlen : (input.length : ℤ) ≤ intMax)
    (hknown : ∀ s ∈ rest, s.Known) (hpresent : ∀ s ∈ rest, s.Present input)
    (htexts : (texts (done ++ rest)).length ≤ 1) (h : Done input addr done st) :
    (∃ st', convertSections input rest st = .ok st' ∧ Done input addr (done ++ rest) st') ∨
      (∃ failure, convertSections input rest st = .error failure) ∧ ¬ Accepted (done ++ rest) := by
  induction rest generalizing done st with
  | nil =>
    left
    rw [List.append_nil]
    exact ⟨st, rfl, h⟩
  | cons s rest ih =>
    have hsplit : done ++ s :: rest = done ++ [s] ++ rest := by simp
    rw [hsplit] at htexts ⊢
    have htexts' : (texts (done ++ [s])).length ≤ 1 := by
      rw [texts, List.filter_append, List.length_append] at htexts
      rw [texts]
      omega
    rw [convertSections]
    rcases round_known h hlen (hknown s List.mem_cons_self) (hpresent s List.mem_cons_self) htexts'
      with ⟨st₁, hround, hdone⟩ | ⟨⟨failure, hround⟩, hnot⟩
    · rw [hround]
      exact ih (fun t ht => hknown t (List.mem_cons_of_mem s ht))
        (fun t ht => hpresent t (List.mem_cons_of_mem s ht)) htexts hdone
    · rw [hround]
      exact .inr ⟨⟨failure, rfl⟩, fun haccepted => hnot haccepted.left⟩

end Coursework.Nachos.Coff2noff
