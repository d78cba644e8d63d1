import Coursework.Nachos.Mipssim

/-!
# What an access to memory changes

`Translate` sets the use and dirty bits of the entry that it finds and changes nothing else, and
what it answers does not depend on these bits.
-/
namespace Coursework.Nachos.Mipssim
open Mips (Word Reg)

/-- An entry but for the use and dirty bits. -/
def TranslationEntry.key (entry : TranslationEntry) : Word × Word × Bool × Bool :=
  (entry.virtualPage, entry.physicalPage, entry.valid, entry.readOnly)

/-- Memory and tables are the same but for the use and dirty bits. -/
structure Machine.SameMemory (m m' : Machine) : Prop where
  mainMemory : m'.mainMemory = m.mainMemory
  tlb : m'.tlb.map (List.map TranslationEntry.key) = m.tlb.map (List.map TranslationEntry.key)
  pageTable : m'.pageTable.map (List.map TranslationEntry.key) =
    m.pageTable.map (List.map TranslationEntry.key)

/-- The machines are the same but for the use and dirty bits. -/
structure Machine.Alike (m m' : Machine) : Prop extends m.SameMemory m' where
  registers : m'.registers = m.registers

namespace Machine

variable {m m' m₁ m₂ : Machine} {vpn i size pa : ℕ} {entry entry' : TranslationEntry}
  {addr value : Word} {writing : Bool} {stop : Stop} {e : Option ExceptionType}

theorem SameMemory.trans (h : m.SameMemory m₁) (h' : m₁.SameMemory m₂) : m.SameMemory m₂ :=
  ⟨h'.mainMemory.trans h.mainMemory, h'.tlb.trans h.tlb, h'.pageTable.trans h.pageTable⟩

theorem Alike.refl (m : Machine) : m.Alike m := ⟨⟨rfl, rfl, rfl⟩, rfl⟩

theorem Alike.trans (h : m.Alike m₁) (h' : m₁.Alike m₂) : m.Alike m₂ :=
  ⟨h.toSameMemory.trans h'.toSameMemory, h'.registers.trans h.registers⟩

/-! ### The entry -/

/-- The entry stands at its place. -/
theorem findEntry_at (h : m.findEntry vpn = .ok (i, entry)) :
    (∀ tlb, m.tlb = some tlb → m.pageTable = none ∧ tlb[i]? = some entry) ∧
    ∀ pageTable, m.pageTable = some pageTable → m.tlb = none ∧ pageTable[i]? = some entry := by
  rw [findEntry] at h
  split at h
  case h_1 pageTable htlb hpt =>
    split at h
    · cases h
    case h_2 found hat =>
      split_ifs at h
      cases h
      refine ⟨fun tlb htlb' => ?_, fun pageTable' hpt' => ?_⟩
      · rw [htlb] at htlb'
        cases htlb'
      · rw [hpt] at hpt'
        cases hpt'
        exact ⟨htlb, hat⟩
  case h_2 tlb htlb hpt =>
    split at h
    · cases h
    case h_2 found place hfind =>
      cases h
      have hat := List.mem_zipIdx_iff_getElem?.mp (List.mem_of_find?_eq_some hfind)
      refine ⟨fun tlb' htlb' => ?_, fun pageTable hpt' => ?_⟩
      · rw [htlb] at htlb'
        cases htlb'
        exact ⟨hpt, hat⟩
      · rw [hpt] at hpt'
        cases hpt'
  all_goals cases h

theorem map_key_set {l : List TranslationEntry} (h : l[i]? = some entry)
    (hkey : entry'.key = entry.key) :
    (l.set i entry').map TranslationEntry.key = l.map TranslationEntry.key := by
  rw [List.map_set, hkey]
  apply List.ext_getElem?
  intro j
  rw [List.getElem?_set]
  split_ifs with hij hlt
  · rw [← hij, List.getElem?_map, h]
    rfl
  · rw [← hij, List.getElem?_eq_none (not_lt.mp hlt)]
  · rfl

theorem setEntry_alike (h : m.findEntry vpn = .ok (i, entry)) (hkey : entry'.key = entry.key) :
    m.Alike (m.setEntry i entry') := by
  obtain ⟨htlb, hpt⟩ := findEntry_at h
  refine ⟨⟨rfl, ?_, ?_⟩, rfl⟩
  · cases hm : m.tlb with
    | none => rw [setEntry, hm]; rfl
    | some tlb =>
      rw [setEntry, hm]
      exact congrArg some (map_key_set (htlb tlb hm).2 hkey)
  · cases hm : m.pageTable with
    | none => rw [setEntry, hm]; rfl
    | some pageTable =>
      rw [setEntry, hm]
      exact congrArg some (map_key_set (hpt pageTable hm).2 hkey)

/-! ### `Translate` -/

/-- What `Translate` does with the entry that it has found. -/
theorem translate_eq (m : Machine) (addr : Word) (size : ℕ) (writing : Bool) :
    m.translate addr size writing =
      if size = 4 ∧ addr &&& 0x3 ≠ 0 ∨ size = 2 ∧ addr &&& 0x1 ≠ 0 then
        .error (some .addressError)
      else (m.findEntry (addr.toNat / pageSize)).bind fun (i, entry) =>
        if entry.readOnly ∧ writing then .error (some .readOnly)
        else if entry.physicalPage.toNat ≥ numPhysPages then .error (some .busError)
        else if entry.physicalPage.toNat * pageSize + addr.toNat % pageSize + size > memorySize then
          .error none
        else .ok (entry.physicalPage.toNat * pageSize + addr.toNat % pageSize,
          m.setEntry i { entry with use := true, dirty := entry.dirty || writing }) := by
  rw [translate]
  by_cases halign : size = 4 ∧ addr &&& 0x3 ≠ 0 ∨ size = 2 ∧ addr &&& 0x1 ≠ 0
  · simp only [if_pos halign]
    rfl
  · simp only [if_neg halign]
    cases m.findEntry (addr.toNat / pageSize) with
    | error e => rfl
    | ok found =>
      simp only [bind, Except.bind, pure, Except.pure]
      split_ifs <;> rfl

theorem translate_alike (h : m.translate addr size writing = .ok (pa, m')) : m.Alike m' := by
  rw [translate_eq] at h
  split_ifs at h
  cases hfind : m.findEntry (addr.toNat / pageSize) with
  | error e => rw [hfind] at h; cases h
  | ok found =>
    rw [hfind] at h
    simp only [Except.bind] at h
    split_ifs at h
    cases h
    exact setEntry_alike hfind rfl

theorem translated_alike (h : m.translated addr size writing = .ok (pa, m')) : m.Alike m' := by
  rw [translated] at h
  cases htr : m.translate addr size writing with
  | error e => rw [htr] at h; cases h
  | ok r =>
    rw [htr] at h
    cases h
    exact translate_alike htr

/-- An access that fails is reported to the kernel, or an assertion of `Translate` fails. -/
theorem translated_error (h : m.translated addr size writing = .error stop) :
    (∃ e, stop = m.raiseException e addr) ∨
      stop = .assertFailed ∧ m.translate addr size writing = .error none := by
  rw [translated] at h
  cases htr : m.translate addr size writing with
  | error e =>
    rw [htr] at h
    cases e with
    | none =>
      cases h
      exact .inr ⟨rfl, rfl⟩
    | some e =>
      cases h
      exact .inl ⟨e, rfl⟩
  | ok r =>
    rw [htr] at h
    cases h

/-! ### Reads and writes -/

theorem readMem_alike (h : m.readMem addr size = .ok (value, m')) : m.Alike m' := by
  rw [readMem] at h
  cases htr : m.translated addr size false with
  | error stop => rw [htr] at h; cases h
  | ok r =>
    rw [htr] at h
    simp only [bind, Except.bind] at h
    split at h <;> cases h <;> exact translated_alike htr

theorem readMem_error (hsize : size = 1 ∨ size = 2 ∨ size = 4)
    (h : m.readMem addr size = .error stop) :
    (∃ e, stop = m.raiseException e addr) ∨
      stop = .assertFailed ∧ m.translate addr size false = .error none := by
  rw [readMem] at h
  cases htr : m.translated addr size false with
  | error e =>
    rw [htr] at h
    cases h
    exact translated_error htr
  | ok r =>
    rw [htr] at h
    rcases hsize with rfl | rfl | rfl <;> cases h

theorem writeMem_registers (h : m.writeMem addr size value = .ok m') :
    m'.registers = m.registers := by
  rw [writeMem] at h
  cases htr : m.translated addr size true with
  | error stop => rw [htr] at h; cases h
  | ok r =>
    rw [htr] at h
    simp only [bind, Except.bind] at h
    split at h <;> cases h <;> exact (translated_alike htr).registers

theorem writeMem_error (hsize : size = 1 ∨ size = 2 ∨ size = 4)
    (h : m.writeMem addr size value = .error stop) :
    (∃ e, stop = m.raiseException e addr) ∨
      stop = .assertFailed ∧ m.translate addr size true = .error none := by
  rw [writeMem] at h
  cases htr : m.translated addr size true with
  | error e =>
    rw [htr] at h
    cases h
    exact translated_error htr
  | ok r =>
    rw [htr] at h
    rcases hsize with rfl | rfl | rfl <;> cases h

/-! ### The use and dirty bits play no part -/

/-- `findEntry` in tables without the use and dirty bits. -/
def findKey (tlb pageTable : Option (List (Word × Word × Bool × Bool))) (vpn : ℕ) :
    Except (Option ExceptionType) (Word × Word × Bool × Bool) :=
  match tlb, pageTable with
  | none, some pageTable =>
    match pageTable[vpn]? with
    | none => .error (some .addressError)
    | some key => if key.2.2.1 then .ok key else .error (some .pageFault)
  | some tlb, none =>
    match tlb.find? fun key => key.2.2.1 && key.1.toNat == vpn with
    | none => .error (some .pageFault)
    | some key => .ok key
  | none, none | some _, some _ => .error none

theorem findEntry_key (m : Machine) (vpn : ℕ) :
    (m.findEntry vpn).map (fun p => p.2.key) =
      findKey (m.tlb.map (List.map TranslationEntry.key))
        (m.pageTable.map (List.map TranslationEntry.key)) vpn := by
  rw [findEntry, findKey.eq_def]
  cases m.tlb with
  | none =>
    cases m.pageTable with
    | none => rfl
    | some pageTable =>
      simp only [Option.map_none, Option.map_some, List.getElem?_map]
      cases pageTable[vpn]? with
      | none => rfl
      | some entry =>
        rcases entry with ⟨_, _, valid, _, _, _⟩
        cases valid <;> rfl
  | some tlb =>
    cases m.pageTable with
    | none =>
      simp only [Option.map_none, Option.map_some, List.find?_map]
      have hfst : tlb.find? (fun entry => entry.valid && entry.virtualPage.toNat == vpn) =
          (tlb.zipIdx.find? fun p => p.1.valid && p.1.virtualPage.toNat == vpn).map Prod.fst := by
        conv_lhs => rw [← List.zipIdx_map_fst 0 tlb, List.find?_map]
        rfl
      have hcomp : (fun key : Word × Word × Bool × Bool => key.2.2.1 && key.1.toNat == vpn) ∘
          TranslationEntry.key = fun entry => entry.valid && entry.virtualPage.toNat == vpn := rfl
      rw [hcomp, hfst]
      cases tlb.zipIdx.find? _ <;> rfl
    | some pageTable => rfl

theorem translate_key (m : Machine) (addr : Word) (size : ℕ) (writing : Bool) :
    (m.translate addr size writing).map Prod.fst =
      if size = 4 ∧ addr &&& 0x3 ≠ 0 ∨ size = 2 ∧ addr &&& 0x1 ≠ 0 then
        .error (some .addressError)
      else ((m.findEntry (addr.toNat / pageSize)).map fun p => p.2.key).bind fun key =>
        if key.2.2.2 ∧ writing then .error (some .readOnly)
        else if key.2.1.toNat ≥ numPhysPages then .error (some .busError)
        else if key.2.1.toNat * pageSize + addr.toNat % pageSize + size > memorySize then
          .error none
        else .ok (key.2.1.toNat * pageSize + addr.toNat % pageSize) := by
  rw [translate_eq]
  split_ifs
  · rfl
  · cases m.findEntry (addr.toNat / pageSize) with
    | error e => rfl
    | ok found =>
      simp only [Except.bind, Except.map, TranslationEntry.key]
      split_ifs <;> rfl

/-- The answer depends on the tables only. -/
theorem translate_congr
    (htlb : m'.tlb.map (List.map TranslationEntry.key) = m.tlb.map (List.map TranslationEntry.key))
    (hpt : m'.pageTable.map (List.map TranslationEntry.key) =
      m.pageTable.map (List.map TranslationEntry.key)) (addr : Word) (size : ℕ) (writing : Bool) :
    (m'.translate addr size writing).map Prod.fst =
      (m.translate addr size writing).map Prod.fst := by
  rw [translate_key, translate_key, findEntry_key, findEntry_key, htlb, hpt]

theorem SameMemory.translate (h : m.SameMemory m') (addr : Word) (size : ℕ) (writing : Bool) :
    (m'.translate addr size writing).map Prod.fst =
      (m.translate addr size writing).map Prod.fst :=
  translate_congr h.tlb h.pageTable addr size writing

/-- A word that can be read is read again. -/
theorem SameMemory.readMem (h : m.SameMemory m') (hread : m.readMem addr size = .ok (value, m₁)) :
    ∃ m₂, m'.readMem addr size = .ok (value, m₂) := by
  have htr := h.translate addr size false
  rw [Machine.readMem, translated] at hread ⊢
  cases hm : m.translate addr size false with
  | error e =>
    rw [hm] at hread
    cases hread
  | ok r =>
    cases hm' : m'.translate addr size false with
    | error e =>
      rw [hm, hm'] at htr
      cases htr
    | ok r' =>
      rw [hm, hm'] at htr
      rw [hm] at hread
      obtain ⟨pa', m₂'⟩ := r'
      obtain ⟨pa, m₁'⟩ := r
      obtain rfl : pa' = pa := Except.ok.inj htr
      have hmem : m₂'.mainMemory = m₁'.mainMemory := by
        rw [(translate_alike hm').mainMemory, h.mainMemory, (translate_alike hm).mainMemory]
      simp only [bind, Except.bind, Except.mapError, hmem] at hread ⊢
      split at hread <;> cases hread <;> exact ⟨m₂', rfl⟩

end Machine
end Coursework.Nachos.Mipssim
