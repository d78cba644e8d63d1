import Coursework.Lib.Bits
import Coursework.Nachos.Mipssim.ByteOrder
import Coursework.Nachos.Mipssim.Translate

/-!
# Virtual memory as bytes

An access that succeeds stays inside its frame, and the assertions of `Translate` hold. When
different pages have different frames, what is read is what was written last, byte by byte, with
the least significant byte first.
-/
namespace Coursework.Nachos.Mipssim
open Mips (Word)

variable {m m' m₁ : Machine} {addr b value v : Word} {size pa pb i vpn : ℕ}
  {writing : Bool} {frame : Word} {stop : Stop}

/-! ### The assertions of `Translate` -/

theorem aligned_mod (h : addr &&& 0x3 = 0) : addr.toNat % 4 = 0 :=
  (toNat_and_low addr (k := 2) (by decide)).symm.trans (congrArg BitVec.toNat h)

theorem aligned_mod_two (h : addr &&& 0x1 = 0) : addr.toNat % 2 = 0 :=
  (and_one_eq_zero addr).mp h

/-- An access does not cross the end of its page. -/
theorem access_in_page (hsize : size = 1 ∨ size = 2 ∨ size = 4)
    (halign : ¬ (size = 4 ∧ addr &&& 0x3 ≠ 0 ∨ size = 2 ∧ addr &&& 0x1 ≠ 0)) :
    addr.toNat % pageSize + size ≤ pageSize := by
  rw [not_or, not_and, not_and, not_not, not_not] at halign
  rw [pageSize]
  rcases hsize with rfl | rfl | rfl
  · omega
  · have := aligned_mod_two (halign.2 rfl)
    omega
  · have := aligned_mod (halign.1 rfl)
    omega

/-- There is either a TLB or a page table. -/
def Machine.OneTable (m : Machine) : Prop := m.tlb.isSome ↔ m.pageTable.isNone

theorem Machine.oneTable_of_pageTable {pageTable : List TranslationEntry} (htlb : m.tlb = none)
    (hpt : m.pageTable = some pageTable) : m.OneTable := by
  rw [Machine.OneTable, htlb, hpt]
  exact Iff.rfl

theorem findEntry_asserts (h : m.OneTable) (vpn : ℕ) : m.findEntry vpn ≠ .error none := by
  rw [Machine.OneTable] at h
  rw [Machine.findEntry]
  cases htlb : m.tlb with
  | none =>
    cases hpt : m.pageTable with
    | none => simp [htlb, hpt] at h
    | some pageTable =>
      simp only
      cases pageTable[vpn]? with
      | none => simp
      | some entry =>
        dsimp only
        split_ifs <;> simp
  | some tlb =>
    cases hpt : m.pageTable with
    | none =>
      simp only
      cases tlb.zipIdx.find? _ <;> simp
    | some pageTable => simp [htlb, hpt] at h

/-- The assertions of `Translate` hold. -/
theorem translate_asserts (h : m.OneTable) (hsize : size = 1 ∨ size = 2 ∨ size = 4) :
    m.translate addr size writing ≠ .error none := by
  rw [Machine.translate_eq]
  split_ifs with halign
  · nofun
  · have hpage := access_in_page hsize halign
    cases hfind : m.findEntry (addr.toNat / pageSize) with
    | error e =>
      intro herror
      cases herror
      exact findEntry_asserts h _ hfind
    | ok found =>
      intro herror
      simp only [Except.bind] at herror
      split_ifs at herror with hreadOnly hframe hend
      · cases herror
      · cases herror
      · simp only [pageSize, numPhysPages, memorySize] at hpage hframe hend
        omega

/-! ### Physical addresses -/

/-- `Translate` answers `pa`. -/
def Machine.Physical (m : Machine) (addr : Word) (size : ℕ) (writing : Bool) (pa : ℕ) : Prop :=
  (m.translate addr size writing).map Prod.fst = .ok pa

/-- The table has a valid entry for the page. -/
def Machine.Maps (m : Machine) (vpn : ℕ) (frame : Word) : Prop :=
  ∃ entry : TranslationEntry, entry.valid ∧ entry.physicalPage = frame ∧
    ((∃ tlb, m.tlb = some tlb ∧ entry ∈ tlb ∧ entry.virtualPage.toNat = vpn) ∨
      ∃ pageTable, m.pageTable = some pageTable ∧ pageTable[vpn]? = some entry)

/-- Different pages have different frames. -/
structure Machine.OneToOne (m : Machine) : Prop where
  oneTable : m.OneTable
  distinct {vpn vpn' : ℕ} {frame : Word} : m.Maps vpn frame → m.Maps vpn' frame → vpn = vpn'

theorem findEntry_maps {entry : TranslationEntry} (h : m.findEntry vpn = .ok (i, entry)) :
    m.Maps vpn entry.physicalPage := by
  rw [Machine.findEntry] at h
  split at h
  case h_1 pageTable htlb hpt =>
    split at h
    · cases h
    case h_2 found hat =>
      split_ifs at h with hvalid
      cases h
      exact ⟨entry, hvalid, rfl, .inr ⟨pageTable, hpt, hat⟩⟩
  case h_2 tlb htlb hpt =>
    split at h
    · cases h
    case h_2 found place hfind =>
      cases h
      have hat := List.mem_zipIdx_iff_getElem?.mp (List.mem_of_find?_eq_some hfind)
      have hfound := List.find?_some hfind
      rw [Bool.and_eq_true, beq_iff_eq] at hfound
      exact ⟨entry, hfound.1, rfl, .inl ⟨tlb, htlb, List.mem_of_getElem? hat, hfound.2⟩⟩
  all_goals cases h

/-- The use and dirty bits play no part in what is mapped. -/
theorem maps_iff_keys (m : Machine) (vpn : ℕ) (frame : Word) :
    m.Maps vpn frame ↔
      (∃ tlb, m.tlb.map (List.map TranslationEntry.key) = some tlb ∧
        ∃ key ∈ tlb, key.2.2.1 ∧ key.2.1 = frame ∧ key.1.toNat = vpn) ∨
      ∃ pageTable, m.pageTable.map (List.map TranslationEntry.key) = some pageTable ∧
        ∃ key, pageTable[vpn]? = some key ∧ key.2.2.1 ∧ key.2.1 = frame := by
  constructor
  · rintro ⟨entry, hvalid, rfl, ⟨tlb, htlb, hmem, hvpn⟩ | ⟨pageTable, hpt, hat⟩⟩
    · exact .inl ⟨_, by rw [htlb]; rfl, entry.key, List.mem_map_of_mem hmem, hvalid, rfl, hvpn⟩
    · refine .inr ⟨_, by rw [hpt]; rfl, entry.key, ?_, hvalid, rfl⟩
      rw [List.getElem?_map, hat]
      rfl
  · rintro (⟨keys, htlb, key, hmem, hvalid, rfl, hvpn⟩ | ⟨keys, hpt, key, hat, hvalid, rfl⟩)
    · obtain ⟨tlb, htlb', rfl⟩ := Option.map_eq_some_iff.mp htlb
      obtain ⟨entry, hentry, rfl⟩ := List.mem_map.mp hmem
      exact ⟨entry, hvalid, rfl, .inl ⟨tlb, htlb', hentry, hvpn⟩⟩
    · obtain ⟨pageTable, hpt', rfl⟩ := Option.map_eq_some_iff.mp hpt
      rw [List.getElem?_map, Option.map_eq_some_iff] at hat
      obtain ⟨entry, hentry, rfl⟩ := hat
      exact ⟨entry, hvalid, rfl, .inr ⟨pageTable, hpt', hentry⟩⟩

theorem Machine.OneToOne.congr (hm : m.OneToOne)
    (htlb : m'.tlb.map (List.map TranslationEntry.key) = m.tlb.map (List.map TranslationEntry.key))
    (hpt : m'.pageTable.map (List.map TranslationEntry.key) =
      m.pageTable.map (List.map TranslationEntry.key)) : m'.OneToOne where
  oneTable := by
    have hone := hm.oneTable
    have hsome := congrArg Option.isSome htlb
    have hnone := congrArg Option.isNone hpt
    rw [Option.isSome_map, Option.isSome_map] at hsome
    rw [Option.isNone_map, Option.isNone_map] at hnone
    rw [Machine.OneTable] at hone ⊢
    rw [hsome, hnone, hone]
  distinct h h' := by
    rw [maps_iff_keys, htlb, hpt, ← maps_iff_keys] at h h'
    exact hm.distinct h h'

/-- What is at the key of an entry: its frame, and that it is not written to if it is read-only. -/
theorem physical_iff (hsize : size = 1 ∨ size = 2 ∨ size = 4) :
    m.Physical addr size writing pa ↔
      ¬ (size = 4 ∧ addr &&& 0x3 ≠ 0 ∨ size = 2 ∧ addr &&& 0x1 ≠ 0) ∧
      ∃ i entry, m.findEntry (addr.toNat / pageSize) = .ok (i, entry) ∧
        ¬ (entry.readOnly ∧ writing) ∧ entry.physicalPage.toNat < numPhysPages ∧
        pa = entry.physicalPage.toNat * pageSize + addr.toNat % pageSize := by
  rw [Machine.Physical, Machine.translate_eq]
  split_ifs with halign
  · exact iff_of_false nofun fun h => h.1 halign
  · have hpage := access_in_page hsize halign
    cases hfind : m.findEntry (addr.toNat / pageSize) with
    | error e => exact iff_of_false nofun fun ⟨_, _, _, h, _⟩ => nomatch h
    | ok found =>
      obtain ⟨i, entry⟩ := found
      simp only [Except.bind]
      constructor
      · intro h
        split_ifs at h with hreadOnly hframe hend
        · cases h
        · cases h
        · cases h
        · cases h
          exact ⟨halign, i, entry, rfl, hreadOnly, not_le.mp hframe, rfl⟩
      · rintro ⟨_, i', entry', hentry, hreadOnly, hframe, rfl⟩
        cases hentry
        rw [if_neg hreadOnly, if_neg (not_le.mpr hframe), if_neg]
        · rfl
        · simp only [pageSize, numPhysPages, memorySize] at hpage hframe ⊢
          omega

theorem physical_congr
    (htlb : m'.tlb.map (List.map TranslationEntry.key) = m.tlb.map (List.map TranslationEntry.key))
    (hpt : m'.pageTable.map (List.map TranslationEntry.key) =
      m.pageTable.map (List.map TranslationEntry.key)) :
    m'.Physical addr size writing pa ↔ m.Physical addr size writing pa := by
  rw [Machine.Physical, Machine.Physical, Machine.translate_congr htlb hpt]

/-- The address is in the frame of its page, and so is the end of the access. -/
theorem physical_frame (hsize : size = 1 ∨ size = 2 ∨ size = 4)
    (h : m.Physical addr size writing pa) :
    ∃ frame : Word, m.Maps (addr.toNat / pageSize) frame ∧ frame.toNat < numPhysPages ∧
      pa = frame.toNat * pageSize + addr.toNat % pageSize ∧
      addr.toNat % pageSize + size ≤ pageSize := by
  obtain ⟨halign, i, entry, hfind, _, hframe, rfl⟩ := (physical_iff hsize).mp h
  exact ⟨entry.physicalPage, findEntry_maps hfind, hframe, rfl, access_in_page hsize halign⟩

theorem physical_read (hsize : size = 1 ∨ size = 2 ∨ size = 4)
    (h : m.Physical addr size true pa) : m.Physical addr size false pa := by
  obtain ⟨halign, i, entry, hfind, _, hframe, hpa⟩ := (physical_iff hsize).mp h
  exact (physical_iff hsize).mpr ⟨halign, i, entry, hfind, nofun, hframe, hpa⟩

/-- No address wraps inside an access. -/
theorem toNat_byte (hpage : addr.toNat % pageSize + size ≤ pageSize) (hi : i < size) :
    (addr + .ofNat 32 i).toNat = addr.toNat + i := by
  have haddr := addr.isLt
  rw [pageSize] at hpage
  rw [BitVec.toNat_add, BitVec.toNat_ofNat]
  omega

/-- Each byte of an access can be accessed on its own. -/
theorem physical_byte (hsize : size = 1 ∨ size = 2 ∨ size = 4)
    (h : m.Physical addr size writing pa) (hi : i < size) :
    m.Physical (addr + .ofNat 32 i) 1 writing (pa + i) := by
  obtain ⟨halign, place, entry, hfind, hreadOnly, hframe, rfl⟩ := (physical_iff hsize).mp h
  have hpage := access_in_page hsize halign
  have hbyte := toNat_byte hpage hi
  rw [pageSize] at hpage
  refine (physical_iff (.inl rfl)).mpr ⟨by simp, place, entry, ?_, hreadOnly, hframe, ?_⟩
  · rw [← hfind, hbyte, pageSize]
    congr 1
    omega
  · rw [hbyte, pageSize]
    omega

/-! ### Bytes -/

/-- What is loaded from a physical address. -/
def loaded (mem : Mem) (pa size : ℕ) : Word :=
  if size = 1 then (mem pa).toBitVec.signExtend 32
  else if size = 2 then ((mem.word pa).setWidth 16).setWidth 32
  else mem.word pa

theorem byteOf_loaded (hsize : size = 1 ∨ size = 2 ∨ size = 4) (mem : Mem) (pa : ℕ)
    (hi : i < size) : byteOf (loaded mem pa size) i = mem (pa + i) := by
  rcases hsize with rfl | rfl | rfl
  · obtain rfl : i = 0 := by omega
    apply UInt8.toBitVec_inj.mp
    apply BitVec.eq_of_getLsbD_eq
    intro j hj
    rw [getLsbD_byteOf _ _ hj, loaded, if_pos rfl, Nat.mul_zero, Nat.zero_add,
      BitVec.getLsbD_signExtend, if_pos hj, decide_eq_true (by omega), Bool.true_and]
    rfl
  · rw [loaded, if_neg (by decide), if_pos rfl, byteOf_half _ hi,
      Mem.byteOf_word _ _ (by omega)]
  · rw [loaded, if_neg (by decide), if_neg (by decide), Mem.byteOf_word _ _ hi]

/-- What is loaded depends on its bytes only. -/
theorem loaded_congr {mem mem' : Mem} {p : ℕ} (hsize : size = 1 ∨ size = 2 ∨ size = 4)
    (h : ∀ i < size, mem (p + i) = mem' (pa + i)) : loaded mem p size = loaded mem' pa size := by
  rcases hsize with rfl | rfl | rfl
  · have h0 : mem p = mem' pa := h 0 Nat.one_pos
    change (mem p).toBitVec.signExtend 32 = (mem' pa).toBitVec.signExtend 32
    rw [h0]
  · have hlow : (mem.word p).toNat % 2 ^ 16 = (mem'.word pa).toNat % 2 ^ 16 := by
      apply mod_of_bytes (n := 2)
      intro i hi
      rw [Mem.byteOf_word _ _ (by omega), Mem.byteOf_word _ _ (by omega), h i hi]
    have hhalf : (mem.word p).setWidth 16 = (mem'.word pa).setWidth 16 := by
      apply BitVec.eq_of_toNat_eq
      rw [BitVec.toNat_setWidth, BitVec.toNat_setWidth, hlow]
    change ((mem.word p).setWidth 16).setWidth 32 = ((mem'.word pa).setWidth 16).setWidth 32
    rw [hhalf]
  · exact Mem.word_congr h

theorem readMem_iff (hsize : size = 1 ∨ size = 2 ∨ size = 4) :
    (∃ m₁, m.readMem addr size = .ok (v, m₁)) ↔
      ∃ pa, m.Physical addr size false pa ∧ v = loaded m.mainMemory pa size := by
  rw [Machine.readMem, Machine.translated]
  simp only [Machine.Physical]
  cases htr : m.translate addr size false with
  | error e =>
    apply iff_of_false
    · rintro ⟨m₁, h⟩
      cases h
    · rintro ⟨pa, h, _⟩
      cases h
  | ok r =>
    obtain ⟨pa, m₁⟩ := r
    have hmem := (Machine.translate_alike htr).mainMemory
    constructor
    · rintro ⟨m₂, h⟩
      refine ⟨pa, rfl, ?_⟩
      rw [← hmem]
      rcases hsize with rfl | rfl | rfl <;> cases h <;> rfl
    · rintro ⟨pa', hpa, rfl⟩
      cases hpa
      refine ⟨m₁, ?_⟩
      rw [← hmem]
      rcases hsize with rfl | rfl | rfl <;> rfl

theorem writeMem_ok (hsize : size = 1 ∨ size = 2 ∨ size = 4)
    (h : m.writeMem addr size value = .ok m') :
    ∃ pa, m.Physical addr size true pa ∧
      m'.mainMemory = m.mainMemory.copy pa size (byteOf value) ∧
      ∀ {b : Word} {n : ℕ} {pb : ℕ}, m'.Physical b n false pb ↔ m.Physical b n false pb := by
  rw [Machine.writeMem, Machine.translated] at h
  cases htr : m.translate addr size true with
  | error e =>
    rw [htr] at h
    cases h
  | ok r =>
    obtain ⟨pa, m₁⟩ := r
    rw [htr] at h
    have halike := Machine.translate_alike htr
    refine ⟨pa, by rw [Machine.Physical, htr]; rfl, ?_, ?_⟩
    · rw [← halike.mainMemory]
      rcases hsize with rfl | rfl | rfl <;> cases h <;> rfl
    · intro b n pb
      apply physical_congr
      · rw [← halike.tlb]
        rcases hsize with rfl | rfl | rfl <;> cases h <;> rfl
      · rw [← halike.pageTable]
        rcases hsize with rfl | rfl | rfl <;> cases h <;> rfl

/-- A write does not change what is mapped. -/
theorem writeMem_oneToOne (hm : m.OneToOne) (h : m.writeMem addr size value = .ok m') :
    m'.OneToOne := by
  rw [Machine.writeMem] at h
  cases htr : m.translated addr size true with
  | error e =>
    rw [htr] at h
    cases h
  | ok r =>
    rw [htr] at h
    have halike := Machine.translated_alike htr
    have hr : r.2.OneToOne := hm.congr halike.tlb halike.pageTable
    simp only [bind, Except.bind] at h
    split at h <;> cases h <;> exact hr.congr rfl rfl

/-! ### Reads after writes -/

/-- What is written is read back. -/
theorem readMem_written (hsize : size = 1 ∨ size = 2 ∨ size = 4)
    (h : m.writeMem addr size value = .ok m') :
    ∃ v m₁, m'.readMem addr size = .ok (v, m₁) ∧
      v.toNat % 2 ^ (8 * size) = value.toNat % 2 ^ (8 * size) := by
  obtain ⟨pa, hpa, hmem, hphysical⟩ := writeMem_ok hsize h
  obtain ⟨m₁, hread⟩ := (readMem_iff hsize).mpr ⟨pa, hphysical.mpr (physical_read hsize hpa), rfl⟩
  refine ⟨_, m₁, hread, ?_⟩
  apply mod_of_bytes
  intro i hi
  rw [byteOf_loaded hsize _ _ hi, hmem, Mem.copy_of_mem (by omega) (by omega),
    Nat.add_sub_cancel_left]

/-- A byte elsewhere is not in the range that is written: its page has another frame, or it is
elsewhere in the frame. -/
theorem physical_elsewhere (hm : m.OneToOne) (hsize : size = 1 ∨ size = 2 ∨ size = 4)
    (hpa : m.Physical addr size true pa) (hpb : m.Physical b 1 false pb)
    (hb : b.toNat < addr.toNat ∨ addr.toNat + size ≤ b.toNat) : pb < pa ∨ pa + size ≤ pb := by
  obtain ⟨frame, hframe, _, rfl, hpage⟩ := physical_frame hsize hpa
  obtain ⟨frame', hframe', _, rfl, hpage'⟩ := physical_frame (.inl rfl) hpb
  rw [pageSize] at hpage hpage' ⊢
  by_cases hsame : frame.toNat = frame'.toNat
  · rw [← BitVec.eq_of_toNat_eq hsame] at hframe'
    have hvpn := hm.distinct hframe hframe'
    rw [pageSize] at hvpn
    omega
  · omega

/-- A byte elsewhere is not changed. -/
theorem readMem_elsewhere (hm : m.OneToOne) (hsize : size = 1 ∨ size = 2 ∨ size = 4)
    (h : m.writeMem addr size value = .ok m')
    (hb : b.toNat < addr.toNat ∨ addr.toNat + size ≤ b.toNat) :
    (∃ m₁, m'.readMem b 1 = .ok (v, m₁)) ↔ ∃ m₁, m.readMem b 1 = .ok (v, m₁) := by
  obtain ⟨pa, hpa, hmem, hphysical⟩ := writeMem_ok hsize h
  rw [readMem_iff (.inl rfl), readMem_iff (.inl rfl)]
  apply exists_congr
  intro pb
  rw [hphysical]
  apply and_congr_right
  intro hpb
  rw [loaded, loaded, if_pos rfl, if_pos rfl, hmem,
    Mem.copy_of_not_mem (physical_elsewhere hm hsize hpa hpb hb)]

/-- The bytes of a value that is read can be read one at a time. -/
theorem readMem_bytes (hsize : size = 1 ∨ size = 2 ∨ size = 4)
    (h : m.readMem addr size = .ok (v, m₁)) (hi : i < size) :
    ∃ w m₂, m.readMem (addr + .ofNat 32 i) 1 = .ok (w, m₂) ∧ byteOf v i = byteOf w 0 := by
  obtain ⟨pa, hpa, rfl⟩ := (readMem_iff hsize).mp ⟨m₁, h⟩
  obtain ⟨m₂, hread⟩ := (readMem_iff (.inl rfl)).mpr ⟨pa + i, physical_byte hsize hpa hi, rfl⟩
  refine ⟨_, m₂, hread, ?_⟩
  rw [byteOf_loaded hsize _ _ hi, byteOf_loaded (.inl rfl) _ _ Nat.one_pos, Nat.add_zero]

/-- An access that fails enters the kernel, with memory and tables as they were. -/
theorem access_fails (hm : m.OneTable) (hsize : size = 1 ∨ size = 2 ∨ size = 4)
    (h : m.readMem addr size = .error stop ∨ m.writeMem addr size value = .error stop) :
    ∃ which m', stop = .raised which m' ∧ m'.mainMemory = m.mainMemory ∧ m'.tlb = m.tlb ∧
      m'.pageTable = m.pageTable := by
  have hraised : ∃ e, stop = m.raiseException e addr := by
    rcases h with h | h
    · exact (Machine.readMem_error hsize h).resolve_right
        fun hassert => translate_asserts hm hsize hassert.2
    · exact (Machine.writeMem_error hsize h).resolve_right
        fun hassert => translate_asserts hm hsize hassert.2
  obtain ⟨e, rfl⟩ := hraised
  exact ⟨e, m.raise addr, rfl, rfl, rfl, rfl⟩

/-- Memory under a table with different frames for different pages, on a host of either byte
order. -/
theorem virtual_memory (hm : m.OneToOne) (hsize : size = 1 ∨ size = 2 ∨ size = 4)
    (bigEndian : Bool) (addr : Word) :
    (∀ writing, m.translate addr size writing ≠ .error none) ∧
    (∀ writing pa m', m.translate addr size writing = .ok (pa, m') →
      ∃ frame < numPhysPages, frame * pageSize ≤ pa ∧ pa + size ≤ (frame + 1) * pageSize ∧
        pa + size ≤ memorySize) ∧
    (∀ value m', m.writeMemOn bigEndian addr size value = .ok m' →
      (∃ v m₁, m'.readMemOn bigEndian addr size = .ok (v, m₁) ∧
        v.toNat % 2 ^ (8 * size) = value.toNat % 2 ^ (8 * size)) ∧
      ∀ b : Word, b.toNat < addr.toNat ∨ addr.toNat + size ≤ b.toNat → ∀ v,
        (∃ m₁, m'.readMemOn bigEndian b 1 = .ok (v, m₁)) ↔
          ∃ m₁, m.readMemOn bigEndian b 1 = .ok (v, m₁)) ∧
    (∀ v m₁, m.readMemOn bigEndian addr size = .ok (v, m₁) → ∀ i < size,
      ∃ w m₂, m.readMemOn bigEndian (addr + .ofNat 32 i) 1 = .ok (w, m₂) ∧
        byteOf v i = byteOf w 0) ∧
    ∀ stop, m.readMemOn bigEndian addr size = .error stop ∨
        (∃ value, m.writeMemOn bigEndian addr size value = .error stop) →
      ∃ which m', stop = .raised which m' ∧ m'.mainMemory = m.mainMemory ∧ m'.tlb = m.tlb ∧
        m'.pageTable = m.pageTable := by
  simp only [Machine.readMemOn_eq, Machine.writeMemOn_eq]
  refine ⟨fun writing => translate_asserts hm.oneTable hsize, ?_, ?_, ?_, ?_⟩
  · intro writing pa m' h
    have hpa : m.Physical addr size writing pa := by
      rw [Machine.Physical, h]
      rfl
    obtain ⟨frame, _, hframe, rfl, hpage⟩ := physical_frame hsize hpa
    refine ⟨frame.toNat, hframe, ?_⟩
    simp only [pageSize, numPhysPages, memorySize] at hframe hpage ⊢
    omega
  · intro value m' h
    exact ⟨readMem_written hsize h, fun b hb v => readMem_elsewhere hm hsize h hb⟩
  · intro v m₁ h i hi
    exact readMem_bytes hsize h hi
  · rintro stop (h | ⟨value, h⟩)
    · have herror : _ ∨ m.writeMem addr size 0 = .error stop := .inl h
      exact access_fails hm.oneTable hsize herror
    · exact access_fails hm.oneTable hsize (.inr h)

/-- The page table of a program that is loaded. -/
theorem addrSpace_oneToOne {numPages : ℕ} (hpages : numPages ≤ 2 ^ 32) (htlb : m.tlb = none)
    (hpt : m.pageTable = some (addrSpace numPages)) : m.OneToOne where
  oneTable := Machine.oneTable_of_pageTable htlb hpt
  distinct {vpn vpn' frame} h h' := by
    have hframe : ∀ {n}, m.Maps n frame → frame.toNat = n := by
      rintro n ⟨entry, _, rfl, ⟨tlb, htlb', _⟩ | ⟨pageTable, hpt', hat⟩⟩
      · rw [htlb] at htlb'
        cases htlb'
      · rw [hpt] at hpt'
        cases hpt'
        rw [addrSpace, List.getElem?_map, Option.map_eq_some_iff] at hat
        obtain ⟨i, hi, rfl⟩ := hat
        obtain ⟨hn, hi⟩ := List.getElem?_eq_some_iff.mp hi
        rw [List.length_range] at hn
        rw [List.getElem_range] at hi
        rw [← hi, BitVec.toNat_ofNat, Nat.mod_eq_of_lt (by omega)]
    rw [← hframe h, hframe h']

/-- A half word, written and read back on a big-endian host. -/
theorem virtual_memory_half : ∃ m v m₁,
    (Machine.start [] fun _ => 0).writeMemOn true 6 2 0x51234 = .ok m ∧
      m.readMemOn true 6 2 = .ok (v, m₁) ∧ v.toNat % 2 ^ 16 = 0x1234 := by
  obtain ⟨m, hwrite⟩ : ∃ m, (Machine.start [] fun _ => 0).writeMemOn true 6 2 0x51234 = .ok m :=
    ⟨_, rfl⟩
  have hone : (Machine.start [] fun _ => 0).OneToOne :=
    addrSpace_oneToOne (by decide : 1 ≤ 2 ^ 32) rfl rfl
  obtain ⟨v, m₁, hread, hv⟩ :=
    ((virtual_memory hone (.inr (.inl rfl)) true 6).2.2.1 0x51234 m hwrite).1
  exact ⟨m, v, m₁, hwrite, hread, hv⟩

end Coursework.Nachos.Mipssim
