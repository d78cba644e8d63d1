import Coursework.Lib.Untouched
import Coursework.Nachos.Mipssim.Crash
import Coursework.Nachos.Mipssim.Memory

/-!
# Memory that a program does not own

A program reads and writes the frames of its table. The rest of memory could be any other: each
instruction does the same, and leaves it as it is.
-/
namespace Coursework.Nachos.Mipssim
open Mips (Word Reg)

section
variable (owned : ℕ → Prop) [DecidablePred owned] (rest : Mem)

/-- The bytes that are not owned are those of another memory. -/
def Machine.withRest (m : Machine) : Machine :=
  { m with mainMemory := fun p => if owned p then m.mainMemory p else rest p }

def Stop.withRest : Stop → Stop
  | .raised which m => .raised which (m.withRest owned rest)
  | .assertFailed => .assertFailed
  | .hostTrap => .hostTrap

def Executed.withRest (x : Executed) : Executed :=
  { x with machine := x.machine.withRest owned rest }

end

/-- The frames in the table are owned. -/
def Machine.Owns (owned : ℕ → Prop) (m : Machine) : Prop :=
  ∀ (vpn : ℕ) (frame : Word), m.Maps vpn frame →
    ∀ k < pageSize, owned (frame.toNat * pageSize + k)

variable {owned : ℕ → Prop} [DecidablePred owned] {rest : Mem} {m m₁ : Machine}
  {addr value w : Word} {size pa k : ℕ} {writing : Bool} {i : Instruction}

omit [DecidablePred owned] in
theorem Machine.Owns.congr (h : m.Owns owned)
    (htlb : m₁.tlb.map (List.map TranslationEntry.key) = m.tlb.map (List.map TranslationEntry.key))
    (hpt : m₁.pageTable.map (List.map TranslationEntry.key) =
      m.pageTable.map (List.map TranslationEntry.key)) : m₁.Owns owned := by
  intro vpn frame hmaps
  rw [maps_iff_keys, htlb, hpt, ← maps_iff_keys] at hmaps
  exact h vpn frame hmaps

omit [DecidablePred owned] in
theorem Machine.Owns.alike (h : m.Owns owned) (hm : m.SameMemory m₁) : m₁.Owns owned :=
  h.congr hm.tlb hm.pageTable

omit [DecidablePred owned] in
/-- The bytes of an access are owned. -/
theorem Machine.Owns.access (h : m.Owns owned) (hsize : size = 1 ∨ size = 2 ∨ size = 4)
    (htr : m.translated addr size writing = .ok (pa, m₁)) (hk : k < size) : owned (pa + k) := by
  have hphysical : m.Physical addr size writing pa := by
    rw [Machine.translated] at htr
    rw [Machine.Physical]
    cases hr : m.translate addr size writing with
    | error e =>
      rw [hr] at htr
      cases htr
    | ok r =>
      rw [hr] at htr
      cases htr
      rfl
  obtain ⟨frame, hmaps, -, rfl, hend⟩ := physical_frame hsize hphysical
  rw [Nat.add_assoc]
  exact h _ frame hmaps _ (by omega)

/-! ### Accesses -/

theorem translated_withRest (m : Machine) (addr : Word) (size : ℕ) (writing : Bool) :
    (m.withRest owned rest).translated addr size writing =
      relabel (fun r => (r.1, r.2.withRest owned rest)) (Stop.withRest owned rest)
        (m.translated addr size writing) := by
  have htr : (m.withRest owned rest).translate addr size writing =
      (m.translate addr size writing).map fun r => (r.1, r.2.withRest owned rest) := by
    rw [Machine.translate_eq, Machine.translate_eq]
    split_ifs
    · rfl
    · change (m.findEntry (addr.toNat / pageSize)).bind _ = _
      cases m.findEntry (addr.toNat / pageSize) with
      | error e => rfl
      | ok found =>
        simp only [Except.bind]
        split_ifs <;> rfl
  rw [Machine.translated, Machine.translated, htr]
  cases m.translate addr size writing with
  | ok r => rfl
  | error e => cases e <;> rfl

theorem readMem_withRest (h : m.Owns owned) (hsize : size = 1 ∨ size = 2 ∨ size = 4) :
    (m.withRest owned rest).readMem addr size =
      relabel (fun r => (r.1, r.2.withRest owned rest)) (Stop.withRest owned rest)
        (m.readMem addr size) := by
  rw [Machine.readMem, Machine.readMem, translated_withRest]
  apply relabel_bind
  rintro ⟨pa, m₁⟩ htr
  have hloaded : loaded (m₁.withRest owned rest).mainMemory pa size =
      loaded m₁.mainMemory pa size :=
    loaded_congr hsize fun k hk => if_pos (h.access hsize htr hk)
  rcases hsize with rfl | rfl | rfl
  · exact congrArg (fun w => Except.ok (w, m₁.withRest owned rest)) hloaded
  · exact congrArg (fun w => Except.ok (w, m₁.withRest owned rest)) hloaded
  · exact congrArg (fun w => Except.ok (w, m₁.withRest owned rest)) hloaded

theorem writeMem_withRest (h : m.Owns owned) (hsize : size = 1 ∨ size = 2 ∨ size = 4) :
    (m.withRest owned rest).writeMem addr size value =
      relabel (Machine.withRest owned rest) (Stop.withRest owned rest)
        (m.writeMem addr size value) := by
  rw [Machine.writeMem, Machine.writeMem, translated_withRest]
  apply relabel_bind
  rintro ⟨pa, m₁⟩ htr
  have hown : ∀ k < size, owned (pa + k) := fun k hk => h.access hsize htr hk
  have hcopy : (m₁.withRest owned rest).mainMemory.copy pa size (byteOf value) =
      fun p => if owned p then m₁.mainMemory.copy pa size (byteOf value) p else rest p := by
    funext p
    by_cases hp : pa ≤ p ∧ p < pa + size
    · rw [Mem.copy_of_mem hp.1 hp.2, Mem.copy_of_mem hp.1 hp.2, if_pos]
      have := hown (p - pa) (by omega)
      rwa [Nat.add_sub_cancel' hp.1] at this
    · rw [Mem.copy_of_not_mem (by omega), Mem.copy_of_not_mem (by omega)]
      rfl
  rcases hsize with rfl | rfl | rfl
  · exact congrArg (fun mem => Except.ok { m₁ with mainMemory := mem }) hcopy
  · exact congrArg (fun mem => Except.ok { m₁ with mainMemory := mem }) hcopy
  · exact congrArg (fun mem => Except.ok { m₁ with mainMemory := mem }) hcopy

/-! ### An instruction -/

theorem load_withRest {r : Reg} (f : Word × Machine → Word) (h : m.Owns owned)
    (hsize : size = 1 ∨ size = 2 ∨ size = 4)
    (hf : ∀ p : Word × Machine, f (p.1, p.2.withRest owned rest) = f p) :
    (do
      let p ← (m.withRest owned rest).readMem addr size
      pure (p.2.load r (f p))) =
      relabel (Executed.withRest owned rest) (Stop.withRest owned rest) (do
        let p ← m.readMem addr size
        pure (p.2.load r (f p))) := by
  change Except.bind _ _ = relabel _ _ (Except.bind _ _)
  rw [readMem_withRest h hsize]
  apply relabel_bind
  rintro p -
  rw [hf p]
  rfl

theorem store_withRest (h : m.Owns owned) (hsize : size = 1 ∨ size = 2 ∨ size = 4) :
    (do
      let m ← (m.withRest owned rest).writeMem addr size value
      pure m.next) =
      relabel (Executed.withRest owned rest) (Stop.withRest owned rest) (do
        let m ← m.writeMem addr size value
        pure m.next) := by
  change Except.bind _ _ = relabel _ _ (Except.bind _ _)
  rw [writeMem_withRest h hsize]
  apply relabel_bind
  rintro m₁ -
  rfl

theorem readStore_withRest (f : Word × Machine → Word) (h : m.Owns owned)
    (hf : ∀ p : Word × Machine, f (p.1, p.2.withRest owned rest) = f p) :
    (do
      let p ← (m.withRest owned rest).readMem addr 4
      let m ← p.2.writeMem addr 4 (f p)
      pure m.next) =
      relabel (Executed.withRest owned rest) (Stop.withRest owned rest) (do
        let p ← m.readMem addr 4
        let m ← p.2.writeMem addr 4 (f p)
        pure m.next) := by
  change Except.bind _ _ = relabel _ _ (Except.bind _ _)
  rw [readMem_withRest h (.inr (.inr rfl))]
  apply relabel_bind
  rintro p hread
  rw [hf p]
  exact store_withRest (h.alike (Machine.readMem_alike hread).toSameMemory) (.inr (.inr rfl))

/-- What an instruction does with memory it does with the frames of the table. -/
theorem execute_withRest (h : m.Owns owned) (i : Instruction) :
    execute i (m.withRest owned rest) =
      relabel (Executed.withRest owned rest) (Stop.withRest owned rest) (execute i m) := by
  rcases i with ⟨op, rs, rt, rd, extra⟩
  cases op
  case addiu | addu | and | andi | jalr | lui | mfhi | mflo | nor | or | ori | sll | sllv | slt
    | slti | sltiu | sltu | sra | srav | srl | srlv | subu | xor | xori | jal | j | jr | mthi
    | mtlo | mult | multu | syscall | unimp | res | rfe | special | bcond => rfl
  case add | addi | sub | divu =>
    rw [execute, execute]
    exact relabel_ite rfl rfl
  case div =>
    rw [execute, execute]
    exact relabel_ite rfl (relabel_ite rfl rfl)
  case bgezal | bltzal | beq | bgez | bgtz | blez | bltz | bne =>
    refine congrArg Except.ok (Eq.trans ?_ (apply_ite (Executed.withRest owned rest) _ _ _).symm)
    rfl
  case lb | lbu => exact load_withRest _ h (.inl rfl) fun p => rfl
  case lh | lhu =>
    rw [execute, execute]
    exact relabel_ite rfl (load_withRest _ h (.inr (.inl rfl)) fun p => rfl)
  case lw | lwl | lwr =>
    rw [execute, execute]
    exact relabel_ite rfl (load_withRest _ h (.inr (.inr rfl)) fun p => rfl)
  case sb => exact store_withRest h (.inl rfl)
  case sh => exact store_withRest h (.inr (.inl rfl))
  case sw => exact store_withRest h (.inr (.inr rfl))
  case swl | swr =>
    rw [execute, execute]
    exact relabel_ite rfl (readStore_withRest _ h fun p => rfl)

theorem oneInstruction_withRest (h : m.Owns owned) :
    oneInstruction (m.withRest owned rest) =
      relabel (Machine.withRest owned rest) (Stop.withRest owned rest) (oneInstruction m) := by
  have hfetch : (m.withRest owned rest).readMem m.registers.pc 4 = _ :=
    readMem_withRest h (.inr (.inr rfl))
  change Except.bind _ _ = relabel _ _ (Except.bind _ _)
  rw [Machine.fetch, Machine.fetch]
  refine (congrArg (fun r => Except.bind r _) hfetch).trans (relabel_bind ?_)
  rintro ⟨raw, m₁⟩ hread
  have hown := h.alike (Machine.readMem_alike hread).toSameMemory
  change Except.bind _ _ = relabel _ _ (Except.bind _ _)
  refine (congrArg (fun r => Except.bind r _) (execute_withRest hown (decode raw))).trans
    (relabel_bind ?_)
  rintro x -
  rfl

/-! ### The tables -/

/-- The tables are the same but for the use and dirty bits. -/
structure Machine.SameTables (m m' : Machine) : Prop where
  tlb : m'.tlb.map (List.map TranslationEntry.key) = m.tlb.map (List.map TranslationEntry.key)
  pageTable : m'.pageTable.map (List.map TranslationEntry.key) =
    m.pageTable.map (List.map TranslationEntry.key)

/-- The tables are kept, or an exception is one of these. -/
def Tame (which : ExceptionType → Prop) (m : Machine) : Except Stop Executed → Prop
  | .ok x => m.SameTables x.machine
  | .error (.raised e _) => which e
  | .error .assertFailed | .error .hostTrap => True

/-- An access that fails raises one of these exceptions. -/
def Machine.Faults (which : ExceptionType → Prop) (m : Machine) : Prop :=
  ∀ addr size writing e, m.translate addr size writing = .error (some e) → which e

namespace Machine.SameTables

theorem of_memory (h : m.SameMemory m₁) : m.SameTables m₁ := ⟨h.tlb, h.pageTable⟩

theorem trans {m₂ : Machine} (h : m.SameTables m₁) (h' : m₁.SameTables m₂) : m.SameTables m₂ :=
  ⟨h'.tlb.trans h.tlb, h'.pageTable.trans h.pageTable⟩

end Machine.SameTables

theorem translated_raises {e : ExceptionType}
    (h : m.translated addr size writing = .error (.raised e m₁)) :
    m.translate addr size writing = .error (some e) := by
  rw [Machine.translated] at h
  cases hr : m.translate addr size writing with
  | ok r =>
    rw [hr] at h
    cases h
  | error e' =>
    rw [hr] at h
    cases e' <;> cases h
    rfl

theorem readMem_raises {e : ExceptionType} (hsize : size = 1 ∨ size = 2 ∨ size = 4)
    (h : m.readMem addr size = .error (.raised e m₁)) :
    m.translate addr size false = .error (some e) := by
  rw [Machine.readMem] at h
  cases htr : m.translated addr size false with
  | error stop =>
    rw [htr] at h
    cases h
    exact translated_raises htr
  | ok r =>
    rw [htr] at h
    rcases hsize with rfl | rfl | rfl <;> cases h

theorem writeMem_raises {e : ExceptionType} (hsize : size = 1 ∨ size = 2 ∨ size = 4)
    (h : m.writeMem addr size value = .error (.raised e m₁)) :
    m.translate addr size true = .error (some e) := by
  rw [Machine.writeMem] at h
  cases htr : m.translated addr size true with
  | error stop =>
    rw [htr] at h
    cases h
    exact translated_raises htr
  | ok r =>
    rw [htr] at h
    rcases hsize with rfl | rfl | rfl <;> cases h

theorem writeMem_tables (h : m.writeMem addr size value = .ok m₁) : m.SameTables m₁ := by
  rw [Machine.writeMem] at h
  cases htr : m.translated addr size true with
  | error stop =>
    rw [htr] at h
    cases h
  | ok r =>
    rw [htr] at h
    have hr := Machine.SameTables.of_memory (Machine.translated_alike htr).toSameMemory
    simp only [bind, Except.bind] at h
    split at h <;> cases h <;> exact ⟨hr.tlb, hr.pageTable⟩

section
variable {which : ExceptionType → Prop}

theorem tame_read {k : Word × Machine → Except Stop Executed} (hfaults : m.Faults which)
    (hsize : size = 1 ∨ size = 2 ∨ size = 4)
    (hk : ∀ p : Word × Machine, m.SameTables p.2 → Tame which m (k p)) :
    Tame which m ((m.readMem addr size).bind k) := by
  cases hread : m.readMem addr size with
  | ok p => exact hk p (.of_memory (Machine.readMem_alike hread).toSameMemory)
  | error stop =>
    cases stop with
    | raised e m' => exact hfaults addr size false e (readMem_raises hsize hread)
    | assertFailed => trivial
    | hostTrap => trivial

theorem tame_write (hm : m.SameTables m₁) (hfaults : m₁.Faults which)
    (hsize : size = 1 ∨ size = 2 ∨ size = 4) :
    Tame which m ((m₁.writeMem addr size value).bind fun m => pure m.next) := by
  cases hwrite : m₁.writeMem addr size value with
  | ok m' => exact hm.trans (writeMem_tables hwrite)
  | error stop =>
    cases stop with
    | raised e m' => exact hfaults addr size true e (writeMem_raises hsize hwrite)
    | assertFailed => trivial
    | hostTrap => trivial

theorem tame_ite {c : Prop} [Decidable c] {x y : Except Stop Executed} (hx : Tame which m x)
    (hy : Tame which m y) : Tame which m (if c then x else y) := by
  split_ifs
  · exact hx
  · exact hy

/-- The instruction keeps the tables or raises an exception. -/
theorem execute_tame (hacc : ∀ m₁, m.SameTables m₁ → m₁.Faults which)
    (hsyscall : which .syscall) (haddress : which .addressError) (hoverflow : which .overflow)
    (hillegal : which .illegalInstr) (i : Instruction) : Tame which m (execute i m) := by
  have hsame : m.SameTables m := ⟨rfl, rfl⟩
  have hfaults := hacc m hsame
  rcases i with ⟨op, rs, rt, rd, extra⟩
  cases op
  case addiu | addu | and | andi | jalr | lui | mfhi | mflo | nor | or | ori | sll | sllv | slt
    | slti | sltiu | sltu | sra | srav | srl | srlv | subu | xor | xori | jal | j | jr | mthi
    | mtlo | mult | multu => exact ⟨rfl, rfl⟩
  case syscall => exact hsyscall
  case unimp | res => exact hillegal
  case rfe | special | bcond => trivial
  case add | addi | sub =>
    rw [execute]
    exact tame_ite hoverflow ⟨rfl, rfl⟩
  case div =>
    rw [execute]
    exact tame_ite ⟨rfl, rfl⟩ (tame_ite trivial ⟨rfl, rfl⟩)
  case divu =>
    rw [execute]
    exact tame_ite ⟨rfl, rfl⟩ ⟨rfl, rfl⟩
  case bgezal | bltzal | beq | bgez | bgtz | blez | bltz | bne =>
    rw [execute]
    simp only [Tame, pure, Except.pure]
    split_ifs <;> exact ⟨rfl, rfl⟩
  case lb | lbu => exact tame_read hfaults (.inl rfl) fun p hp => ⟨hp.tlb, hp.pageTable⟩
  case lh | lhu =>
    rw [execute]
    exact tame_ite haddress
      (tame_read hfaults (.inr (.inl rfl)) fun p hp => ⟨hp.tlb, hp.pageTable⟩)
  case lw =>
    rw [execute]
    exact tame_ite haddress
      (tame_read hfaults (.inr (.inr rfl)) fun p hp => ⟨hp.tlb, hp.pageTable⟩)
  case lwl | lwr =>
    rw [execute]
    exact tame_ite trivial
      (tame_read hfaults (.inr (.inr rfl)) fun p hp => ⟨hp.tlb, hp.pageTable⟩)
  case sb => exact tame_write hsame hfaults (.inl rfl)
  case sh => exact tame_write hsame hfaults (.inr (.inl rfl))
  case sw => exact tame_write hsame hfaults (.inr (.inr rfl))
  case swl | swr =>
    rw [execute]
    exact tame_ite trivial (tame_read hfaults (.inr (.inr rfl)) fun p hp =>
      tame_write hp (hacc p.2 hp) (.inr (.inr rfl)))

end

/-! ### An address space -/

/-- The page table is the one of an address space but for the use and dirty bits. -/
def Machine.InSpace (numPages : ℕ) (m : Machine) : Prop :=
  m.tlb = none ∧ m.pageTable.map (List.map TranslationEntry.key) =
    some ((addrSpace numPages).map TranslationEntry.key)

namespace Machine.InSpace
variable {numPages vpn : ℕ}

theorem tables (h : m.InSpace numPages) (hm : m.SameTables m₁) : m₁.InSpace numPages := by
  obtain ⟨htlb, hpt⟩ := h
  refine ⟨?_, hm.pageTable.trans hpt⟩
  have hnone := hm.tlb
  rw [htlb, Option.map_none, Option.map_eq_none_iff] at hnone
  exact hnone

/-- An entry of the table, for a page of the space. -/
theorem entry (h : m.InSpace numPages) : ∃ pageTable, m.pageTable = some pageTable ∧
    ∀ {entry : TranslationEntry}, pageTable[vpn]? = some entry → vpn < numPages ∧
      entry.physicalPage = .ofNat 32 vpn ∧ entry.valid = true ∧ entry.readOnly = false := by
  obtain ⟨pageTable, hpt, hkeys⟩ := Option.map_eq_some_iff.mp h.2
  refine ⟨pageTable, hpt, fun {entry} hentry => ?_⟩
  have hkey : (pageTable.map TranslationEntry.key)[vpn]? = some entry.key := by
    rw [List.getElem?_map, hentry, Option.map_some]
  rw [hkeys, addrSpace, List.map_map, List.getElem?_map, Option.map_eq_some_iff] at hkey
  obtain ⟨k, hk, hkey⟩ := hkey
  obtain ⟨hlt, rfl⟩ := List.getElem?_eq_some_iff.mp hk
  rw [List.length_range] at hlt
  rw [List.getElem_range] at hkey
  injection hkey with _ hkey
  injection hkey with hpage hkey
  injection hkey with hvalid hreadOnly
  exact ⟨hlt, hpage.symm, hvalid.symm, hreadOnly.symm⟩

theorem owns (h : m.InSpace numPages) (hpages : numPages ≤ numPhysPages) :
    m.Owns fun p => p < numPages * pageSize := by
  rintro vpn frame ⟨entry, -, rfl, ⟨tlb, htlb, -⟩ | ⟨pageTable, hpt, hentry⟩⟩ k hk
  · rw [h.1] at htlb
    cases htlb
  · obtain ⟨pageTable', hpt', hall⟩ := h.entry
    rw [hpt] at hpt'
    cases hpt'
    obtain ⟨hlt, hpage, -⟩ := hall hentry
    rw [numPhysPages] at hpages
    rw [hpage, BitVec.toNat_ofNat, Nat.mod_eq_of_lt (by omega)]
    rw [pageSize] at hk ⊢
    omega

/-- All pages are valid and can be written to. -/
theorem faults (h : m.InSpace numPages) (hpages : numPages ≤ numPhysPages) :
    m.Faults (· = .addressError) := by
  intro addr size writing e htr
  obtain ⟨pageTable, hpt, hall⟩ := @entry _ _ (addr.toNat / pageSize) h
  rw [Machine.translate_eq, Machine.findEntry, h.1, hpt] at htr
  split_ifs at htr
  · cases htr
    rfl
  · cases hentry : pageTable[addr.toNat / pageSize]? with
    | none =>
      simp only [hentry, Except.bind] at htr
      cases htr
      rfl
    | some entry =>
      obtain ⟨hlt, hpage, hvalid, hreadOnly⟩ := hall hentry
      rw [numPhysPages] at hpages
      have hframe : ¬ entry.physicalPage.toNat ≥ numPhysPages := by
        rw [hpage, BitVec.toNat_ofNat, Nat.mod_eq_of_lt (by omega), numPhysPages]
        omega
      simp only [hentry, hvalid, if_true, Except.bind, hreadOnly, Bool.false_eq_true, false_and,
        if_false, if_neg hframe] at htr
      split_ifs at htr
      cases htr

end Machine.InSpace

/-- The exceptions of a program whose pages are all there. -/
def ExceptionType.OfProgram (e : ExceptionType) : Prop :=
  e = .syscall ∨ e = .addressError ∨ e = .overflow ∨ e = .illegalInstr

section
variable {numPages : ℕ} {m' : Machine} {e : ExceptionType}

theorem oneInstruction_tame (h : m.InSpace numPages) (hpages : numPages ≤ numPhysPages) :
    (∀ m', oneInstruction m = .ok m' → m'.InSpace numPages) ∧
      ∀ e m', oneInstruction m = .error (.raised e m') → e.OfProgram := by
  have hfaults (m₁ : Machine) (hm : m.SameTables m₁) : m₁.Faults ExceptionType.OfProgram :=
    fun addr size writing e htr =>
      .inr (.inl ((h.tables hm).faults hpages addr size writing e htr))
  rw [oneInstruction]
  cases hfetch : m.fetch with
  | error stop =>
    refine ⟨fun m' hm' => (by cases hm'), fun e m' hm' => ?_⟩
    cases hm'
    exact hfaults m ⟨rfl, rfl⟩ _ _ _ _ (readMem_raises (.inr (.inr rfl)) hfetch)
  | ok p =>
    have hp := Machine.SameTables.of_memory (Machine.readMem_alike hfetch).toSameMemory
    have htame := execute_tame (m := p.2) (fun m₁ hm => hfaults m₁ (hp.trans hm)) (.inl rfl)
      (.inr (.inl rfl)) (.inr (.inr (.inl rfl))) (.inr (.inr (.inr rfl))) (decode p.1)
    simp only [bind, Except.bind]
    cases hx : execute (decode p.1) p.2 with
    | error stop =>
      rw [hx] at htame
      refine ⟨fun m' hm' => (by cases hm'), fun e m' hm' => ?_⟩
      cases hm'
      exact htame
    | ok x =>
      rw [hx] at htame
      refine ⟨fun m' hm' => ?_, fun e m' hm' => (by cases hm')⟩
      cases hm'
      exact (h.tables hp).tables ⟨htame.tlb, htame.pageTable⟩

/-- The memory beyond the pages is not touched. -/
theorem oneInstruction_untouched (hpages : numPages ≤ numPhysPages) (rest : Mem) :
    Untouched oneInstruction (Machine.InSpace numPages)
      (Machine.withRest (· < numPages * pageSize) rest)
      (Stop.withRest (· < numPages * pageSize) rest) where
  step_put h := oneInstruction_withRest (h.owns hpages)
  keeps h := (oneInstruction_tame h hpages).1 _

theorem steps_raises (hpages : numPages ≤ numPhysPages) (n : ℕ) (h : m.InSpace numPages)
    (hrun : steps oneInstruction n m = .error (.raised e m')) : e.OfProgram := by
  induction n generalizing m with
  | zero => cases hrun
  | succ n ih =>
    obtain ⟨hok, herror⟩ := oneInstruction_tame h hpages
    rw [steps] at hrun
    cases hone : oneInstruction m with
    | error stop =>
      rw [hone] at hrun
      cases hrun
      exact herror e m' hone
    | ok m₁ =>
      rw [hone] at hrun
      exact ih (hok m₁ hone) hrun

end

end Coursework.Nachos.Mipssim
