import Coursework.Nachos.Mipssim.Steps

/-!
# What an instruction does not read

The value of a pending load is read by `LWR` of the same register only. Every other instruction does
the same whatever is being loaded; so does `LWL`, which gets past its assertion only where the whole
word is loaded.
-/
namespace Coursework.Nachos.Mipssim
open Mips (Word Reg)

def Machine.withLoad (m : Machine) (v : Word) : Machine := { m with registers.loadValue := v }

def Executed.withLoad (x : Executed) (v : Word) : Executed :=
  { x with machine := x.machine.withLoad v }

variable {m m₁ : Machine} {i : Instruction} {x : Executed} {addr w v : Word} {size pa : ℕ}
  {writing : Bool}

@[simp] theorem withLoad_registers (m : Machine) (v : Word) :
    (m.withLoad v).registers = { m.registers with loadValue := v } := rfl

theorem translate_withLoad (m : Machine) (v addr : Word) (size : ℕ) (writing : Bool) :
    (m.withLoad v).translate addr size writing =
      (m.translate addr size writing).map fun r => (r.1, r.2.withLoad v) := by
  rw [Machine.translate_eq, Machine.translate_eq]
  split_ifs
  · rfl
  · change (m.findEntry (addr.toNat / pageSize)).bind _ = _
    cases m.findEntry (addr.toNat / pageSize) with
    | error e => rfl
    | ok found =>
      simp only [Except.bind]
      split_ifs <;> rfl

theorem translated_withLoad (h : m.translated addr size writing = .ok (pa, m₁)) (v : Word) :
    (m.withLoad v).translated addr size writing = .ok (pa, m₁.withLoad v) := by
  rw [Machine.translated] at h ⊢
  rw [translate_withLoad]
  cases htr : m.translate addr size writing with
  | error e =>
    rw [htr] at h
    cases h
  | ok r =>
    rw [htr] at h
    cases h
    rfl

theorem readMem_withLoad (h : m.readMem addr size = .ok (w, m₁)) (v : Word) :
    (m.withLoad v).readMem addr size = .ok (w, m₁.withLoad v) := by
  rw [Machine.readMem] at h ⊢
  cases htr : m.translated addr size false with
  | error e =>
    rw [htr] at h
    cases h
  | ok r =>
    rw [translated_withLoad htr v]
    rw [htr] at h
    simp only [bind, Except.bind] at h ⊢
    split at h <;> cases h <;> rfl

theorem writeMem_withLoad {value : Word} (h : m.writeMem addr size value = .ok m₁) (v : Word) :
    (m.withLoad v).writeMem addr size value = .ok (m₁.withLoad v) := by
  rw [Machine.writeMem] at h ⊢
  cases htr : m.translated addr size true with
  | error e =>
    rw [htr] at h
    cases h
  | ok r =>
    rw [translated_withLoad htr v]
    rw [htr] at h
    simp only [bind, Except.bind] at h ⊢
    split at h <;> cases h <;> rfl

theorem load_withLoad {r : Reg} (f f' : Word × Machine → Word)
    (hf : ∀ w m₁, m.Alike m₁ → f' (w, m₁.withLoad v) = f (w, m₁))
    (h : (do
      let p ← m.readMem addr size
      pure (p.2.load r (f p))) = Except.ok x) :
    (do
      let p ← (m.withLoad v).readMem addr size
      pure (p.2.load r (f' p))) = Except.ok (x.withLoad v) := by
  cases hread : m.readMem addr size with
  | error e =>
    rw [hread] at h
    cases h
  | ok p =>
    obtain ⟨w, m₁⟩ := p
    rw [hread] at h
    cases h
    rw [readMem_withLoad hread v]
    simp only [bind, Except.bind, hf w m₁ (Machine.readMem_alike hread)]
    rfl

theorem store_withLoad {value : Word}
    (h : (do
      let m ← m.writeMem addr size value
      pure m.next) = Except.ok x) :
    (do
      let m ← (m.withLoad v).writeMem addr size value
      pure m.next) = Except.ok (x.withLoad v) := by
  cases hwrite : m.writeMem addr size value with
  | error e =>
    rw [hwrite] at h
    cases h
  | ok m₁ =>
    rw [hwrite] at h
    cases h
    rw [writeMem_withLoad hwrite v]
    rfl

theorem readStore_withLoad (f f' : Word × Machine → Word)
    (hf : ∀ w m₁, m.Alike m₁ → f' (w, m₁.withLoad v) = f (w, m₁))
    (h : (do
      let p ← m.readMem addr 4
      let m ← p.2.writeMem addr 4 (f p)
      pure m.next) = Except.ok x) :
    (do
      let p ← (m.withLoad v).readMem addr 4
      let m ← p.2.writeMem addr 4 (f' p)
      pure m.next) = Except.ok (x.withLoad v) := by
  cases hread : m.readMem addr 4 with
  | error e =>
    rw [hread] at h
    cases h
  | ok p =>
    obtain ⟨w, m₁⟩ := p
    rw [hread] at h
    rw [readMem_withLoad hread v]
    simp only [bind, Except.bind, hf w m₁ (Machine.readMem_alike hread)] at h ⊢
    exact store_withLoad h

theorem ite_error_eq_ok {c : Prop} [Decidable c] {e : Stop} {y : Except Stop Executed} :
    (if c then .error e else y) = .ok x ↔ ¬ c ∧ y = .ok x := by
  by_cases hc : c
  · rw [if_pos hc]
    exact iff_of_false nofun fun h => h.1 hc
  · rw [if_neg hc, and_iff_right hc]

theorem ite_withLoad {c : Prop} [Decidable c] (a b : Executed) (v : Word) :
    (if c then a else b).withLoad v = if c then a.withLoad v else b.withLoad v :=
  apply_ite (fun x : Executed => x.withLoad v) c a b

theorem pending_withLoad {r : Reg} (hr : r ≠ m.registers.loadReg) (hm : m.Alike m₁) (v : Word) :
    (m₁.withLoad v).pending r = m₁.pending r := by
  rw [Machine.pending, Machine.pending, withLoad_registers, hm.registers]
  simp only [if_neg hr.symm]

/-- The value that is being loaded is read by `LWR` of its register only. -/
theorem execute_withLoad (hslot : i.target = some m.registers.loadReg → i.opCode ≠ .lwr)
    (h : execute i m = .ok x) (v : Word) : execute i (m.withLoad v) = .ok (x.withLoad v) := by
  rcases i with ⟨op, rs, rt, rd, extra⟩
  cases op
  case addiu | addu | and | andi | jalr | lui | mfhi | mflo | nor | or | ori | sll | sllv | slt
    | slti | sltiu | sltu | sra | srav | srl | srlv | subu | xor | xori | jal | j | jr | mthi
    | mtlo | mult | multu =>
    cases h
    rfl
  case add | addi | sub =>
    obtain ⟨hfits, hx⟩ := ite_error_eq_ok.mp h
    cases hx
    exact ite_error_eq_ok.mpr ⟨hfits, rfl⟩
  case bgezal | bltzal | beq | bgez | bgtz | blez | bltz | bne =>
    cases h
    refine congrArg Except.ok (Eq.trans ?_ (ite_withLoad _ _ v).symm)
    rfl
  case div =>
    by_cases hzero : m.registers.gpr rt = 0
    · have hx := (if_pos hzero).symm.trans h
      cases hx
      exact if_pos hzero
    · obtain ⟨htrap, hx⟩ := ite_error_eq_ok.mp ((if_neg hzero).symm.trans h)
      cases hx
      exact (if_neg hzero).trans (ite_error_eq_ok.mpr ⟨htrap, rfl⟩)
  case divu =>
    by_cases hzero : m.registers.gpr rt = 0
    · have hx := (if_pos hzero).symm.trans h
      cases hx
      exact if_pos hzero
    · have hx := (if_neg hzero).symm.trans h
      cases hx
      exact if_neg hzero
  case lb | lbu =>
    rw [execute] at h ⊢
    simp only at h ⊢
    exact load_withLoad _ _ (fun w m₁ hm => rfl) h
  case lh | lhu | lw =>
    rw [execute] at h ⊢
    simp only at h ⊢
    obtain ⟨halign, hx⟩ := ite_error_eq_ok.mp h
    exact ite_error_eq_ok.mpr ⟨halign, load_withLoad _ _ (fun w m₁ hm => rfl) hx⟩
  case lwl =>
    rw [execute] at h ⊢
    simp only at h ⊢
    obtain ⟨halign, hx⟩ := ite_error_eq_ok.mp h
    refine ite_error_eq_ok.mpr ⟨halign, load_withLoad _ _ (fun w m₁ hm => ?_) hx⟩
    -- the address is aligned, so the word is not merged with what is pending
    simp only [withLoad_registers, not_not.mp halign]
    rfl
  case lwr =>
    have hr : rt ≠ m.registers.loadReg := by
      rintro rfl
      exact hslot rfl rfl
    rw [execute] at h ⊢
    simp only at h ⊢
    obtain ⟨halign, hx⟩ := ite_error_eq_ok.mp h
    refine ite_error_eq_ok.mpr ⟨halign, load_withLoad _ _ (fun w m₁ hm => ?_) hx⟩
    simp only [pending_withLoad hr hm v]
    rfl
  case sb | sh | sw => exact store_withLoad h
  case swl | swr =>
    rw [execute] at h ⊢
    simp only at h ⊢
    obtain ⟨halign, hx⟩ := ite_error_eq_ok.mp h
    exact ite_error_eq_ok.mpr ⟨halign, readStore_withLoad _ _ (fun w m₁ hm => rfl) hx⟩
  case syscall | unimp | res | rfe | special | bcond => cases h

end Coursework.Nachos.Mipssim
