import Coursework.Lib.Machine
import Coursework.Nachos.Mipssim.Pending

/-!
# Delayed loads and program order

Beside the machine stand the values that the registers would have if every instruction wrote at
once. A pending load is all that the machine lacks, as long as the instruction that runs while it
is pending does not write the register that is loaded: the load is carried out behind it.
-/
namespace Coursework.Nachos.Mipssim
open Mips (Word Reg)

/-- The value that an instruction gives to register `r`. -/
def Executed.value (x : Executed) (i : Instruction) (r : Reg) : Word :=
  if i.isLoad then x.nextLoadValue else x.machine.registers.gpr r

/-- The registers after an instruction in program order. -/
def inOrder (order : Reg → Word) (i : Instruction) (x : Executed) : Reg → Word :=
  match i.target with
  | none => order
  | some r => Function.update (Function.update order r (x.value i r)) 0 0

/-- A machine between two instructions, and its registers in program order. -/
structure Traced where
  machine : Machine
  /-- before the last instruction -/
  before : Reg → Word
  /-- after the last instruction -/
  order : Reg → Word
  /-- the target of the last instruction, if that is a load -/
  loading : Option Reg

/-- A load that is pending at the start is the last instruction. -/
def Traced.start (m : Machine) : Traced where
  machine := m
  before := m.registers.gpr
  order := Function.update
    (Function.update m.registers.gpr m.registers.loadReg m.registers.loadValue) 0 0
  loading := some m.registers.loadReg

/-- An instruction that raises no exception. -/
def Traced.step (t : Traced) : Option Traced :=
  match t.machine.fetch with
  | .error _ => none
  | .ok (w, m) =>
    match execute (decode w) m with
    | .error _ => none
    | .ok x => some
      { machine := x.commit
        before := t.order
        order := inOrder t.order (decode w) x
        loading := if (decode w).isLoad then (decode w).target else none }

def processor : Coursework.Machine Traced Unit where
  init t := ∃ m, m.registers.gpr 0 = 0 ∧ t = .start m
  step t _ := t.step

/-- The last instructions in program order give the registers their values, but for a load that
was the last instruction: its target still has the old value. -/
structure InOrder (t : Traced) : Prop where
  settled : ∀ r, t.loading ≠ some r → t.machine.registers.gpr r = t.order r
  delayed : ∀ r, t.loading = some r → t.machine.registers.gpr r = t.before r
  zero : t.machine.registers.gpr 0 = 0

/-- No instruction but `LB`, `LBU`, `LH`, `LHU`, `LW` and `LWL` has the register that is being
loaded as its target. -/
def SlotFree (t : Traced) : Prop :=
  ∀ w m, t.machine.fetch = .ok (w, m) → t.machine.registers.loadReg ≠ 0 →
    (decode w).target = some t.machine.registers.loadReg →
      (decode w).isLoad = true ∧ (decode w).opCode ≠ .lwr

/-- The instruction behind a load does the same whatever is being loaded. -/
def ReadsOld (t : Traced) : Prop :=
  t.machine.registers.loadReg ≠ 0 → ∀ w m x, t.machine.fetch = .ok (w, m) →
    execute (decode w) m = .ok x → ∀ v, execute (decode w) (m.withLoad v) = .ok (x.withLoad v)

variable {t t' : Traced} {m m₁ : Machine} {w : Word} {i : Instruction} {x : Executed}

theorem step_eq_some : t.step = some t' ↔
    ∃ w m x, t.machine.fetch = .ok (w, m) ∧ execute (decode w) m = .ok x ∧
      t' =
        { machine := x.commit
          before := t.order
          order := inOrder t.order (decode w) x
          loading := if (decode w).isLoad then (decode w).target else none } := by
  rw [Traced.step]
  constructor
  · intro h
    split at h
    · cases h
    case h_2 w m hfetch =>
      split at h
      · cases h
      case h_2 x hexecute => exact ⟨w, m, x, hfetch, hexecute, (Option.some.inj h).symm⟩
  · rintro ⟨w, m, x, hfetch, hexecute, rfl⟩
    simp only [hfetch, hexecute]

/-- The machine takes the steps of `OneInstruction`. -/
theorem step_oneInstruction (h : t.step = some t') : oneInstruction t.machine = .ok t'.machine := by
  obtain ⟨w, m, x, hfetch, hexecute, rfl⟩ := step_eq_some.mp h
  simp only [oneInstruction, hfetch, bind, Except.bind, hexecute]
  rfl

/-! ### The pending load is what is missing -/

/-- The registers with the pending load carried out. -/
def Registers.carriedOut (R : Registers) : Reg → Word :=
  Function.update (Function.update R.gpr R.loadReg R.loadValue) 0 0

theorem carriedOut_zero (R : Registers) : R.carriedOut 0 = 0 := Function.update_self 0 _ _

structure Traced.Inv (t : Traced) : Prop where
  order : t.order = t.machine.registers.carriedOut
  before : t.loading ≠ none → t.before = t.machine.registers.gpr
  pending : t.loading = some t.machine.registers.loadReg ∨
    t.loading = none ∧ t.machine.registers.loadReg = 0
  zero : t.machine.registers.gpr 0 = 0

theorem carriedOut_of_ne {R : Registers} {r : Reg} (hzero : R.gpr 0 = 0) (hr : r ≠ R.loadReg) :
    R.carriedOut r = R.gpr r := by
  rw [Registers.carriedOut, Function.update_apply]
  split_ifs with h0
  · rw [h0, hzero]
  · exact Function.update_of_ne hr _ _

theorem Traced.Inv.inOrder (h : t.Inv) : InOrder t where
  settled r hr := by
    rw [h.order]
    rcases h.pending with hpending | ⟨_, hnone⟩
    · exact (carriedOut_of_ne h.zero fun heq => hr (by rw [hpending, heq])).symm
    · by_cases h0 : r = 0
      · rw [h0, h.zero, carriedOut_zero]
      · exact (carriedOut_of_ne h.zero fun heq => h0 (heq.trans hnone)).symm
  delayed r hr := by rw [h.before (hr ▸ Option.some_ne_none r)]
  zero := h.zero

theorem start_inv (hzero : m.registers.gpr 0 = 0) : (Traced.start m).Inv where
  order := rfl
  before _ := rfl
  pending := .inl rfl
  zero := hzero

/-- A write that is not to the register being loaded may change places with the load. -/
theorem carriedOut_write (R : Registers) {r : Reg} (v : Word)
    (hr : R.loadReg ≠ 0 → r ≠ R.loadReg) :
    Function.update (Function.update R.carriedOut r v) 0 0 =
      ({ R with gpr := Function.update R.gpr r v } : Registers).carriedOut := by
  funext r'
  simp only [Registers.carriedOut, Function.update_apply]
  by_cases h0 : r' = 0
  · rw [if_pos h0, if_pos h0]
  · simp only [if_neg h0]
    by_cases hl : r' = R.loadReg
    · have hne : r' ≠ r := fun heq => hr (hl ▸ h0) (heq ▸ hl)
      rw [if_neg hne, if_pos hl, if_pos hl]
    · rw [if_neg hl, if_neg hl]

theorem commit_inv {order before : Reg → Word} {loading : Option Reg}
    (hbefore : loading ≠ none → before = x.machine.registers.carriedOut)
    (hpending : loading = some x.nextLoadReg ∨ loading = none ∧ x.nextLoadReg = 0)
    (horder : order =
      Function.update (Function.update x.machine.registers.carriedOut x.nextLoadReg
        x.nextLoadValue) 0 0) :
    (⟨x.commit, before, order, loading⟩ : Traced).Inv where
  order := horder
  before := hbefore
  pending := hpending
  zero := carriedOut_zero x.machine.registers

theorem isLoad_of_target_none (h : i.target = none) : i.isLoad = false := by
  rcases i with ⟨op, rs, rt, rd, extra⟩
  cases op <;> first | rfl | cases h

theorem carriedOut_idem (R : Registers) :
    Function.update (Function.update R.carriedOut 0 0) 0 0 = R.carriedOut := by
  rw [Function.update_idem]
  exact Function.update_eq_self_iff.mpr (carriedOut_zero R).symm

/-- An instruction without a target leaves the pending load carried out. -/
theorem silent_inv {order : Reg → Word} {pcAfter : Word} (ht : i.target = none)
    (horder : order = m.registers.carriedOut) :
    (⟨(⟨m, pcAfter, 0, 0⟩ : Executed).commit, order, inOrder order i ⟨m, pcAfter, 0, 0⟩,
      if i.isLoad then i.target else none⟩ : Traced).Inv := by
  have hload := isLoad_of_target_none ht
  refine commit_inv (fun hloading => ?_) (.inr ⟨?_, rfl⟩) ?_
  · simp [hload] at hloading
  · simp [hload]
  · simp only [inOrder, ht, horder]
    exact (carriedOut_idem _).symm

/-- What one instruction preserves. -/
theorem step_inv (hfree : SlotFree t) (hinv : t.Inv) (h : t.step = some t') : t'.Inv := by
  obtain ⟨w, m, x, hfetch, hexecute, rfl⟩ := step_eq_some.mp h
  have hregs : m.registers = t.machine.registers := (Machine.readMem_alike hfetch).registers
  have horder : t.order = m.registers.carriedOut := hregs ▸ hinv.order
  have hdid := execute_ends (decode w) m
  rw [hexecute] at hdid
  cases hdid with
  | write v pcAfter ht hload =>
    rename_i r
    have hr : m.registers.loadReg ≠ 0 → r ≠ m.registers.loadReg := by
      rintro hpending rfl
      rw [hregs] at hpending ht
      exact absurd (hfree w m hfetch hpending ht).1 (by simp [hload])
    have hvalue : (⟨m.set r v, pcAfter, 0, 0⟩ : Executed).value (decode w) r = v := by
      rw [Executed.value, if_neg (by simp [hload])]
      change Function.update m.registers.gpr r v r = v
      rw [Function.update_self]
    refine commit_inv (fun hloading => ?_) (.inr ⟨?_, rfl⟩) ?_
    · simp [hload] at hloading
    · simp [hload]
    · simp only [inOrder, ht, hvalue, horder]
      rw [carriedOut_write m.registers v hr]
      exact (carriedOut_idem _).symm
  | setHiLo hi lo ht => exact silent_inv ht horder
  | branch pcAfter ht => exact silent_inv ht horder
  | store hm ht => exact silent_inv ht (hm ▸ horder)
  | load v hm ht hload =>
    refine commit_inv (fun _ => ?_) (.inl ?_) ?_
    · rw [horder, ← hm.registers]
      rfl
    · simp only [hload, ht]
      rfl
    · simp only [inOrder, ht, horder, ← hm.registers]
      rw [Executed.value, if_pos hload]
      rfl

theorem SlotFree.readsOld (hfree : SlotFree t) : ReadsOld t := by
  intro hpending w m x hfetch hexecute v
  have hregs : m.registers = t.machine.registers := (Machine.readMem_alike hfetch).registers
  exact execute_withLoad (fun ht => (hfree w m hfetch hpending (hregs ▸ ht)).2) hexecute v

/-! ### Runs -/

/-- In a run without another write to a register that is being loaded, the registers have the
values of program order and the old value is read. -/
theorem program_order (hzero : m.registers.gpr 0 = 0) {es : List Unit}
    (hfree : processor.Meets (fun t _ => SlotFree t) (.start m) es) :
    processor.Visits InOrder (.start m) es ∧
      processor.Meets (fun t _ => ReadsOld t) (.start m) es :=
  ⟨hfree.visits (fun _ hinv => hinv.inOrder)
      (fun _ _ _ hinv hfree h => step_inv hfree hinv h) (start_inv hzero),
    hfree.imp (I := fun _ => True) (fun _ _ _ _ hfree _ => ⟨hfree.readsOld, trivial⟩) trivial⟩

/-- Register 1 is loaded from address 16 while registers 2 and 3 are added into register 4. -/
def freeProgram : Machine :=
  .start [0x8c010010, 0x00432021, 0, 0, 9] fun r => if r = 2 then 2 else if r = 3 then 3 else 0

theorem freeProgram_meets :
    processor.Meets (fun t _ => SlotFree t) (.start freeProgram) [(), ()] := by
  intro t ht
  refine ⟨fun w m _ hpending => absurd rfl hpending, fun t' _ => ⟨?_, trivial⟩⟩
  cases ht
  intro w m hfetch _ htarget
  cases hfetch
  cases htarget

theorem program_order_freeProgram :
    processor.Visits InOrder (.start freeProgram) [(), ()] ∧
      processor.Meets (fun t _ => ReadsOld t) (.start freeProgram) [(), ()] :=
  program_order rfl freeProgram_meets

/-- An instruction keeps the load that is pending. -/
theorem Did.pending (h : Did i m x) : x.machine.registers.loadReg = m.registers.loadReg ∧
    x.machine.registers.loadValue = m.registers.loadValue := by
  cases h with
  | write | setHiLo | branch => exact ⟨rfl, rfl⟩
  | load v hm => exact ⟨congrArg Registers.loadReg hm.registers,
      congrArg Registers.loadValue hm.registers⟩
  | store hm => exact ⟨congrArg Registers.loadReg hm, congrArg Registers.loadValue hm⟩

/-- The load is carried out behind the write of another instruction, which is lost. -/
theorem write_lost (hfetch : t.machine.fetch = .ok (w, m)) (hexecute : execute (decode w) m = .ok x)
    (hload : (decode w).isLoad = false) (hpending : t.machine.registers.loadReg ≠ 0)
    (ht : (decode w).target = some t.machine.registers.loadReg)
    (hvalue : x.value (decode w) t.machine.registers.loadReg ≠ t.machine.registers.loadValue)
    (h : t.step = some t') : ¬ InOrder t' := by
  obtain ⟨w', m', x', hfetch', hexecute', rfl⟩ := step_eq_some.mp h
  rw [hfetch] at hfetch'
  cases hfetch'
  rw [hexecute] at hexecute'
  cases hexecute'
  have hregs : m.registers = t.machine.registers := (Machine.readMem_alike hfetch).registers
  have hdid := execute_ends (decode w) m
  rw [hexecute] at hdid
  obtain ⟨hreg, hval⟩ := hdid.pending
  rw [← hregs] at hpending ht hvalue
  have hcarried : x.commit.registers.gpr m.registers.loadReg = m.registers.loadValue := by
    change x.machine.registers.carriedOut _ = _
    rw [Registers.carriedOut, hreg, hval, Function.update_of_ne hpending, Function.update_self]
  have hlast : inOrder t.order (decode w) x m.registers.loadReg =
      x.value (decode w) m.registers.loadReg := by
    rw [inOrder, ht]
    simp only [Function.update_of_ne hpending, Function.update_self]
  intro horder
  have hsettled := horder.settled m.registers.loadReg (by simp [hload])
  exact hvalue (hlast.symm.trans (hsettled.symm.trans hcarried))

/-- Register 1 is loaded from address 16, and the next instruction adds registers 2 and 3 into
it. -/
def slotProgram : Machine :=
  .start [0x8c010010, 0x00430821, 0, 0, 9] fun r => if r = 2 then 2 else if r = 3 then 3 else 0

theorem slotProgram_run : ∃ t, processor.run (.start slotProgram) [(), (), ()] = some t ∧
    t.loading = none ∧ t.machine.registers.gpr 1 = 9 ∧ t.order 1 = 5 :=
  ⟨_, rfl, rfl, rfl, rfl⟩

/-- Register 1 does not keep the sum. -/
theorem slotProgram_not_inOrder :
    ¬ processor.Visits InOrder (.start slotProgram) [(), (), ()] := by
  obtain ⟨t, hrun, hnone, hgpr, horder⟩ := slotProgram_run
  intro hvisits
  have hsettled := (hvisits.last hrun).settled 1 (by simp [hnone])
  rw [hgpr, horder] at hsettled
  exact absurd hsettled (by decide)

end Coursework.Nachos.Mipssim
