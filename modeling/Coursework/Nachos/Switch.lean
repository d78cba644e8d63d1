import Coursework.Lib.I386
import Mathlib.Data.Set.Basic
import Mathlib.Logic.Relation

/-!
# `SWITCH` on the 80386

The routine saves the registers of the old thread in its thread object, loads those of the new one
and returns on the new stack. `StackAllocate` prepares a thread object and a stack as if the thread
had called `SWITCH` at the start of `ThreadRoot`.
-/
namespace Coursework.Nachos.Switch
open I386 (Word Reg State Operand Insn run call)

/-! ### The thread object -/

/-- A register that is saved; `none` is the program counter. -/
abbrev Slot := Option Reg

/-- The constants `_ESP` to `_PC`. -/
def offset : Slot → Word
  | some .esp => 0
  | some .eax => 4
  | some .ebx => 8
  | some .ecx => 12
  | some .edx => 16
  | some .ebp => 20
  | some .esi => 24
  | some .edi => 28
  | none => 32

/-! ### The routines -/

def save (eaxSave : Word) : List Insn := [
  .movl (.reg .eax) (.var eaxSave),
  .movl (.mem 4 .esp) (.reg .eax),
  .movl (.reg .ebx) (.mem (offset (some .ebx)) .eax),
  .movl (.reg .ecx) (.mem (offset (some .ecx)) .eax),
  .movl (.reg .edx) (.mem (offset (some .edx)) .eax),
  .movl (.reg .esi) (.mem (offset (some .esi)) .eax),
  .movl (.reg .edi) (.mem (offset (some .edi)) .eax),
  .movl (.reg .ebp) (.mem (offset (some .ebp)) .eax),
  .movl (.reg .esp) (.mem (offset (some .esp)) .eax),
  .movl (.var eaxSave) (.reg .ebx),
  .movl (.reg .ebx) (.mem (offset (some .eax)) .eax),
  .movl (.mem 0 .esp) (.reg .ebx),
  .movl (.reg .ebx) (.mem (offset none) .eax)]

def restore (eaxSave : Word) : List Insn := [
  .movl (.mem 8 .esp) (.reg .eax),
  .movl (.mem (offset (some .eax)) .eax) (.reg .ebx),
  .movl (.reg .ebx) (.var eaxSave),
  .movl (.mem (offset (some .ebx)) .eax) (.reg .ebx),
  .movl (.mem (offset (some .ecx)) .eax) (.reg .ecx),
  .movl (.mem (offset (some .edx)) .eax) (.reg .edx),
  .movl (.mem (offset (some .esi)) .eax) (.reg .esi),
  .movl (.mem (offset (some .edi)) .eax) (.reg .edi),
  .movl (.mem (offset (some .ebp)) .eax) (.reg .ebp),
  .movl (.mem (offset (some .esp)) .eax) (.reg .esp),
  .movl (.mem (offset none) .eax) (.reg .eax),
  .movl (.reg .eax) (.mem 4 .esp),
  .movl (.var eaxSave) (.reg .eax),
  .ret]

def SWITCH (eaxSave : Word) : List Insn := save eaxSave ++ restore eaxSave

/-- `ThreadRoot` before its first call. -/
def threadRoot : List Insn := [.pushl .ebp, .movl (.reg .esp) (.reg .ebp), .pushl .edx]

/-- In words. -/
def stackSize : ℕ := 4 * 1024

def stackFencepost : Word := 0xdeadbeef

/-- The procedures whose addresses are stored. -/
structure Procedures where
  threadRoot : Word
  interruptEnable : Word
  threadFinish : Word

/-- `StackAllocate` for the thread object at `thread`, with the new stack at `stack`. -/
def stackAllocate (p : Procedures) (thread stack func arg : Word) (s : State) : State :=
  let stackTop := stack + 4 * (.ofNat 32 stackSize - 4)
  let stackTop := stackTop - 4
  let s := s.store stackTop p.threadRoot
  let s := s.store (thread + offset (some .esp)) stackTop
  let s := s.store stack stackFencepost
  let s := s.store (thread + offset none) p.threadRoot
  let s := s.store (thread + offset (some .ecx)) p.interruptEnable
  let s := s.store (thread + offset (some .esi)) func
  let s := s.store (thread + offset (some .edx)) arg
  s.store (thread + offset (some .edi)) p.threadFinish

/-! ### What the routines do -/

variable {s : State} {thread thread' eaxSave : Word}

/-- The registers of the caller and its return address, in the thread object. -/
def context (s : State) : Slot → Word
  | some r => s.reg r
  | none => s.mem (s.reg .esp)

theorem offset_injective : Function.Injective offset := by
  intro i j h
  cases i with
  | none => cases j with
    | none => rfl
    | some r => cases r <;> exact absurd h (by decide)
  | some r => cases j with
    | none => cases r <;> exact absurd h (by decide)
    | some r' => cases r <;> cases r' <;> first | rfl | exact absurd h (by decide)

/-- The memory after the stores to the thread object, from the first one to the last one. -/
def saved (s : State) (thread eaxSave : Word) : Word → Word :=
  [some .ebx, some .ecx, some .edx, some .esi, some .edi, some .ebp, some .esp, some .eax,
    none].foldl (fun mem i => Function.update mem (thread + offset i) (context s i))
    (Function.update s.mem eaxSave (s.reg .eax))

theorem save_run (hthread : s.mem (s.reg .esp + 4#32) = thread)
    (hsave : ∀ i, eaxSave ≠ thread + offset i) (hstack : ∀ i, s.reg .esp ≠ thread + offset i)
    (hesp : s.reg .esp ≠ eaxSave) (hfirst : s.reg .esp + 4#32 ≠ eaxSave) :
    run s (save eaxSave) =
      { reg := Function.update (Function.update s.reg .eax thread) .ebx (s.mem (s.reg .esp))
        eip := s.eip
        mem := saved s thread eaxSave } := by
  simp [save, saved, context, I386.exec, Operand.read, Operand.write, hthread, hsave, hstack, hesp,
    hfirst]
  simp [State.store, State.setReg]

/-- The stack pointer is set before the return address is fetched with it. -/
theorem restore_run (hthread : s.mem (s.reg .esp + 8#32) = thread)
    (hsave : ∀ i, thread + offset i ≠ eaxSave) {esp : Word}
    (hesp : s.mem (thread + offset (some .esp)) = esp) (hreturn : esp ≠ eaxSave)
    (hfirst : esp + 4#32 ≠ eaxSave) :
    run s (restore eaxSave) =
      { reg := fun r => if r = .esp then esp + 4 else s.mem (thread + offset (some r))
        eip := s.mem esp
        mem := Function.update (Function.update s.mem eaxSave (s.mem (thread + offset (some .eax))))
          (esp + 4) (s.mem (thread + offset none)) } := by
  have hne : esp ≠ esp + 4#32 := by
    intro h
    have hzero : (4#32 : Word) = 0 := BitVec.add_right_eq_self.mp h.symm
    exact absurd hzero (by decide)
  simp [restore, I386.exec, Operand.read, Operand.write, hthread, hsave, hesp, hreturn, hne,
    hfirst.symm]
  funext r
  cases r <;> simp

theorem saved_object (i : Slot) : saved s thread eaxSave (thread + offset i) = context s i := by
  have hinj : ∀ i j, thread + offset i = thread + offset j ↔ i = j := fun i j =>
    (BitVec.add_right_inj thread).trans offset_injective.eq_iff
  simp only [saved, List.foldl_cons, List.foldl_nil, Function.update_apply, hinj]
  cases i with
  | none => rfl
  | some r => cases r <;> rfl

theorem saved_elsewhere {a : Word} (ha : a ≠ eaxSave) (hobject : ∀ i, a ≠ thread + offset i) :
    saved s thread eaxSave a = s.mem a := by
  simp [saved, ha, hobject]

/-! ### Threads -/

/-- Thread objects and stacks are apart from each other and from the variable of `SWITCH`. -/
structure Layout (T : Type*) where
  thread : T → Word
  stack : T → Set Word
  eaxSave : Word
  procedures : Procedures
  objects {t t' : T} (ht : t ≠ t') (i j : Slot) : thread t + offset i ≠ thread t' + offset j
  object_stack (t t' : T) (i : Slot) : thread t + offset i ∉ stack t'
  stack_stack {t t' : T} (ht : t ≠ t') {a : Word} (ha : a ∈ stack t) : a ∉ stack t'
  save_object (t : T) (i : Slot) : thread t + offset i ≠ eaxSave
  save_stack (t : T) : eaxSave ∉ stack t

/-- `suspended` records for each thread that is not running the state to which `SWITCH` is to
return in it. -/
structure System (T : Type*) where
  cpu : State
  current : T
  suspended : T → Option State

/-- The state behind a call. -/
def returned (s : State) : State :=
  { s.setReg .esp (s.reg .esp + 4) with eip := s.mem (s.reg .esp) }

variable {T : Type*} (L : Layout T)

/-- The thread starts in `ThreadRoot` with the values that `StackAllocate` has stored. -/
def forked (t : T) (stack func arg : Word) (s : State) : State :=
  let s := stackAllocate L.procedures (L.thread t) stack func arg s
  { s with
    reg := fun r =>
      if r = .esp then stack + 4 * (.ofNat 32 stackSize - 4)
      else s.mem (L.thread t + offset (some r))
    eip := L.procedures.threadRoot }

/-- The thread object and the stack of a thread to which `SWITCH` can return. -/
structure Parked (mem : Word → Word) (t : T) (ctx : State) : Prop where
  reg {r : Reg} (hr : r ≠ .esp) : mem (L.thread t + offset (some r)) = ctx.reg r
  esp : mem (L.thread t + offset (some .esp)) = ctx.reg .esp - 4
  pc : mem (L.thread t + offset none) = ctx.eip
  top : ctx.reg .esp - 4 ∈ L.stack t
  first : ctx.reg .esp ∈ L.stack t
  address : ctx.mem (ctx.reg .esp - 4) = ctx.eip
  stack {a : Word} (ha : a ∈ L.stack t) : mem a = ctx.mem a

/-- The thread goes on in the state of the record, but for the word of its stack in which the first
argument of `SWITCH` was. -/
structure Resumed (t : T) (ctx cpu : State) : Prop where
  reg : cpu.reg = ctx.reg
  eip : cpu.eip = ctx.eip
  stack {a : Word} (ha : a ∈ L.stack t) (hfirst : a ≠ ctx.reg .esp) : cpu.mem a = ctx.mem a

variable {L} {sys sys' : System T} {t : T} {ctx : State} {mem mem' : Word → Word}

theorem Parked.of_memory (h : Parked L mem t ctx)
    (hobject : ∀ i, mem' (L.thread t + offset i) = mem (L.thread t + offset i))
    (hstack : ∀ a ∈ L.stack t, mem' a = mem a) : Parked L mem' t ctx where
  reg hr := (hobject _).trans (h.reg hr)
  esp := (hobject _).trans h.esp
  pc := (hobject _).trans h.pc
  top := h.top
  first := h.first
  address := h.address
  stack ha := (hstack _ ha).trans (h.stack ha)

theorem Layout.stack_object (L : Layout T) {t' : T} {a : Word} (ha : a ∈ L.stack t') (t : T)
    (i : Slot) : a ≠ L.thread t + offset i :=
  fun h => L.object_stack t t' i (h ▸ ha)

theorem Layout.stack_save (L : Layout T) {a : Word} (ha : a ∈ L.stack t) : a ≠ L.eaxSave :=
  fun h => L.save_stack t (h ▸ ha)

/-- `SWITCH` from one thread to another one. -/
theorem switch_run {old new : T} {s : State} (hne : old ≠ new) (hnew : Parked L s.mem new ctx)
    (hesp : s.reg .esp ∈ L.stack old) (hfirst : s.reg .esp + 4 ∈ L.stack old)
    (hsecond : s.reg .esp + 8 ∈ L.stack old) (ht1 : s.mem (s.reg .esp + 4) = L.thread old)
    (ht2 : s.mem (s.reg .esp + 8) = L.thread new) :
    run s (SWITCH L.eaxSave) =
      { reg := ctx.reg
        eip := ctx.eip
        mem := Function.update
          (Function.update (saved s (L.thread old) L.eaxSave) L.eaxSave (ctx.reg .eax))
          (ctx.reg .esp) ctx.eip } := by
  have hsaved : ∀ {t a}, a ∈ L.stack t → saved s (L.thread old) L.eaxSave a = s.mem a :=
    fun ha => saved_elsewhere (L.stack_save ha) (L.stack_object ha old)
  have hobject : ∀ i, saved s (L.thread old) L.eaxSave (L.thread new + offset i) =
      s.mem (L.thread new + offset i) := fun i =>
    saved_elsewhere (L.save_object new i) fun j => L.objects hne.symm i j
  have hslot : ctx.reg .esp - 4 + 4 = ctx.reg .esp := BitVec.sub_add_cancel _ _
  have htop : s.mem (ctx.reg .esp - 4) = ctx.eip := (hnew.stack hnew.top).trans hnew.address
  rw [SWITCH, I386.run_append, save_run ht1 (fun i => (L.save_object old i).symm)
    (L.stack_object hesp old) (L.stack_save hesp) (L.stack_save hfirst)]
  refine (@restore_run _ (L.thread new) L.eaxSave ?_ (L.save_object new) (ctx.reg .esp - 4) ?_
    (L.stack_save hnew.top) (hslot.symm ▸ L.stack_save hnew.first)).trans ?_
  · exact (hsaved hsecond).trans ht2
  · exact (hobject _).trans hnew.esp
  · simp only [hobject, hsaved hnew.top, htop, hslot, hnew.pc]
    rw [hnew.reg (by decide)]
    congr 1
    funext r
    by_cases hr : r = .esp
    · rw [if_pos hr, hr]
    · rw [if_neg hr, hnew.reg hr]

/-- The stores of `SWITCH` to the thread objects and to the stacks. -/
theorem switched_mem {old new : T} {s : State} (hnew : ctx.reg .esp ∈ L.stack new) {a v w : Word}
    (ha : a ≠ L.eaxSave) (hold : a ∉ L.stack new) :
    Function.update (Function.update (saved s (L.thread old) L.eaxSave) L.eaxSave v)
      (ctx.reg .esp) w a = saved s (L.thread old) L.eaxSave a := by
  rw [Function.update_of_ne, Function.update_of_ne ha]
  rintro rfl
  exact hold hnew

/-- The memory that `SWITCH` leaves behind, for a thread that is not switched to. -/
theorem switch_elsewhere {new : T} (s : State) (old : T) (v w : Word) (ht : t ≠ new)
    (hnew : ctx.reg .esp ∈ L.stack new) :
    let mem := Function.update (Function.update (saved s (L.thread old) L.eaxSave) L.eaxSave v)
      (ctx.reg .esp) w
    (∀ i, mem (L.thread t + offset i) = saved s (L.thread old) L.eaxSave (L.thread t + offset i)) ∧
      ∀ a ∈ L.stack t, mem a = s.mem a := by
  refine ⟨fun i => switched_mem hnew (L.save_object t i) (L.object_stack t new i), fun a ha => ?_⟩
  have hsave : a ≠ L.eaxSave := L.stack_save ha
  rw [switched_mem hnew hsave (L.stack_stack ht ha), saved_elsewhere hsave (L.stack_object ha old)]

/-- What `SWITCH` saves is enough to return to its caller. -/
theorem Parked.saved {s : State} (hobject : ∀ i, mem (L.thread t + offset i) = context s i)
    (hstack : ∀ a ∈ L.stack t, mem a = s.mem a) (hesp : s.reg .esp ∈ L.stack t)
    (hfirst : s.reg .esp + 4 ∈ L.stack t) : Parked L mem t (returned s) := by
  have hslot : s.reg .esp + 4 - 4 = s.reg .esp := BitVec.add_sub_cancel _ _
  have htop : (returned s).reg .esp - 4 = s.reg .esp := hslot
  refine ⟨fun {r} hr => ?_, ?_, hobject none, ?_, hfirst, ?_, fun {a} ha => hstack a ha⟩
  · exact (hobject _).trans (Function.update_of_ne hr _ _).symm
  · exact (hobject _).trans htop.symm
  · exact htop.symm ▸ hesp
  · rw [htop]
    rfl

theorem stackTop_mem {stack : Word}
    (hstack : ∀ i < stackSize, stack + 4 * .ofNat 32 i ∈ L.stack t) :
    stack + 4 * (.ofNat 32 stackSize - 4) - 4 ∈ L.stack t := by
  have htop : stack + 4 * (.ofNat 32 stackSize - 4) - 4 = stack + 4 * .ofNat 32 4091 := by
    rw [BitVec.sub_eq_add_neg, BitVec.add_assoc]
    rfl
  rw [htop]
  exact hstack 4091 (by simp [stackSize])

theorem stack_mem {stack : Word} (hstack : ∀ i < stackSize, stack + 4 * .ofNat 32 i ∈ L.stack t) :
    stack ∈ L.stack t := by
  simpa using hstack 0 (by simp [stackSize])

/-- The memory that `StackAllocate` leaves behind, for another thread. -/
theorem stackAllocate_elsewhere {s : State} {new : T} {stack func arg : Word} (ht : t ≠ new)
    (hstack : ∀ i < stackSize, stack + 4 * .ofNat 32 i ∈ L.stack new) :
    (∀ i, (stackAllocate L.procedures (L.thread new) stack func arg s).mem (L.thread t + offset i) =
      s.mem (L.thread t + offset i)) ∧
      ∀ a ∈ L.stack t,
        (stackAllocate L.procedures (L.thread new) stack func arg s).mem a = s.mem a := by
  have hbottom := stack_mem hstack
  have htop := stackTop_mem hstack
  refine ⟨fun i => ?_, fun a ha => ?_⟩
  · have hobject : ∀ j, L.thread t + offset i ≠ L.thread new + offset j := L.objects ht i
    simp only [stackAllocate, I386.State.store_mem, Function.update_apply, hobject, if_false,
      (L.stack_object hbottom t i).symm, (L.stack_object htop t i).symm]
  · have hobject : ∀ j, a ≠ L.thread new + offset j := L.stack_object ha new
    have hne : ∀ {a'}, a' ∈ L.stack new → a ≠ a' := fun ha' h => L.stack_stack ht ha (h ▸ ha')
    simp only [stackAllocate, I386.State.store_mem, Function.update_apply, hobject, if_false,
      hne hbottom, hne htop]

/-- The registers that `StackAllocate` sets; `ThreadRoot` uses no other one. -/
def prepared (p : Procedures) (stackTop func arg : Word) (mem : Slot → Word) : Slot → Word
  | none => p.threadRoot
  | some .esp => stackTop
  | some .ecx => p.interruptEnable
  | some .esi => func
  | some .edx => arg
  | some .edi => p.threadFinish
  | some r => mem (some r)

theorem stackAllocate_object {s : State} {stack func arg : Word}
    (hstack : ∀ i < stackSize, stack + 4 * .ofNat 32 i ∈ L.stack t) (i : Slot) :
    (stackAllocate L.procedures (L.thread t) stack func arg s).mem (L.thread t + offset i) =
      prepared L.procedures (stack + 4 * (.ofNat 32 stackSize - 4) - 4) func arg
        (fun i => s.mem (L.thread t + offset i)) i := by
  have hinj : ∀ i j, L.thread t + offset i = L.thread t + offset j ↔ i = j := fun i j =>
    (BitVec.add_right_inj _).trans offset_injective.eq_iff
  simp only [stackAllocate, I386.State.store_mem, Function.update_apply, hinj,
    (L.stack_object (stack_mem hstack) t i).symm, (L.stack_object (stackTop_mem hstack) t i).symm]
  cases i with
  | none => rfl
  | some r => cases r <;> rfl

/-- The return address is in the word below the top of the new stack. -/
theorem stackAllocate_top {s : State} {stack func arg : Word}
    (hstack : ∀ i < stackSize, stack + 4 * .ofNat 32 i ∈ L.stack t) :
    (stackAllocate L.procedures (L.thread t) stack func arg s).mem
      (stack + 4 * (.ofNat 32 stackSize - 4) - 4) = L.procedures.threadRoot := by
  have hne : stack + 4 * (.ofNat 32 stackSize - 4) - 4 ≠ stack := by
    intro h
    rw [BitVec.sub_eq_add_neg, BitVec.add_assoc] at h
    exact absurd (BitVec.add_right_eq_self.mp h) (by decide)
  simp only [stackAllocate, I386.State.store_mem, Function.update_apply, hne,
    L.stack_object (stackTop_mem hstack) t, if_true, if_false]

theorem forked_esp {s : State} {stack func arg : Word} :
    (forked L t stack func arg s).reg .esp = stack + 4 * (.ofNat 32 stackSize - 4) := by
  simp only [forked, if_true]

theorem forked_mem {s : State} {stack func arg : Word} :
    (forked L t stack func arg s).mem =
      (stackAllocate L.procedures (L.thread t) stack func arg s).mem := rfl

theorem forked_eip {s : State} {stack func arg : Word} :
    (forked L t stack func arg s).eip = L.procedures.threadRoot := rfl

theorem Parked.forked {s : State} {stack func arg : Word}
    (hstack : ∀ i < stackSize, stack + 4 * .ofNat 32 i ∈ L.stack t) :
    Parked L (stackAllocate L.procedures (L.thread t) stack func arg s).mem t
      (forked L t stack func arg s) := by
  have hslot : (.ofNat 32 stackSize - 4 : Word) = .ofNat 32 4092 := rfl
  refine ⟨fun {r} hr => (if_neg hr).symm, ?_, stackAllocate_object hstack none, ?_, ?_, ?_,
    fun {a} _ => rfl⟩
  · rw [forked_esp]
    exact stackAllocate_object hstack (some .esp)
  · rw [forked_esp]
    exact stackTop_mem hstack
  · rw [forked_esp, hslot]
    exact hstack 4092 (by simp [stackSize])
  · rw [forked_esp, forked_mem, forked_eip]
    exact stackAllocate_top hstack

/-! ### Runs -/

variable (L) in
/-- The invariant of the thread system. -/
structure Inv (s : System T) : Prop where
  running : s.suspended s.current = none
  parked {t : T} {ctx : State} (h : s.suspended t = some ctx) : Parked L s.cpu.mem t ctx

theorem Inv.ne (h : Inv L sys) (ht : sys.suspended t ≠ none) : t ≠ sys.current := by
  rintro rfl
  exact ht h.running

theorem Inv.compute {cpu : State} (hi : Inv L sys)
    (h : ∀ t ctx, sys.suspended t = some ctx →
      (∀ i, cpu.mem (L.thread t + offset i) = sys.cpu.mem (L.thread t + offset i)) ∧
        ∀ a ∈ L.stack t, cpu.mem a = sys.cpu.mem a) : Inv L { sys with cpu := cpu } where
  running := hi.running
  parked {t ctx} hctx := (hi.parked hctx).of_memory (h t ctx hctx).1 (h t ctx hctx).2

theorem Inv.alone (h : ∀ t, sys.suspended t = none) : Inv L sys :=
  ⟨h _, fun hctx => absurd hctx (by simp [h])⟩

variable (L) in
/-- The running thread calls `SWITCH` with itself and with `new`. -/
structure Calls (s : System T) (new : T) : Prop where
  suspended : s.suspended new ≠ none
  top : s.cpu.reg .esp ∈ L.stack s.current
  first : s.cpu.reg .esp + 4 ∈ L.stack s.current
  second : s.cpu.reg .esp + 8 ∈ L.stack s.current
  old : s.cpu.mem (s.cpu.reg .esp + 4) = L.thread s.current
  new : s.cpu.mem (s.cpu.reg .esp + 8) = L.thread new

variable [DecidableEq T]

variable (L) in
def switched (s : System T) (new : T) : System T where
  cpu := run s.cpu (SWITCH L.eaxSave)
  current := new
  suspended := Function.update (Function.update s.suspended new none) s.current
    (some (returned s.cpu))

variable (L) in
def withThread (s : System T) (t : T) (stack func arg : Word) : System T :=
  { s with
    cpu := stackAllocate L.procedures (L.thread t) stack func arg s.cpu
    suspended := Function.update s.suspended t (some (forked L t stack func arg s.cpu)) }

variable (L) in
inductive Step : System T → System T → Prop where
  /-- The running thread leaves the objects and the stacks of the others alone. -/
  | compute {s : System T} {cpu : State}
      (h : ∀ t ctx, s.suspended t = some ctx →
        (∀ i, cpu.mem (L.thread t + offset i) = s.cpu.mem (L.thread t + offset i)) ∧
          ∀ a ∈ L.stack t, cpu.mem a = s.cpu.mem a) :
      Step s { s with cpu := cpu }
  | switch {s : System T} {new : T} (h : Calls L s new) : Step s (switched L s new)
  | fork {s : System T} {t : T} {stack func arg : Word} (hfresh : s.suspended t = none)
      (hother : t ≠ s.current) (hstack : ∀ i < stackSize, stack + 4 * .ofNat 32 i ∈ L.stack t) :
      Step s (withThread L s t stack func arg)
  | delete {s : System T} {t : T} (hother : t ≠ s.current) :
      Step s { s with suspended := Function.update s.suspended t none }

variable (L) in
/-- A step after which `t` still waits. -/
def Away (t : T) (s s' : System T) : Prop := Step L s s' ∧ s'.suspended t ≠ none

theorem Inv.switch {new : T} (hi : Inv L sys) (h : Calls L sys new) :
    Inv L (switched L sys new) := by
  obtain ⟨ctx, hctx⟩ := Option.ne_none_iff_exists'.mp h.suspended
  have hne : new ≠ sys.current := hi.ne h.suspended
  have hnew := hi.parked hctx
  rw [switched, switch_run hne.symm hnew h.top h.first h.second h.old h.new]
  refine ⟨by simp [Function.update_of_ne hne],
    fun {t ctx'} (ht : Function.update _ _ _ t = _) => ?_⟩
  by_cases hold : t = sys.current
  · subst hold
    obtain ⟨hobject, hstack⟩ := switch_elsewhere sys.cpu sys.current (ctx.reg .eax) ctx.eip
      hne.symm hnew.first
    rw [Function.update_self] at ht
    obtain rfl := Option.some.inj ht
    exact .saved (fun i => (hobject i).trans (saved_object i)) hstack h.top h.first
  · rw [Function.update_of_ne hold] at ht
    by_cases htnew : t = new
    · subst htnew
      simp at ht
    · rw [Function.update_of_ne htnew] at ht
      obtain ⟨hobject, hstack⟩ := switch_elsewhere sys.cpu sys.current (ctx.reg .eax) ctx.eip
        htnew hnew.first
      refine (hi.parked ht).of_memory (fun i => (hobject i).trans ?_) hstack
      exact saved_elsewhere (L.save_object t i) fun j => L.objects hold i j

theorem Inv.fork {new : T} {stack func arg : Word} (hi : Inv L sys) (hother : new ≠ sys.current)
    (hstack : ∀ i < stackSize, stack + 4 * .ofNat 32 i ∈ L.stack new) :
    Inv L (withThread L sys new stack func arg) := by
  have hrunning : Function.update sys.suspended new
      (some (Switch.forked L new stack func arg sys.cpu)) sys.current = none := by
    rw [Function.update_of_ne hother.symm, hi.running]
  rw [withThread]
  refine ⟨hrunning, fun {t ctx} (ht : Function.update _ _ _ t = _) => ?_⟩
  by_cases hnew : t = new
  · subst hnew
    rw [Function.update_self] at ht
    obtain rfl := Option.some.inj ht
    exact .forked hstack
  · rw [Function.update_of_ne hnew] at ht
    obtain ⟨hobject, hstacks⟩ := stackAllocate_elsewhere hnew hstack
    exact (hi.parked ht).of_memory hobject hstacks

theorem Step.inv (h : Step L sys sys') (hi : Inv L sys) : Inv L sys' := by
  cases h with
  | compute h => exact hi.compute h
  | switch h => exact hi.switch h
  | fork _ hother hstack => exact hi.fork hother hstack
  | @delete old hother =>
    refine ⟨(Function.update_of_ne hother.symm _ _).trans hi.running,
      fun {t ctx} (ht : Function.update _ _ _ t = _) => hi.parked ?_⟩
    by_cases hold : t = old
    · subst hold
      simp at ht
    · rwa [Function.update_of_ne hold] at ht

theorem inv_of_run {sys₀ : System T} (hi : Inv L sys₀)
    (h : Relation.ReflTransGen (Step L) sys₀ sys) : Inv L sys := by
  induction h with
  | refl => exact hi
  | tail _ hstep ih => exact hstep.inv ih

/-- The state to which `SWITCH` is to return is settled when the thread stops running. -/
theorem Away.suspended (h : Away L t sys sys') (hi : Inv L sys)
    (hctx : sys.suspended t = some ctx) : sys'.suspended t = some ctx := by
  obtain ⟨hstep, hwaits⟩ := h
  have hne : t ≠ sys.current := hi.ne (by simp [hctx])
  cases hstep with
  | compute => exact hctx
  | @switch new h =>
    have hnew : t ≠ new := by
      rintro rfl
      exact hwaits (by simp [switched, Function.update_of_ne hne])
    exact (Function.update_of_ne hne _ _).trans ((Function.update_of_ne hnew _ _).trans hctx)
  | @fork new _ _ _ hfresh =>
    refine (Function.update_of_ne ?_ _ _).trans hctx
    rintro rfl
    exact absurd (hfresh.symm.trans hctx) (by simp)
  | @delete old =>
    refine (Function.update_of_ne ?_ _ _).trans hctx
    rintro rfl
    exact hwaits (Function.update_self ..)

theorem away_run (hi : Inv L sys) (h : Relation.ReflTransGen (Away L t) sys sys')
    (hctx : sys.suspended t = some ctx) : Inv L sys' ∧ sys'.suspended t = some ctx := by
  induction h with
  | refl => exact ⟨hi, hctx⟩
  | tail _ hstep ih => exact ⟨hstep.1.inv ih.1, hstep.suspended ih.1 ih.2⟩

theorem Inv.resumed (hi : Inv L sys) (h : Calls L sys t) (hctx : sys.suspended t = some ctx) :
    Resumed L t ctx (switched L sys t).cpu := by
  have hne : t ≠ sys.current := hi.ne h.suspended
  have ht := hi.parked hctx
  rw [switched, switch_run hne.symm ht h.top h.first h.second h.old h.new]
  refine ⟨rfl, rfl, fun {a} ha hfirst => ?_⟩
  have hsave : a ≠ L.eaxSave := L.stack_save ha
  refine (Function.update_of_ne hfirst _ _).trans ((Function.update_of_ne hsave _ _).trans ?_)
  exact (saved_elsewhere hsave (L.stack_object ha _)).trans (ht.stack ha)

/-- A thread that calls `SWITCH` comes out of it behind its call with the registers and the stack
that it had, whatever the other threads do in the meantime. -/
theorem switch_returns {sys₀ : System T} {new : T} (h0 : ∀ t, sys₀.suspended t = none)
    (hrun : Relation.ReflTransGen (Step L) sys₀ sys) (hcall : Calls L sys new)
    (haway : Relation.ReflTransGen (Away L sys.current) (switched L sys new) sys')
    (hback : Calls L sys' sys.current) :
    Resumed L sys.current (returned sys.cpu) (switched L sys' sys.current).cpu := by
  have hi : Inv L sys := inv_of_run (.alone h0) hrun
  obtain ⟨hi', hctx⟩ := away_run (hi.switch hcall) haway (Function.update_self ..)
  exact hi'.resumed hback hctx

/-! ### Two threads -/

theorem offset_le (i : Slot) : offset i ≤ 32 := by
  cases i with
  | none => decide
  | some r => cases r <;> decide

/-- The main thread and another one. -/
def twoThreads : Layout Bool where
  thread t := if t then 0x2000 else 0x1000
  stack t := if t then {a | 0x200000 ≤ a} else {a | 0x100000 ≤ a ∧ a < 0x200000}
  eaxSave := 0x3000
  procedures := ⟨0x4000, 0x5000, 0x6000⟩
  objects {t t'} ht i j := by
    have hi := offset_le i
    have hj := offset_le j
    cases t <;> cases t' <;> simp at ht ⊢ <;> bv_omega
  object_stack t t' i := by
    have hi := offset_le i
    cases t <;> cases t' <;> simp <;> bv_omega
  stack_stack {t t'} ht a ha := by
    cases t <;> cases t' <;> simp at ht ha ⊢ <;> bv_omega
  save_object t i := by
    have hi := offset_le i
    cases t <;> simp <;> bv_omega
  save_stack t := by cases t <;> simp

/-- The main thread is about to switch to the other one. -/
def mainThread : System Bool where
  cpu := {
    reg := fun _ => 0x180000
    eip := 0
    mem := fun a => if a = 0x180004 then 0x1000 else if a = 0x180008 then 0x2000 else 0 }
  current := false
  suspended _ := none

/-- The main thread has forked the other one, with its stack at the start of the area for it. -/
def bothThreads : System Bool := withThread twoThreads mainThread true 0x200000 0x7000 0x2a

/-- The other thread is about to switch back. -/
def otherThread : System Bool :=
  let s := switched twoThreads bothThreads true
  { s with
    cpu := { (s.cpu.store 0x280004 0x2000).store 0x280008 0x1000 with reg := fun _ => 0x280000 } }

theorem twoThreads_stack (i : ℕ) (hi : i < stackSize) :
    0x200000 + 4 * .ofNat 32 i ∈ twoThreads.stack true := by
  have hsmall : i < 4096 := hi
  simp [twoThreads]
  bv_omega

theorem bothThreads_mem {a : Word} (ha : a ∈ twoThreads.stack false) :
    bothThreads.cpu.mem a = mainThread.cpu.mem a :=
  (stackAllocate_elsewhere (by decide) twoThreads_stack).2 a ha

theorem bothThreads_run : Relation.ReflTransGen (Step twoThreads) mainThread bothThreads :=
  .single (.fork rfl (by decide) twoThreads_stack)

theorem bothThreads_current : bothThreads.current = false := rfl

theorem bothThreads_esp : bothThreads.cpu.reg .esp = 0x180000 := rfl

theorem bothThreads_calls : Calls twoThreads bothThreads true where
  suspended := by simp [bothThreads, withThread]
  top := by
    rw [bothThreads_esp]
    exact ⟨by decide, by decide⟩
  first := by
    rw [bothThreads_esp]
    exact ⟨by decide, by decide⟩
  second := by
    rw [bothThreads_esp]
    exact ⟨by decide, by decide⟩
  old := by
    rw [bothThreads_esp, bothThreads_mem ⟨by decide, by decide⟩]
    rfl
  new := by
    rw [bothThreads_esp, bothThreads_mem ⟨by decide, by decide⟩]
    rfl

theorem stack_true {a : Word} (ha : 0x200000 ≤ a) : a ∈ twoThreads.stack true := ha

theorem otherThread_away :
    Away twoThreads false (switched twoThreads bothThreads true) otherThread := by
  have h4 : (0x280004 : Word) ∈ twoThreads.stack true := stack_true (by decide)
  have h8 : (0x280008 : Word) ∈ twoThreads.stack true := stack_true (by decide)
  refine ⟨.compute fun t ctx hctx => ?_, by simp [otherThread, switched, bothThreads_current]⟩
  obtain rfl : t = false := by
    cases t with
    | false => rfl
    | true => simp [switched, bothThreads_current] at hctx
  have hkept : ∀ {a}, a ≠ 0x280004 → a ≠ 0x280008 →
      otherThread.cpu.mem a = (switched twoThreads bothThreads true).cpu.mem a := fun h4 h8 =>
    (Function.update_of_ne h8 _ _).trans (Function.update_of_ne h4 _ _)
  refine ⟨fun i => hkept ?_ ?_, fun a ha => hkept ?_ ?_⟩
  · exact (twoThreads.stack_object h4 false i).symm
  · exact (twoThreads.stack_object h8 false i).symm
  · rintro rfl
    exact twoThreads.stack_stack (by decide) ha h4
  · rintro rfl
    exact twoThreads.stack_stack (by decide) ha h8

theorem otherThread_calls : Calls twoThreads otherThread false where
  suspended := by simp [otherThread, switched, bothThreads_current]
  top := stack_true (by decide)
  first := stack_true (by decide)
  second := stack_true (by decide)
  old := rfl
  new := rfl

theorem switch_returns_twoThreads :
    Resumed twoThreads false (returned bothThreads.cpu)
      (switched twoThreads otherThread false).cpu :=
  switch_returns (fun _ => rfl) bothThreads_run bothThreads_calls (.single otherThread_away)
    otherThread_calls

/-! ### New threads -/

/-- A new thread calls `InterruptEnable`, its function with the argument on the top of the stack and
then `ThreadFinish`. The first call leaves the argument alone. -/
def RunsThread (p : Procedures) (func arg : Word) (s : State) : Prop :=
  s.eip = p.threadRoot ∧ ∀ r₁ r₂ r₃,
    (call (run s threadRoot) .ecx r₁).eip = p.interruptEnable ∧
    ∀ s₁, I386.Returns (call (run s threadRoot) .ecx r₁) s₁ →
      s₁.mem (s₁.reg .esp) = (run s threadRoot).mem (s₁.reg .esp) →
      (call s₁ .esi r₂).eip = func ∧
      (call s₁ .esi r₂).mem ((call s₁ .esi r₂).reg .esp + 4) = arg ∧
      ∀ s₂, I386.Returns (call s₁ .esi r₂) s₂ → (call s₂ .edi r₃).eip = p.threadFinish

theorem runsThread {p : Procedures} {func arg : Word} {s : State} (heip : s.eip = p.threadRoot)
    (hecx : s.reg .ecx = p.interruptEnable) (hesi : s.reg .esi = func) (hedx : s.reg .edx = arg)
    (hedi : s.reg .edi = p.threadFinish) : RunsThread p func arg s := by
  have hreg : ∀ r, r ≠ .esp → r ≠ .ebp → (run s threadRoot).reg r = s.reg r := by
    intro r hesp hebp
    simp [threadRoot, I386.exec, I386.push, Operand.read, Operand.write, hesp, hebp]
  have htop : (run s threadRoot).mem ((run s threadRoot).reg .esp) = s.reg .edx := by
    simp [threadRoot, I386.exec, I386.push, Operand.read, Operand.write]
  refine ⟨heip, fun r₁ r₂ r₃ => ⟨?_, fun s₁ h₁ hkept => ⟨?_, ?_, fun s₂ h₂ => ?_⟩⟩⟩
  · exact (hreg .ecx (by decide) (by decide)).trans hecx
  · exact (h₁.call_kept (by simp)).trans ((hreg .esi (by decide) (by decide)).trans hesi)
  · have hslot : s₁.reg .esp - 4 + 4 = s₁.reg .esp := BitVec.sub_add_cancel _ _
    have hne : s₁.reg .esp ≠ s₁.reg .esp - 4 := fun h => by
      have hzero : -(4 : Word) = 0 :=
        BitVec.add_right_eq_self.mp ((BitVec.sub_eq_add_neg _ _).symm.trans h.symm)
      exact absurd hzero (by decide)
    rw [I386.call_esp, hslot, I386.call_mem hne, hkept, h₁.call_esp, htop, hedx]
  · rw [← hedi, ← hreg .edi (by decide) (by decide), ← h₁.call_kept (r := .edi) (by simp)]
    exact h₂.call_kept (by simp)

theorem forked_thread_runs {sys₀ : System T} {stack func arg : Word}
    (h0 : ∀ t, sys₀.suspended t = none) (hrun : Relation.ReflTransGen (Step L) sys₀ sys)
    (hother : t ≠ sys.current) (hstack : ∀ i < stackSize, stack + 4 * .ofNat 32 i ∈ L.stack t)
    (haway : Relation.ReflTransGen (Away L t) (withThread L sys t stack func arg) sys')
    (hdispatch : Calls L sys' t) :
    RunsThread L.procedures func arg (switched L sys' t).cpu := by
  have hi : Inv L sys := inv_of_run (.alone h0) hrun
  obtain ⟨hi', hctx⟩ := away_run (hi.fork hother hstack) haway (Function.update_self ..)
  have hresumed := hi'.resumed hdispatch hctx
  have hprepared : ∀ {r}, r ≠ .esp → (switched L sys' t).cpu.reg r = prepared L.procedures
      (stack + 4 * (.ofNat 32 stackSize - 4) - 4) func arg
      (fun i => sys.cpu.mem (L.thread t + offset i)) (some r) := fun hr => by
    rw [hresumed.reg, ← stackAllocate_object hstack]
    exact if_neg hr
  exact runsThread hresumed.eip (hprepared (by decide)) (hprepared (by decide))
    (hprepared (by decide)) (hprepared (by decide))

theorem forked_thread_runs_twoThreads :
    RunsThread twoThreads.procedures 0x7000 0x2a (switched twoThreads bothThreads true).cpu :=
  forked_thread_runs (fun _ => rfl) .refl (by decide) twoThreads_stack .refl bothThreads_calls

end Coursework.Nachos.Switch
