import Coursework.Nachos.Disk.Latency
import Coursework.Nachos.Interrupt.Outstanding

/-!
# The devices on the interrupt queue

The timer, the console and the network poll: the handler of each interrupt first schedules the
next one. The disk schedules an interrupt for each request. Whatever else is on the queue is left
open, and so is what the handlers of the kernel do there. The `int` that counts the ticks is an
integer without bounds: this is the machine as long as the counter does not overflow.
-/
namespace Coursework.Nachos.Devices
open Interrupt

def timerTicks : ℤ := 100

def consoleTime : ℤ := 100

def networkTime : ℤ := 100

/-- The classes `Timer`, `Console` and `Network`. -/
inductive Poll where
  | timer | console | network
  deriving DecidableEq

inductive Device where
  | poll (p : Poll)
  | disk
  deriving DecidableEq

/-- `TimerHandler`, `ConsoleReadPoll`, `NetworkReadPoll` and `DiskDone`, or any other. -/
inductive Handler (Other : Type) where
  | device (d : Device)
  | other (x : Other)

def Handler.device? {Other : Type} : Handler Other → Option Device
  | .device d => some d
  | .other _ => none

def Poll.type : Poll → IntType
  | .timer => .timerInt
  | .console => .consoleReadInt
  | .network => .networkRecvInt

/-- `TimeOfNextInterrupt`, where `Random` returns `random`. -/
def timeOfNextInterrupt (randomize : Bool) (random : ℕ) : ℤ :=
  if randomize then 1 + random % (timerTicks * 2) else timerTicks

/-- When the next interrupt of a device is to occur. -/
def Poll.fromNow (randomize : Bool) (random : ℕ) : Poll → ℤ
  | .timer => timeOfNextInterrupt randomize random
  | .console => consoleTime
  | .network => networkTime

structure State (Other : Type) where
  interrupt : Interrupt.State (Handler Other)
  /-- The devices whose constructors have been called. -/
  started : Poll → Bool
  head : Disk.Head
  /-- The disk works on a request. -/
  active : Bool

inductive Event (Other : Type) where
  /-- A step of the kernel, of the queue or of another handler. -/
  | queue (e : Interrupt.Event (Handler Other))
  | start (p : Poll) (random : ℕ)
  /-- `ReadRequest` or `WriteRequest` -/
  | request (sectorNumber : ℤ) (writing : Bool)
  /-- The handler of a device runs and returns. -/
  | handle (random : ℕ)

variable {Other : Type}

namespace State

/-- The other parts schedule no interrupts of these devices and no timer interrupts. -/
def allows (s : State Other) (e : Interrupt.Event (Handler Other)) : Bool :=
  (s.interrupt.pc.current.all fun x => x.handler.device?.isNone) &&
    match e with
    | .schedule handler _ _ type => handler.device?.isNone && decide (type ≠ .timerInt)
    | _ => true

/-- A device schedules its next interrupt. -/
def next (s : State Other) (randomize : Bool) (random : ℕ) (p : Poll) :
    Option (Interrupt.State (Handler Other)) :=
  s.interrupt.step (.schedule (.device (.poll p)) 0 (p.fromNow randomize random) p.type)

/-- The rest of the handler, with `TimerInterruptHandler` where it is the timer's; what the kernel
does for the console and the network is not on the queue. -/
def callback (i : Interrupt.State (Handler Other)) :
    Poll → Option (Interrupt.State (Handler Other))
  | .timer => if i.status ≠ .idleMode then i.step .yieldOnReturn else some i
  | _ => some i

def step (randomize : Bool) (s : State Other) : Event Other → Option (State Other)
  | .queue e =>
    if s.allows e then (s.interrupt.step e).map fun i => { s with interrupt := i } else none
  | .start p random =>
    match s.interrupt.pc with
    | .outside =>
      if s.started p then none
      else (s.next randomize random p).map fun i =>
        { s with interrupt := i, started := Function.update s.started p true }
    | _ => none
  | .request sectorNumber writing =>
    match s.interrupt.pc with
    | .outside =>
      let ticks := s.head.computeLatency s.interrupt.totalTicks sectorNumber writing
      if s.active = false ∧ Disk.IsSector sectorNumber then
        (s.interrupt.step (.schedule (.device .disk) 0 ticks .diskInt)).map fun i =>
          { s with
            interrupt := i
            active := true
            head := s.head.updateLast s.interrupt.totalTicks sectorNumber }
      else none
    | _ => none
  | .handle random =>
    match s.interrupt.pc with
    | .handler ⟨.device (.poll p), _, _, _, _⟩ _ _ => do
      let i ← s.next randomize random p
      let i ← callback i p
      let i ← i.step .step
      some { s with interrupt := i }
    | .handler ⟨.device .disk, _, _, _, _⟩ _ _ =>
      (s.interrupt.step .step).map fun i => { s with interrupt := i, active := false }
    | _ => none

end State

/-- No device has been started, and the disk has been opened. -/
structure Start (s : State Other) : Prop where
  interrupt : Interrupt.Start s.interrupt
  started : ∀ p, s.started p = false
  head : s.head = ⟨0, 0⟩
  active : s.active = false

def machine (randomize : Bool) : Machine (State Other) (Event Other) where
  init := Start
  step := State.step randomize

/-- After the constructors. -/
def initialState : State Unit where
  interrupt :=
    { level := .off
      pending := []
      inHandler := false
      yieldOnReturn := false
      status := .systemMode
      totalTicks := 0
      idleTicks := 0
      systemTicks := 0
      userTicks := 0
      pc := .outside
      yielded := []
      log := []
      issued := 0 }
  started _ := false
  head := ⟨0, 0⟩
  active := false

theorem initialState_start : Start initialState :=
  ⟨⟨rfl, rfl, ⟨rfl, rfl, rfl, rfl⟩, rfl, rfl, rfl⟩, fun _ => rfl, rfl, rfl⟩

/-! ### Steps -/

variable {randomize : Bool} {s s' : State Other} {i : Interrupt.State (Handler Other)} {p : Poll}
  {random : ℕ} {e : Event Other}

/-- The interrupts of a device that are outstanding. -/
def mine (i : Interrupt.State (Handler Other)) (d : Device) :
    List (PendingInterrupt (Handler Other)) :=
  (outstanding i).filter fun x => x.handler.device? = some d

/-- What a step does on the queue, and that the rest changes with it. -/
inductive Stepped (randomize : Bool) (s : State Other) : Event Other → State Other → Prop where
  | queue {e : Interrupt.Event (Handler Other)} {i : Interrupt.State (Handler Other)}
      {gone new : List (PendingInterrupt (Handler Other))} (hstep : s.interrupt.step e = some i)
      (hcurrent : ∀ x ∈ s.interrupt.pc.current, x.handler.device? = none)
      (hmoved : Moved s.interrupt i gone new) (hgone : ∀ x ∈ gone, x.handler.device? = none)
      (hnew : ∀ x ∈ new, x.handler.device? = none ∧ x.type ≠ .timerInt) :
      Stepped randomize s (.queue e) { s with interrupt := i }
  | start {p : Poll} {random : ℕ} {i : Interrupt.State (Handler Other)}
      {x : PendingInterrupt (Handler Other)} (hpc : s.interrupt.pc = .outside)
      (hpc' : i.pc = .outside) (hno : s.started p = false)
      (hhandler : x.handler = .device (.poll p)) (htype : x.type = p.type)
      (hwhen : x.when = s.interrupt.totalTicks + p.fromNow randomize random)
      (hmoved : Moved s.interrupt i [] [x]) :
      Stepped randomize s (.start p random)
        { s with interrupt := i, started := Function.update s.started p true }
  | request {sectorNumber : ℤ} {writing : Bool} {i : Interrupt.State (Handler Other)}
      {x : PendingInterrupt (Handler Other)} (hpc : s.interrupt.pc = .outside)
      (hpc' : i.pc = .outside) (hidle : s.active = false) (hs : Disk.IsSector sectorNumber)
      (hhandler : x.handler = .device .disk) (htype : x.type = .diskInt)
      (hwhen : x.when = s.interrupt.totalTicks +
        s.head.computeLatency s.interrupt.totalTicks sectorNumber writing)
      (hmoved : Moved s.interrupt i [] [x]) :
      Stepped randomize s (.request sectorNumber writing)
        { s with
          interrupt := i
          active := true
          head := s.head.updateLast s.interrupt.totalTicks sectorNumber }
  | poll {p : Poll} {random : ℕ} {i : Interrupt.State (Handler Other)}
      {x y : PendingInterrupt (Handler Other)} {old : MachineStatus} {k : Caller}
      (hpc : s.interrupt.pc = .handler y old k) (hy : y.handler = .device (.poll p))
      (hhandler : x.handler = .device (.poll p)) (htype : x.type = p.type)
      (hwhen : x.when = s.interrupt.totalTicks + p.fromNow randomize random)
      (hpc' : i.pc = .checkIfDue k.again)
      (hyield : i.yieldOnReturn = (s.interrupt.yieldOnReturn ||
        decide (p = .timer ∧ s.interrupt.status ≠ .idleMode)))
      (hmoved : Moved s.interrupt i [y] [x]) :
      Stepped randomize s (.handle random) { s with interrupt := i }
  | disk {random : ℕ} {i : Interrupt.State (Handler Other)}
      {y : PendingInterrupt (Handler Other)} {old : MachineStatus} {k : Caller}
      (hpc : s.interrupt.pc = .handler y old k) (hy : y.handler = .device .disk)
      (hpc' : i.pc = .checkIfDue k.again)
      (hyield : i.yieldOnReturn = s.interrupt.yieldOnReturn)
      (hmoved : Moved s.interrupt i [y] []) :
      Stepped randomize s (.handle random) { s with interrupt := i, active := false }

/-- Where no handler returns, a schedule is the whole step. -/
theorem schedule_moved {handler : Handler Other} {arg fromNow : ℤ} {type : IntType}
    {u : Interrupt.State (Handler Other)}
    (hs : u.step (.schedule handler arg fromNow type) = some i) :
    Moved u i [] [⟨handler, arg, u.totalTicks + fromNow, type, u.issued⟩] ∧
      i.totalTicks = u.totalTicks ∧ i.pc = u.pc ∧ i.status = u.status ∧
      i.yieldOnReturn = u.yieldOnReturn := by
  refine ⟨moved_step hs, ?_⟩
  have hschedule : u.schedule handler arg fromNow type = some i := by
    cases hpc : u.pc with
    | outside | handler =>
      rw [Interrupt.State.step.eq_def, hpc] at hs
      exact hs
    | checkIfDue | halted =>
      rw [Interrupt.State.step.eq_def, hpc] at hs
      cases hs
  obtain ⟨-, hschedule⟩ := Option.ite_none_right_eq_some.mp hschedule
  cases hschedule
  exact ⟨rfl, rfl, rfl, rfl⟩

theorem callback_eq {u : Interrupt.State (Handler Other)} {y : PendingInterrupt (Handler Other)}
    {old : MachineStatus} {k : Caller} (hpc : u.pc = .handler y old k)
    (hs : State.callback u p = some i) :
    Moved u i [] [] ∧ i.pc = .handler y old k ∧ i.yieldOnReturn =
      (u.yieldOnReturn || decide (p = .timer ∧ u.status ≠ .idleMode)) := by
  cases p with
  | timer =>
    rw [State.callback] at hs
    split_ifs at hs with hstatus
    · have hmoved := moved_step hs
      rw [Interrupt.State.step.eq_def, hpc] at hs
      cases hs
      refine ⟨hmoved, rfl, ?_⟩
      rw [decide_eq_true ⟨rfl, hstatus⟩, Bool.or_true]
    · cases hs
      refine ⟨.refl _, hpc, ?_⟩
      rw [decide_eq_false fun h => hstatus h.2, Bool.or_false]
  | console | network =>
    cases hs
    refine ⟨.refl _, hpc, ?_⟩
    rw [decide_eq_false fun h => Poll.noConfusion h.1, Bool.or_false]

/-- A handler returns to the loop that called `CheckIfDue`. -/
theorem return_moved {u : Interrupt.State (Handler Other)} {y : PendingInterrupt (Handler Other)}
    {old : MachineStatus} {k : Caller} (hpc : u.pc = .handler y old k)
    (hs : u.step .step = some i) :
    Moved u i [y] [] ∧ i.pc = .checkIfDue k.again ∧ i.yieldOnReturn = u.yieldOnReturn := by
  have hmoved := moved_step hs
  rw [handled, hpc] at hmoved
  rw [Interrupt.State.step.eq_def, hpc] at hs
  cases hs
  refine ⟨hmoved, ?_⟩
  cases k with
  | oneTick old => exact ⟨rfl, rfl⟩
  | idle first => exact ⟨rfl, rfl⟩

theorem stepped_of_queue {e : Interrupt.Event (Handler Other)}
    (hs : s.step randomize (.queue e) = some s') : Stepped randomize s (.queue e) s' := by
  obtain ⟨hallows, hs⟩ := Option.ite_none_right_eq_some.mp hs
  obtain ⟨i, hstep, rfl⟩ := Option.map_eq_some_iff.mp hs
  unfold State.allows at hallows
  rw [Bool.and_eq_true, List.all_eq_true] at hallows
  obtain ⟨hcurrent, hnew⟩ := hallows
  have hcurrent (x) (hx : x ∈ s.interrupt.pc.current) : x.handler.device? = none :=
    Option.isNone_iff_eq_none.mp (hcurrent x hx)
  refine .queue hstep hcurrent (moved_step hstep) ?_ ?_
  · intro x hx
    cases e with
    | step => exact hcurrent x hx
    | _ => cases hx
  · intro x hx
    cases e with
    | schedule handler arg fromNow type =>
      obtain ⟨hnone, htype⟩ := Bool.and_eq_true_iff.mp hnew
      rw [List.mem_singleton.mp hx]
      exact ⟨Option.isNone_iff_eq_none.mp hnone, of_decide_eq_true htype⟩
    | _ => cases hx

theorem stepped_of_handle (hs : s.step randomize (.handle random) = some s') :
    Stepped randomize s (.handle random) s' := by
  rw [State.step] at hs
  split at hs
  case h_1 p arg when type serial old k hpc =>
    obtain ⟨i₁, h₁, hs⟩ := Option.bind_eq_some_iff.mp hs
    obtain ⟨i₂, h₂, hs⟩ := Option.bind_eq_some_iff.mp hs
    obtain ⟨i, h, hs⟩ := Option.bind_eq_some_iff.mp hs
    cases hs
    obtain ⟨hnext, -, hpc₁, hstatus, hyield₁⟩ := schedule_moved h₁
    obtain ⟨hcallback, hpc₂, hyield₂⟩ := callback_eq (hpc₁.trans hpc) h₂
    obtain ⟨hreturn, hpc', hyield⟩ := return_moved hpc₂ h
    refine .poll hpc rfl rfl rfl rfl hpc' ?_ ((hnext.trans hcallback).trans hreturn)
    rw [hyield, hyield₂, hyield₁, hstatus]
  case h_2 arg when type serial old k hpc =>
    obtain ⟨i, h, rfl⟩ := Option.map_eq_some_iff.mp hs
    obtain ⟨hreturn, hpc', hyield⟩ := return_moved hpc h
    exact .disk hpc rfl hpc' hyield hreturn
  case h_3 => cases hs

theorem stepped_of_step (hs : s.step randomize e = some s') : Stepped randomize s e s' := by
  cases e with
  | queue e => exact stepped_of_queue hs
  | start p random =>
    rw [State.step] at hs
    split at hs
    case h_1 hpc =>
      split_ifs at hs with hstarted
      obtain ⟨i, h, rfl⟩ := Option.map_eq_some_iff.mp hs
      obtain ⟨hnext, -, hpc', -⟩ := schedule_moved h
      exact .start hpc (hpc'.trans hpc) (Bool.eq_false_iff.mpr hstarted) rfl rfl rfl hnext
    case h_2 => cases hs
  | request sectorNumber writing =>
    rw [State.step] at hs
    split at hs
    case h_1 hpc =>
      obtain ⟨⟨hidle, hsector⟩, hs⟩ := Option.ite_none_right_eq_some.mp hs
      obtain ⟨i, h, rfl⟩ := Option.map_eq_some_iff.mp hs
      obtain ⟨hnext, -, hpc', -⟩ := schedule_moved h
      exact .request hpc (hpc'.trans hpc) hidle hsector rfl rfl rfl hnext
    case h_2 => cases hs
  | handle random => exact stepped_of_handle hs

end Coursework.Nachos.Devices
