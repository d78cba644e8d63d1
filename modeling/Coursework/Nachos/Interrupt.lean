import Coursework.Lib.Agenda
import Coursework.Lib.Machine

/-!
# The interrupt queue of `interrupt.cc`

Pending interrupts are sorted by their times. `OneTick` and `Idle` call `CheckIfDue` in loops, and
each handler is followed from its call to its return, so that it may schedule interrupts on the
way. What a handler does is left open, and all counters of ticks are unbounded.
-/
namespace Coursework.Nachos

inductive IntStatus where
  | off | on
  deriving DecidableEq

inductive MachineStatus where
  | idleMode | systemMode | userMode
  deriving DecidableEq

inductive IntType where
  | timerInt | diskInt | consoleWriteInt | consoleReadInt | networkSendInt | networkRecvInt
  deriving DecidableEq

/-- The call of a handler at a time. The serial number tells objects apart; no code reads it. -/
structure PendingInterrupt (Handler : Type) where
  handler : Handler
  arg : ℤ
  when : ℤ
  type : IntType
  serial : ℕ

namespace Interrupt

def userTick : ℤ := 1

def systemTick : ℤ := 10

/-- The loop that has called `CheckIfDue`. -/
inductive Caller where
  /-- With the status that `OneTick` found. -/
  | oneTick (old : MachineStatus)
  /-- The first call in `Idle`, or one in its loop. -/
  | idle (first : Bool)

/-- The argument of the call. -/
def Caller.advanceClock : Caller → Bool
  | .oneTick _ => false
  | .idle first => first

inductive Pc (Handler : Type) where
  /-- In the kernel or a user program. -/
  | outside
  | checkIfDue (k : Caller)
  /-- In the handler of `toOccur`, with the status that `CheckIfDue` found. -/
  | handler (toOccur : PendingInterrupt Handler) (old : MachineStatus) (k : Caller)
  | halted

/-- What is recorded of a run. -/
inductive Seen (Handler : Type) where
  | scheduled (x : PendingInterrupt Handler)
  | fired (x : PendingInterrupt Handler) (totalTicks : ℤ)

structure State (Handler : Type) where
  level : IntStatus
  /-- With the keys of the list elements. -/
  pending : List (ℤ × PendingInterrupt Handler)
  inHandler : Bool
  yieldOnReturn : Bool
  status : MachineStatus
  totalTicks : ℤ
  idleTicks : ℤ
  systemTicks : ℤ
  userTicks : ℤ
  pc : Pc Handler
  /-- What `OneTick` will restore when the threads return that it made yield. -/
  yielded : List MachineStatus
  /-- The record of the run, and how many interrupts it has scheduled; no code reads them. -/
  log : List (Seen Handler)
  issued : ℕ

inductive Event (Handler : Type) where
  | schedule (handler : Handler) (arg fromNow : ℤ) (type : IntType)
  | setLevel (now : IntStatus)
  | oneTick
  | idle
  | setStatus (status : MachineStatus)
  | yieldOnReturn
  /-- A thread returns from the `Yield` in `OneTick`. -/
  | resume (old : MachineStatus)
  /-- The call of `CheckIfDue`, or the return of a handler. -/
  | step

variable {Handler : Type}

namespace State

def schedule (s : State Handler) (handler : Handler) (arg fromNow : ℤ) (type : IntType) :
    Option (State Handler) :=
  let toOccur := ⟨handler, arg, s.totalTicks + fromNow, type, s.issued⟩
  if fromNow > 0 then
    some { s with
      pending := insertByKey (s.totalTicks + fromNow, toOccur) s.pending
      log := s.log ++ [.scheduled toOccur]
      issued := s.issued + 1 }
  else none

/-- `OneTick` up to its loop. -/
def oneTick (s : State Handler) : State Handler :=
  let s' := if s.status = .systemMode then
      { s with totalTicks := s.totalTicks + systemTick, systemTicks := s.systemTicks + systemTick }
    else { s with totalTicks := s.totalTicks + userTick, userTicks := s.userTicks + userTick }
  { s' with level := .off, pc := .checkIfDue (.oneTick s.status) }

/-- `CheckIfDue` has returned to the loop that called it. -/
def returnTo (s : State Handler) : Caller → Bool → State Handler
  | .oneTick old, true => { s with pc := .checkIfDue (.oneTick old) }
  | .oneTick old, false =>
    if s.yieldOnReturn then
      { s with
        level := .on
        yieldOnReturn := false
        status := .systemMode
        yielded := old :: s.yielded
        pc := .outside }
    else { s with level := .on, pc := .outside }
  | .idle _, true => { s with pc := .checkIfDue (.idle false) }
  | .idle true, false => { s with pc := .halted }
  | .idle false, false =>
    { s with yieldOnReturn := false, status := .systemMode, pc := .outside }

/-- An interrupt goes back on the list. -/
def putBack (s : State Handler) (when : ℤ) (toOccur : PendingInterrupt Handler) : State Handler :=
  { s with pending := insertByKey (when, toOccur) s.pending }

/-- The second half of `CheckIfDue`, up to the call of the handler. -/
def invoke (s : State Handler) (k : Caller) (when : ℤ) (toOccur : PendingInterrupt Handler) :
    State Handler :=
  if s.status = .idleMode ∧ toOccur.type = .timerInt ∧ s.pending.isEmpty then
    (s.putBack when toOccur).returnTo k false
  else
    { s with
      inHandler := true
      status := .systemMode
      pc := .handler toOccur s.status k
      log := s.log ++ [.fired toOccur s.totalTicks] }

def checkIfDue (s : State Handler) (k : Caller) : Option (State Handler) :=
  if s.level = .off then
    some (match s.pending with
    | [] => s.returnTo k false
    | (when, toOccur) :: pending =>
      let s := { s with pending := pending }
      if k.advanceClock ∧ when > s.totalTicks then
        { s with
          idleTicks := s.idleTicks + (when - s.totalTicks)
          totalTicks := when }.invoke k when toOccur
      else if when > s.totalTicks then (s.putBack when toOccur).returnTo k false
      else s.invoke k when toOccur)
  else none

/-- Handlers schedule interrupts and set the flag; the callers of `setStatus` do not set
`IdleMode`, and handlers do not turn interrupts on. -/
def step (s : State Handler) (e : Event Handler) : Option (State Handler) :=
  match s.pc, e with
  | .outside, .schedule handler arg fromNow type => s.schedule handler arg fromNow type
  | .outside, .setLevel now =>
    some (if now = .on ∧ s.level = .off then s.oneTick else { s with level := now })
  | .outside, .oneTick => some s.oneTick
  | .outside, .idle => some { s with status := .idleMode, pc := .checkIfDue (.idle true) }
  | .outside, .setStatus status =>
    if status = .idleMode then none else some { s with status := status }
  | .outside, .resume old =>
    if old ∈ s.yielded then some { s with status := old, yielded := s.yielded.erase old } else none
  | .checkIfDue k, .step => s.checkIfDue k
  | .handler _ _ _, .schedule handler arg fromNow type => s.schedule handler arg fromNow type
  | .handler _ _ _, .setLevel now => if now = .off then some { s with level := now } else none
  | .handler _ _ _, .yieldOnReturn => some { s with yieldOnReturn := true }
  | .handler _ old k, .step => some ({ s with status := old, inHandler := false }.returnTo k true)
  | _, _ => none

end State

/-- After the constructors of `Interrupt` and `Statistics`. -/
structure Start (s : State Handler) : Prop where
  pending : s.pending = []
  status : s.status = .systemMode
  ticks : s.totalTicks = 0 ∧ s.idleTicks = 0 ∧ s.systemTicks = 0 ∧ s.userTicks = 0
  pc : s.pc = .outside
  yielded : s.yielded = []
  log : s.log = []

def machine : Machine (State Handler) (Event Handler) where
  init := Start
  step := State.step

end Interrupt
end Coursework.Nachos
