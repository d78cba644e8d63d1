import Coursework.Nachos.Interrupt
import Coursework.Nachos.Semaphore

/-!
# Threads and the scheduler of `thread.cc` and `scheduler.cc`

One thread runs at a time, and what it does with interrupts off is one step up to the next place
where a handler may run or another thread is switched to. Handlers run in the loop of `OneTick`
and in `Idle`; which interrupts are due is left open.
-/
namespace Coursework.Nachos

inductive ThreadStatus where
  | justCreated | running | ready | blocked
  deriving DecidableEq

namespace Scheduler

/-- Who called `Sleep` or `Scheduler::Run`, with the `oldLevel` it will restore. -/
inductive Caller (Sid : Type) where
  | yield (oldLevel : IntStatus)
  | p (sema : Sid) (oldLevel : IntStatus)
  | finish
  deriving DecidableEq

/-- The statement that a thread runs next. -/
inductive Pc (Sid : Type) where
  /-- The thread is not forked yet. -/
  | created
  /-- At the start of `ThreadRoot`. -/
  | root
  /-- In code of its own. -/
  | outside
  /-- In the loop of `OneTick` that runs the handlers. -/
  | oneTick
  /-- At the test of the loop in `P`. -/
  | test (sema : Sid) (oldLevel : IntStatus)
  /-- At the test of the loop in `Sleep`. -/
  | sleep (k : Caller Sid)
  | idle (k : Caller Sid)
  /-- In `Scheduler::Run`, after `SWITCH`. -/
  | switched (k : Caller Sid)
  /-- Where `Finish` says that it is not reached. -/
  | notReached
  /-- The destructor's assertion has failed. -/
  | assertFailed
  deriving DecidableEq

/-- What is recorded of a run. -/
inductive Seen (Tid : Type) where
  | forked (t : Tid)
  /-- The dispatch of a thread that has not run before. -/
  | started (t : Tid)
  /-- The dispatch of a thread that was switched out before. -/
  | resumed (t : Tid)
  | finished (t : Tid)
  /-- The deletion of `t` while thread `byThread` runs. -/
  | deleted (byThread t : Tid)
  deriving DecidableEq

structure State (Tid Sid : Type) where
  status : Tid → ThreadStatus
  readyList : List Tid
  sema : Sid → Semaphore Tid
  currentThread : Tid
  threadToBeDestroyed : Option Tid
  level : IntStatus
  yieldOnReturn : Bool
  pc : Tid → Pc Sid
  /-- The record of the run; no code reads it. -/
  log : List (Seen Tid)

/-- What the current thread does in code of its own. -/
inductive Call (Tid Sid : Type) where
  | setLevel (now : IntStatus)
  /-- `OneTick` after a user instruction. -/
  | oneTick
  | fork (t : Tid)
  | yield
  | p (sema : Sid)
  | v (sema : Sid)
  | finish

/-- What an interrupt handler does. -/
inductive Handler (Sid : Type) where
  | v (sema : Sid)
  | yieldOnReturn

inductive Event (Tid Sid : Type) where
  | call (c : Call Tid Sid)
  | step
  | interrupt (i : Handler Sid)

variable {Tid Sid : Type} [DecidableEq Tid] [DecidableEq Sid]

namespace State

/-- The current thread goes to `pc`. -/
def goto (s : State Tid Sid) (pc : Pc Sid) : State Tid Sid :=
  { s with pc := Function.update s.pc s.currentThread pc }

def oneTick (s : State Tid Sid) : State Tid Sid := { s with level := .off }.goto .oneTick

/-- `SetLevel` as the last statement of a call. -/
def setLevel (s : State Tid Sid) (now : IntStatus) : State Tid Sid :=
  if now = .on ∧ s.level = .off then s.oneTick else { s with level := now }.goto .outside

def readyToRun (s : State Tid Sid) (thread : Tid) : State Tid Sid :=
  { s with
    status := Function.update s.status thread .ready
    readyList := s.readyList ++ [thread] }

def findNextToRun (s : State Tid Sid) : Option Tid × State Tid Sid :=
  (s.readyList.head?, { s with readyList := s.readyList.tail })

/-- `Scheduler::Run` up to `SWITCH`, which leaves the current thread behind it. -/
def run (s : State Tid Sid) (nextThread : Tid) (k : Caller Sid) : State Tid Sid :=
  { s with
    currentThread := nextThread
    status := Function.update s.status nextThread .running
    pc := Function.update s.pc s.currentThread (.switched k)
    log := s.log ++ [if s.pc nextThread = .root then .started nextThread else .resumed nextThread] }

def yield (s : State Tid Sid) : State Tid Sid :=
  match { s with level := .off }.findNextToRun with
  | (none, s') => s'.setLevel s.level
  | (some nextThread, s') => (s'.readyToRun s.currentThread).run nextThread (.yield s.level)

/-- `V` between the two calls of `SetLevel`. -/
def v (s : State Tid Sid) (sema : Sid) : State Tid Sid :=
  let s' := { s with sema := Function.update s.sema sema (s.sema sema).V }
  match (s.sema sema).queue.head? with
  | none => s'
  | some thread => s'.readyToRun thread

/-- `Sleep` up to its loop. -/
def sleep (s : State Tid Sid) (k : Caller Sid) : State Tid Sid :=
  { s with status := Function.update s.status s.currentThread .blocked }.goto (.sleep k)

/-- One pass of the loop in `P`. -/
def test (s : State Tid Sid) (sema : Sid) (oldLevel : IntStatus) : State Tid Sid :=
  let (S, passed) := (s.sema sema).P s.currentThread
  let s' := { s with sema := Function.update s.sema sema S }
  if passed then s'.setLevel oldLevel else s'.sleep (.p sema oldLevel)

/-- `Fork` after the stack is there. -/
def fork (s : State Tid Sid) (t : Tid) : State Tid Sid :=
  let s' := { s with level := .off }.readyToRun t
  { s' with
    pc := Function.update s.pc t .root
    log := s.log ++ [Seen.forked t] }.setLevel s.level

def finish (s : State Tid Sid) : State Tid Sid :=
  { s with
    level := .off
    threadToBeDestroyed := some s.currentThread
    log := s.log ++ [Seen.finished s.currentThread] }.sleep .finish

/-- What follows the return of `Scheduler::Run` in its caller. -/
def returnTo (s : State Tid Sid) : Caller Sid → State Tid Sid
  | .yield oldLevel => s.setLevel oldLevel
  | .p sema oldLevel => s.goto (.test sema oldLevel)
  | .finish => s.goto .notReached

/-- `Scheduler::Run` after `SWITCH`, with the destructor of `Thread`. -/
def afterSwitch (s : State Tid Sid) (k : Caller Sid) : State Tid Sid :=
  match s.threadToBeDestroyed with
  | none => s.returnTo k
  | some t =>
    if t = s.currentThread then s.goto .assertFailed
    else { s with
      threadToBeDestroyed := none
      log := s.log ++ [Seen.deleted s.currentThread t] }.returnTo k

def call (s : State Tid Sid) : Call Tid Sid → State Tid Sid
  | .setLevel now => s.setLevel now
  | .oneTick => s.oneTick
  | .fork t => s.fork t
  | .yield => s.yield
  | .p sema => { s with level := .off }.goto (.test sema s.level)
  | .v sema => ({ s with level := .off }.v sema).setLevel s.level
  | .finish => s.finish

/-- The next statements of the current thread, after its own code. -/
def next (s : State Tid Sid) : Pc Sid → Option (State Tid Sid)
  | .root => some (s.setLevel .on)
  | .oneTick =>
    let s := { s with level := .on }
    some (if s.yieldOnReturn then { s with yieldOnReturn := false }.yield else s.goto .outside)
  | .test sema oldLevel => some (s.test sema oldLevel)
  | .sleep k =>
    match s.findNextToRun with
    | (none, s) => some (s.goto (.idle k))
    | (some nextThread, s) => some (s.run nextThread k)
  | .idle k => some ({ s with yieldOnReturn := false }.goto (.sleep k))
  | .switched k => some (s.afterSwitch k)
  | .created | .outside | .notReached | .assertFailed => none

def handle (s : State Tid Sid) : Handler Sid → State Tid Sid
  | .v sema => s.v sema
  | .yieldOnReturn => { s with yieldOnReturn := true }

/-- Handlers run in `OneTick` and in `Idle`. -/
def step (s : State Tid Sid) : Event Tid Sid → Option (State Tid Sid)
  | .call c => if s.pc s.currentThread = .outside then some (s.call c) else none
  | .step => s.next (s.pc s.currentThread)
  | .interrupt i =>
    match s.pc s.currentThread with
    | .oneTick | .idle _ => some (s.handle i)
    | _ => none

end State

/-- After `Initialize`: only the main thread is there, and it runs. -/
structure Start (mainThread : Tid) (s : State Tid Sid) : Prop where
  status : s.status mainThread = .running
  readyList : s.readyList = []
  sema : ∀ sema, (s.sema sema).queue = []
  currentThread : s.currentThread = mainThread
  threadToBeDestroyed : s.threadToBeDestroyed = none
  level : s.level = .on
  pc : s.pc = Function.update (fun _ => .created) mainThread .outside
  log : s.log = []

def machine (mainThread : Tid) : Machine (State Tid Sid) (Event Tid Sid) where
  init := Start mainThread
  step := State.step

end Scheduler
end Coursework.Nachos
