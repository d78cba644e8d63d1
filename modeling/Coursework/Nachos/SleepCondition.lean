import Coursework.Lib.Placement
import Coursework.Nachos.Interrupt
import Coursework.Nachos.SleepLock

/-!
# The condition variables of `synch-sleep.cc`

`Wait`, `Signal` and `Broadcast` keep threads in queues of their own, like the locks of the same
file, and run with interrupts off. One thread runs at a time; another one is switched to in
`Sleep`, and in the `Yield` that `OneTick` may call when `SetLevel` turns interrupts back on.
-/
namespace Coursework.Nachos.SleepCondition

/-- The statement that a thread runs next; `oldLevel` is what a call of `SetLevel` returned. -/
inductive Pc (Lid Cid : Type) where
  /-- The thread is not forked yet. -/
  | created
  /-- At the start of `ThreadRoot`. -/
  | root
  /-- In code of its own. -/
  | outside
  /-- In the loop of `OneTick` that runs the handlers, on the way to `k`. -/
  | oneTick (k : Pc Lid Cid)
  /-- At the test of the loop in `Sleep`, which returns to `k`. -/
  | sleep (k : Pc Lid Cid)
  /-- In `Yield`, after `Scheduler::Run`. -/
  | yielded (oldLevel : IntStatus) (k : Pc Lid Cid)
  /-- In `Acquire`, after its `Sleep`. -/
  | acquired (l : Lid) (oldLevel : IntStatus) (k : Pc Lid Cid)
  /-- In `Wait`, before `conditionLock->Release()`. -/
  | waitRelease (c : Cid) (l : Lid) (oldLevel : IntStatus)
  /-- In `Wait`, before `currentThread->Sleep()`. -/
  | waitSleep (c : Cid) (l : Lid) (oldLevel : IntStatus)
  /-- In `Wait`, before `conditionLock->Acquire()`. -/
  | waitAcquire (c : Cid) (l : Lid) (oldLevel : IntStatus)
  /-- In `Wait`, before the last call of `SetLevel`. -/
  | waitEnd (oldLevel : IntStatus)
  /-- An assertion has failed. -/
  | assertFailed
  deriving DecidableEq

structure State (Tid Lid Cid : Type) where
  readyList : List Tid
  lock : Lid → SleepLock Tid
  /-- The queues of the conditions. -/
  cond : Cid → List Tid
  currentThread : Tid
  level : IntStatus
  pc : Tid → Pc Lid Cid

/-- What the current thread does in code of its own. -/
inductive Call (Tid Lid Cid : Type) where
  | setLevel (now : IntStatus)
  | fork (t : Tid)
  | yield
  | acquire (l : Lid)
  | release (l : Lid)
  | wait (c : Cid) (l : Lid)
  | signal (c : Cid) (l : Lid)
  /-- The loop makes at most `rounds` rounds. -/
  | broadcast (c : Cid) (l : Lid) (rounds : ℕ)
  deriving DecidableEq

/-- A handler may have asked for a switch when `OneTick` comes to its end. -/
inductive Event (Tid Lid Cid : Type) where
  | call (x : Call Tid Lid Cid)
  | step (yieldOnReturn : Bool)
  deriving DecidableEq

variable {Tid Lid Cid : Type} [DecidableEq Tid] [DecidableEq Lid] [DecidableEq Cid]

namespace State

/-- The current thread goes to `x`. -/
def goto (s : State Tid Lid Cid) (x : Pc Lid Cid) : State Tid Lid Cid :=
  { s with pc := Function.update s.pc s.currentThread x }

/-- `SetLevel(now)` before the statement `k`. -/
def setLevel (s : State Tid Lid Cid) (now : IntStatus) (k : Pc Lid Cid) : State Tid Lid Cid :=
  if now = .on ∧ s.level = .off then s.goto (.oneTick k) else { s with level := now }.goto k

def readyToRun (s : State Tid Lid Cid) (thread : Tid) : State Tid Lid Cid :=
  { s with readyList := s.readyList ++ [thread] }

/-- `Scheduler::Run` up to `SWITCH`; the current thread will go on at `k`. -/
def run (s : State Tid Lid Cid) (nextThread : Tid) (k : Pc Lid Cid) : State Tid Lid Cid :=
  { s.goto k with currentThread := nextThread }

def yield (s : State Tid Lid Cid) (k : Pc Lid Cid) : State Tid Lid Cid :=
  let oldLevel := s.level
  let s := { s with level := .off }
  match s.readyList with
  | [] => s.setLevel oldLevel k
  | nextThread :: rest =>
    ({ s with readyList := rest }.readyToRun s.currentThread).run nextThread (.yielded oldLevel k)

/-- `Sleep` up to its loop. -/
def sleep (s : State Tid Lid Cid) (k : Pc Lid Cid) : State Tid Lid Cid :=
  -- `ASSERT(interrupt->getLevel() == IntOff)`
  if s.level = .off then s.goto (.sleep k) else s.goto .assertFailed

def setLock (s : State Tid Lid Cid) (l : Lid) (x : SleepLock Tid) : State Tid Lid Cid :=
  { s with lock := Function.update s.lock l x }

def setCond (s : State Tid Lid Cid) (c : Cid) (q : List Tid) : State Tid Lid Cid :=
  { s with cond := Function.update s.cond c q }

/-- `Acquire` up to its `Sleep` or its end. -/
def acquire (s : State Tid Lid Cid) (l : Lid) (k : Pc Lid Cid) : State Tid Lid Cid :=
  let oldLevel := s.level
  let s := { s with level := .off }
  match (s.lock l).acquire s.currentThread with
  | (x, true) => (s.setLock l x).setLevel oldLevel k
  | (x, false) => (s.setLock l x).sleep (.acquired l oldLevel k)

def release (s : State Tid Lid Cid) (l : Lid) (k : Pc Lid Cid) : State Tid Lid Cid :=
  let oldLevel := s.level
  let s := { s with level := .off }
  match (s.lock l).queue with
  | [] => (s.setLock l (s.lock l).release).setLevel oldLevel k
  | thread :: _ => ((s.setLock l (s.lock l).release).readyToRun thread).setLevel oldLevel k

/-- `Wait` up to its `Release`. -/
def wait (s : State Tid Lid Cid) (c : Cid) (l : Lid) : State Tid Lid Cid :=
  let oldLevel := s.level
  let s := { s with level := .off }
  -- `ASSERT(conditionLock->isHeldByCurrentThread())`
  if (s.lock l).threadHoldLock = some s.currentThread then
    (s.setCond c (s.cond c ++ [s.currentThread])).goto (.waitRelease c l oldLevel)
  else s.goto .assertFailed

/-- `Remove` and, unless it returns `NULL`, `ReadyToRun`. -/
def wake (s : State Tid Lid Cid) (c : Cid) : State Tid Lid Cid :=
  match s.cond c with
  | [] => s
  | thread :: rest => (s.setCond c rest).readyToRun thread

def signal (s : State Tid Lid Cid) (c : Cid) : State Tid Lid Cid :=
  ({ s with level := .off }.wake c).setLevel s.level .outside

/-- The loop of `Broadcast`, for at most `rounds` threads. -/
def wakeAll (s : State Tid Lid Cid) (c : Cid) : ℕ → Option (State Tid Lid Cid)
  | 0 => if s.cond c = [] then some s else none
  | rounds + 1 => if s.cond c = [] then some s else (s.wake c).wakeAll c rounds

def broadcast (s : State Tid Lid Cid) (c : Cid) (rounds : ℕ) : Option (State Tid Lid Cid) := do
  let s' ← { s with level := .off }.wakeAll c rounds
  some (s'.setLevel s.level .outside)

def fork (s : State Tid Lid Cid) (t : Tid) : State Tid Lid Cid :=
  ({ s with level := .off, pc := Function.update s.pc t .root }.readyToRun t).setLevel s.level
    .outside

/-- `none` where a loop needs more rounds, or a thread is forked twice. -/
def call (s : State Tid Lid Cid) : Call Tid Lid Cid → Option (State Tid Lid Cid)
  | .setLevel now => some (s.setLevel now .outside)
  | .fork t => if s.pc t = .created then some (s.fork t) else none
  | .yield => some (s.yield .outside)
  | .acquire l => some (s.acquire l .outside)
  | .release l => some (s.release l .outside)
  | .wait c l => some (s.wait c l)
  | .signal c _ => some (s.signal c)
  | .broadcast c _ rounds => s.broadcast c rounds

/-- The next statements of the current thread, after its own code. -/
def next (s : State Tid Lid Cid) (yieldOnReturn : Bool) : Pc Lid Cid → Option (State Tid Lid Cid)
  | .root => some (s.setLevel .on .outside)
  | .oneTick k =>
    let s := { s with level := .on }
    some (if yieldOnReturn then s.yield k else s.goto k)
  | .sleep k =>
    match s.readyList with
    -- `interrupt->Idle()`
    | [] => some s
    | nextThread :: rest => some ({ s with readyList := rest }.run nextThread k)
  | .yielded oldLevel k => some (s.setLevel oldLevel k)
  | .acquired l oldLevel k =>
    some ((s.setLock l ((s.lock l).take s.currentThread)).setLevel oldLevel k)
  | .waitRelease c l oldLevel => some (s.release l (.waitSleep c l oldLevel))
  | .waitSleep c l oldLevel => some (s.sleep (.waitAcquire c l oldLevel))
  | .waitAcquire _ l oldLevel => some (s.acquire l (.waitEnd oldLevel))
  | .waitEnd oldLevel => some (s.setLevel oldLevel .outside)
  | .created | .outside | .assertFailed => none

def step (s : State Tid Lid Cid) : Event Tid Lid Cid → Option (State Tid Lid Cid)
  | .call x => if s.pc s.currentThread = .outside then s.call x else none
  | .step yieldOnReturn => s.next yieldOnReturn (s.pc s.currentThread)

end State

/-- Only the main thread is there, and it runs; `state` and the holders of the locks are as the
memory was. -/
structure Start (mainThread : Tid) (s : State Tid Lid Cid) : Prop where
  readyList : s.readyList = []
  lock : ∀ l, (s.lock l).queue = []
  cond : ∀ c, s.cond c = []
  currentThread : s.currentThread = mainThread
  level : s.level = .on
  pc : s.pc = Function.update (fun _ => .created) mainThread .outside

def machine (mainThread : Tid) : Machine (State Tid Lid Cid) (Event Tid Lid Cid) where
  init := Start mainThread
  step := State.step

end Coursework.Nachos.SleepCondition
