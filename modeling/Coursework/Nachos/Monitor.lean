import Coursework.Nachos.Semaphore

/-!
# Locks and condition variables of `synch.cc`, and the threads that use them

Client code is given by what it does between two calls into the kernel: at a
location, on the shared data and under an input, it runs to its next call. Inside
a call each thread has a program counter with one value for each statement of
`synch.cc` that another thread may run before. The scheduler may switch at every
one of them, which includes all the places where Nachos does switch: the sleep in
`P` and the ends of `P`, `V` and `Yield`.
-/
namespace Coursework.Nachos
open Finset

/-- `class Lock`. The constructor leaves `threadHoldLock` as the memory was. -/
structure Lock (Tid : Type) where
  sema : Semaphore Tid
  threadHoldLock : Option Tid
  deriving DecidableEq

def Lock.new {Tid : Type} (garbage : Option Tid) : Lock Tid := ⟨⟨1, []⟩, garbage⟩

def Lock.isHeldByCurrentThread {Tid : Type} [DecidableEq Tid] (l : Lock Tid)
    (currentThread : Tid) : Bool :=
  some currentThread = l.threadHoldLock

/-- `class Condition`; `blockNum` is an `int`, taken as unbounded. -/
structure Condition (Tid : Type) where
  sema : Semaphore Tid
  blockNum : ℤ
  deriving DecidableEq

def Condition.new {Tid : Type} : Condition Tid := ⟨⟨0, []⟩, 0⟩

namespace Monitor

/-- The calls of a client; `pause` is a place where it only lets others run. -/
inductive Call (C : Type) where
  | acquire
  | release
  | wait (c : C)
  | signal (c : C)
  | broadcast (c : C)
  | pause
  deriving DecidableEq

/-- Client code: the next call, the location after it, and the data at the call. -/
abbrev Code (C K D I : Type) := K → D → I → Option (Call C × K × D)

/-- What follows `Lock::Release`: its caller, or the `P` of `Condition::Wait`. -/
inductive After (C K : Type) where
  | client (k : K)
  | waitP (c : C) (k : K)
  deriving DecidableEq

/-- The statement a thread runs next. -/
inductive Pc (C K : Type) where
  | client (k : K)
  /-- `Acquire`: in the loop of `Sema->P()`, asleep if in the queue. -/
  | acquireP (k : K)
  /-- `Acquire`: `threadHoldLock = currentThread`. -/
  | acquireSet (k : K)
  /-- `Release`: `Sema->V()`; `threadHoldLock` is `NULL` already. -/
  | releaseV (a : After C K)
  /-- `Wait`: in the loop of `Sema->P()`, asleep if in the queue. -/
  | waitP (c : C) (k : K)
  /-- `Wait`: `blockNum++`. -/
  | waitInc (c : C) (k : K)
  | signalV (c : C) (k : K)
  | signalDec (c : C) (k : K)
  /-- `Broadcast`: `while(blockNum)`. -/
  | bcastTest (c : C) (k : K)
  | bcastV (c : C) (k : K)
  | bcastDec (c : C) (k : K)
  deriving DecidableEq

def After.pc {C K : Type} : After C K → Pc C K
  | .client k => .client k
  | .waitP c k => .waitP c k

/-- `owns` is true from the return of `Acquire` or `Wait` to the next `Release` or `Wait`. -/
structure Thread (C K : Type) where
  pc : Pc C K
  owns : Bool
  deriving DecidableEq

structure State (Tid C K D : Type) where
  lock : Lock Tid
  cond : C → Condition Tid
  data : D
  thread : Tid → Thread C K

structure Event (Tid I : Type) where
  tid : Tid
  input : I

variable {Tid C K D I : Type} [DecidableEq Tid] [DecidableEq C]

namespace State

def goto (s : State Tid C K D) (t : Tid) (pc : Pc C K) : State Tid C K D :=
  { s with thread := Function.update s.thread t ⟨pc, (s.thread t).owns⟩ }

def setSema (s : State Tid C K D) (S : Semaphore Tid) : State Tid C K D :=
  { s with lock := { s.lock with sema := S } }

def setCond (s : State Tid C K D) (c : C) (x : Condition Tid) : State Tid C K D :=
  { s with cond := Function.update s.cond c x }

/-- `Release` up to its `V`. -/
def release (s : State Tid C K D) (t : Tid) (a : After C K) : State Tid C K D :=
  { s with
    lock := { s.lock with threadHoldLock := none }
    thread := Function.update s.thread t ⟨.releaseV a, false⟩ }

/-- `Acquire` after its `P`. -/
def hold (s : State Tid C K D) (t : Tid) (k : K) : State Tid C K D :=
  { s with
    lock := { s.lock with threadHoldLock := some t }
    thread := Function.update s.thread t ⟨.client k, true⟩ }

def call (s : State Tid C K D) (t : Tid) (k : K) : Call C → State Tid C K D
  | .acquire => s.goto t (.acquireP k)
  | .release => s.release t (.client k)
  | .wait c => s.release t (.waitP c k)
  | .signal c => s.goto t (.signalV c k)
  | .broadcast c => s.goto t (.bcastTest c k)
  | .pause => s.goto t (.client k)

/-- One step of the thread named by the event. -/
def step (code : Code C K D I) (s : State Tid C K D) (e : Event Tid I) :
    Option (State Tid C K D) :=
  match (s.thread e.tid).pc with
  | .client k =>
    (code k s.data e.input).map fun (c, k', d) => { s with data := d }.call e.tid k' c
  | .acquireP k =>
    if e.tid ∈ s.lock.sema.queue then none
    else
      let (S, passed) := s.lock.sema.P e.tid
      some ((s.setSema S).goto e.tid (if passed then .acquireSet k else .acquireP k))
  | .acquireSet k => some (s.hold e.tid k)
  | .releaseV a => some ((s.setSema s.lock.sema.V).goto e.tid a.pc)
  | .waitP c k =>
    if e.tid ∈ (s.cond c).sema.queue then none
    else
      let (S, passed) := (s.cond c).sema.P e.tid
      some ((s.setCond c { s.cond c with sema := S }).goto e.tid
        (if passed then .waitInc c k else .waitP c k))
  | .waitInc c k =>
    some ((s.setCond c { s.cond c with blockNum := (s.cond c).blockNum + 1 }).goto e.tid
      (.acquireP k))
  | .signalV c k =>
    some ((s.setCond c { s.cond c with sema := (s.cond c).sema.V }).goto e.tid (.signalDec c k))
  | .signalDec c k =>
    some ((s.setCond c { s.cond c with blockNum := (s.cond c).blockNum - 1 }).goto e.tid
      (.client k))
  | .bcastTest c k =>
    some (s.goto e.tid (if (s.cond c).blockNum = 0 then .client k else .bcastV c k))
  | .bcastV c k =>
    some ((s.setCond c { s.cond c with sema := (s.cond c).sema.V }).goto e.tid (.bcastDec c k))
  | .bcastDec c k =>
    some ((s.setCond c { s.cond c with blockNum := (s.cond c).blockNum - 1 }).goto e.tid
      (.bcastTest c k))

/-- What one step of thread `t` can do, one case for each statement and outcome. -/
inductive Steps (code : Code C K D I) (s : State Tid C K D) (e : Event Tid I) :
    State Tid C K D → Prop where
  | client {k k' d c} (hpc : (s.thread e.tid).pc = .client k)
      (hcode : code k s.data e.input = some (c, k', d)) :
      Steps code s e ({ s with data := d }.call e.tid k' c)
  | acquireSleep {k} (hpc : (s.thread e.tid).pc = .acquireP k)
      (hq : e.tid ∉ s.lock.sema.queue) (hv : s.lock.sema.value = 0) :
      Steps code s e ((s.setSema
        { s.lock.sema with queue := s.lock.sema.queue ++ [e.tid] }).goto e.tid (.acquireP k))
  | acquirePass {k} (hpc : (s.thread e.tid).pc = .acquireP k)
      (hq : e.tid ∉ s.lock.sema.queue) (hv : s.lock.sema.value ≠ 0) :
      Steps code s e ((s.setSema
        { s.lock.sema with value := s.lock.sema.value - 1 }).goto e.tid (.acquireSet k))
  | acquireSet {k} (hpc : (s.thread e.tid).pc = .acquireSet k) :
      Steps code s e (s.hold e.tid k)
  | releaseV {a} (hpc : (s.thread e.tid).pc = .releaseV a) :
      Steps code s e ((s.setSema s.lock.sema.V).goto e.tid a.pc)
  | waitSleep {c k} (hpc : (s.thread e.tid).pc = .waitP c k)
      (hq : e.tid ∉ (s.cond c).sema.queue) (hv : (s.cond c).sema.value = 0) :
      Steps code s e ((s.setCond c { s.cond c with
        sema := { (s.cond c).sema with queue := (s.cond c).sema.queue ++ [e.tid] } }).goto
          e.tid (.waitP c k))
  | waitPass {c k} (hpc : (s.thread e.tid).pc = .waitP c k)
      (hq : e.tid ∉ (s.cond c).sema.queue) (hv : (s.cond c).sema.value ≠ 0) :
      Steps code s e ((s.setCond c { s.cond c with
        sema := { (s.cond c).sema with value := (s.cond c).sema.value - 1 } }).goto
          e.tid (.waitInc c k))
  | waitInc {c k} (hpc : (s.thread e.tid).pc = .waitInc c k) :
      Steps code s e ((s.setCond c
        { s.cond c with blockNum := (s.cond c).blockNum + 1 }).goto e.tid (.acquireP k))
  | signalV {c k} (hpc : (s.thread e.tid).pc = .signalV c k) :
      Steps code s e ((s.setCond c
        { s.cond c with sema := (s.cond c).sema.V }).goto e.tid (.signalDec c k))
  | signalDec {c k} (hpc : (s.thread e.tid).pc = .signalDec c k) :
      Steps code s e ((s.setCond c
        { s.cond c with blockNum := (s.cond c).blockNum - 1 }).goto e.tid (.client k))
  | bcastExit {c k} (hpc : (s.thread e.tid).pc = .bcastTest c k)
      (hb : (s.cond c).blockNum = 0) : Steps code s e (s.goto e.tid (.client k))
  | bcastLoop {c k} (hpc : (s.thread e.tid).pc = .bcastTest c k)
      (hb : (s.cond c).blockNum ≠ 0) : Steps code s e (s.goto e.tid (.bcastV c k))
  | bcastV {c k} (hpc : (s.thread e.tid).pc = .bcastV c k) :
      Steps code s e ((s.setCond c
        { s.cond c with sema := (s.cond c).sema.V }).goto e.tid (.bcastDec c k))
  | bcastDec {c k} (hpc : (s.thread e.tid).pc = .bcastDec c k) :
      Steps code s e ((s.setCond c
        { s.cond c with blockNum := (s.cond c).blockNum - 1 }).goto e.tid (.bcastTest c k))

theorem steps_of_step {code : Code C K D I} {s s' : State Tid C K D} {e : Event Tid I}
    (h : s.step code e = some s') : Steps code s e s' := by
  unfold step at h
  split at h
  case h_1 k hpc =>
    obtain ⟨⟨c, k', d⟩, hcode, rfl⟩ := Option.map_eq_some_iff.mp h
    exact .client hpc hcode
  case h_2 k hpc =>
    obtain ⟨hq, h⟩ := Option.ite_none_left_eq_some.mp h
    by_cases hv : s.lock.sema.value = 0
    · simp only [Semaphore.P, hv, if_true, Bool.false_eq_true, if_false] at h
      cases h
      exact hv ▸ .acquireSleep hpc hq hv
    · simp only [Semaphore.P, hv, if_true, if_false] at h
      cases h
      exact .acquirePass hpc hq hv
  case h_3 k hpc =>
    cases h
    exact .acquireSet hpc
  case h_4 a hpc =>
    cases h
    exact .releaseV hpc
  case h_5 c k hpc =>
    obtain ⟨hq, h⟩ := Option.ite_none_left_eq_some.mp h
    by_cases hv : (s.cond c).sema.value = 0
    · simp only [Semaphore.P, hv, if_true, Bool.false_eq_true, if_false] at h
      cases h
      exact hv ▸ .waitSleep hpc hq hv
    · simp only [Semaphore.P, hv, if_true, if_false] at h
      cases h
      exact .waitPass hpc hq hv
  case h_6 c k hpc =>
    cases h
    exact .waitInc hpc
  case h_7 c k hpc =>
    cases h
    exact .signalV hpc
  case h_8 c k hpc =>
    cases h
    exact .signalDec hpc
  case h_9 c k hpc =>
    by_cases hb : (s.cond c).blockNum = 0
    · simp only [hb, if_true] at h
      cases h
      exact .bcastExit hpc hb
    · simp only [hb, if_false] at h
      cases h
      exact .bcastLoop hpc hb
  case h_10 c k hpc =>
    cases h
    exact .bcastV hpc
  case h_11 c k hpc =>
    cases h
    exact .bcastDec hpc

end State
end Monitor
end Coursework.Nachos
