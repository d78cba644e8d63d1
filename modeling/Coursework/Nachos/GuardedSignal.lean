import Coursework.Lib.CInt
import Coursework.Nachos.Monitor

/-!
# The guarded `Signal` of `synch-sem.cc`

A condition here is a semaphore and a counter, like the one of `synch.cc`, but `Signal` calls `V`
only if `blockNum` is positive. `Wait` counts a thread in `blockNum` after its `P`, which returns
only after a `V`, so the counter never becomes positive and nobody is ever woken.
-/
namespace Coursework.Nachos.GuardedSignal

inductive Call where
  | acquire
  | release
  | wait
  | signal
  deriving DecidableEq

/-- The statement that a thread runs next. -/
inductive Pc where
  /-- In code of its own. -/
  | outside
  /-- `Acquire`, also at the end of `Wait`: in the loop of `Sema->P()`. -/
  | acquireP
  /-- `Acquire`: `threadHoldLock = currentThread`. -/
  | acquireSet
  /-- `Release`: `Sema->V()`. -/
  | releaseV
  /-- The same in `Wait`. -/
  | waitV
  /-- `Wait`: in the loop of `Sema->P()`, asleep if in the queue. -/
  | waitP
  /-- `Wait`: `blockNum++`. -/
  | waitInc
  /-- `Signal`: the test of `blockNum` with the `V` that it guards; `V` turns interrupts off at once,
  so there is no switch in between. -/
  | signalTest
  /-- `Signal`: `blockNum--`. -/
  | signalDec
  deriving DecidableEq

def Pc.inWait : Pc → Bool
  | .waitP => true
  | _ => false

structure State (Tid : Type) where
  lock : Lock Tid
  cond : Condition Tid
  pc : Tid → Pc

/-- The call is the one that the thread makes if it is in code of its own. -/
structure Event (Tid : Type) where
  tid : Tid
  call : Call

variable {Tid : Type} [DecidableEq Tid]

namespace State

def goto (s : State Tid) (t : Tid) (pc : Pc) : State Tid :=
  { s with pc := Function.update s.pc t pc }

/-- `Release` up to its `V`. -/
def release (s : State Tid) (t : Tid) (pc : Pc) : State Tid :=
  { s with lock := { s.lock with threadHoldLock := none } }.goto t pc

def call (s : State Tid) (t : Tid) : Call → State Tid
  | .acquire => s.goto t .acquireP
  | .release => s.release t .releaseV
  | .wait => s.release t .waitV
  | .signal => s.goto t .signalTest

def withSema (s : State Tid) (S : Semaphore Tid) : State Tid :=
  { s with cond := { s.cond with sema := S } }

def withBlockNum (s : State Tid) (n : ℤ) : State Tid :=
  { s with cond := { s.cond with blockNum := n } }

/-- One step of the thread named by the event; `none` if it is asleep, or at an overflow. -/
def step (s : State Tid) (e : Event Tid) : Option (State Tid) :=
  match s.pc e.tid with
  | .outside => some (s.call e.tid e.call)
  | .acquireP =>
    if e.tid ∈ s.lock.sema.queue then none
    else
      let (S, passed) := s.lock.sema.P e.tid
      some ({ s with lock := { s.lock with sema := S } }.goto e.tid
        (if passed then .acquireSet else .acquireP))
  | .acquireSet =>
    some ({ s with lock := { s.lock with threadHoldLock := some e.tid } }.goto e.tid .outside)
  | .releaseV => some ({ s with lock := { s.lock with sema := s.lock.sema.V } }.goto e.tid .outside)
  | .waitV => some ({ s with lock := { s.lock with sema := s.lock.sema.V } }.goto e.tid .waitP)
  | .waitP =>
    if e.tid ∈ s.cond.sema.queue then none
    else
      let (S, passed) := s.cond.sema.P e.tid
      some ((s.withSema S).goto e.tid (if passed then .waitInc else .waitP))
  | .waitInc => (int (s.cond.blockNum + 1)).map fun n => (s.withBlockNum n).goto e.tid .acquireP
  | .signalTest =>
    some ((if 0 < s.cond.blockNum then s.withSema s.cond.sema.V else s).goto e.tid .signalDec)
  | .signalDec => (int (s.cond.blockNum - 1)).map fun n => (s.withBlockNum n).goto e.tid .outside

/-- `Wait` and `Signal` are called with the lock held. -/
def UsesHeld (s : State Tid) (e : Event Tid) : Prop :=
  s.pc e.tid = .outside → e.call = .wait ∨ e.call = .signal →
    s.lock.isHeldByCurrentThread e.tid = true

instance (s : State Tid) (e : Event Tid) : Decidable (s.UsesHeld e) :=
  inferInstanceAs (Decidable (_ → _ → _))

end State

/-- The lock and the condition are new, and the holder is as the memory was. -/
def start (holder : Option Tid) : State Tid := ⟨.new holder, .new, fun _ => .outside⟩

def machine : Machine (State Tid) (Event Tid) where
  init s := ∃ holder, s = start holder
  step := State.step

/-! ### Nobody is woken -/

variable {s s' : State Tid} {e : Event Tid} {es : List (Event Tid)} {n : ℤ} {t : Tid} {pc : Pc}

/-- Nobody has a unit, so nobody comes to `blockNum++`. -/
structure Inv (s : State Tid) : Prop where
  value : s.cond.sema.value = 0
  blockNum : s.cond.blockNum ≤ 0
  waitInc : ∀ t, s.pc t ≠ .waitInc

theorem Inv.goto (hi : Inv s) (hpc : pc ≠ .waitInc) : Inv (s.goto t pc) := by
  refine ⟨hi.value, hi.blockNum, fun u => ?_⟩
  by_cases hut : u = t
  · subst hut
    exact (Function.update_self ..).trans_ne hpc
  · exact (Function.update_of_ne hut _ _).trans_ne (hi.waitInc u)

omit [DecidableEq Tid] in
theorem Inv.withLock (hi : Inv s) (l : Lock Tid) : Inv { s with lock := l } :=
  ⟨hi.value, hi.blockNum, hi.waitInc⟩

omit [DecidableEq Tid] in
theorem Inv.withBlockNum (hi : Inv s) (hn : n ≤ 0) : Inv (s.withBlockNum n) :=
  ⟨hi.value, hn, hi.waitInc⟩

theorem Inv.step (hi : Inv s) (hs : s.step e = some s') : Inv s' := by
  rw [State.step] at hs
  cases hpc : s.pc e.tid with
  | outside =>
    rw [hpc] at hs
    cases hs
    cases e.call with
    | acquire | signal => exact hi.goto (by decide)
    | release | wait => exact (hi.withLock _).goto (by decide)
  | acquireP =>
    rw [hpc] at hs
    obtain ⟨-, heq⟩ := Option.ite_none_left_eq_some.mp hs
    cases heq
    refine (hi.withLock _).goto ?_
    split_ifs <;> decide
  | acquireSet | releaseV | waitV =>
    rw [hpc] at hs
    cases hs
    exact (hi.withLock _).goto (by decide)
  | waitP =>
    rw [hpc] at hs
    obtain ⟨-, heq⟩ := Option.ite_none_left_eq_some.mp hs
    -- the value is zero: the thread goes to sleep
    rw [Semaphore.P, if_pos hi.value] at heq
    cases heq
    exact Inv.goto ⟨hi.value, hi.blockNum, hi.waitInc⟩ (by decide)
  | waitInc => exact absurd hpc (hi.waitInc e.tid)
  | signalTest =>
    rw [hpc] at hs
    cases hs
    rw [if_neg (by have := hi.blockNum; omega)]
    exact hi.goto (by decide)
  | signalDec =>
    rw [hpc] at hs
    obtain ⟨n, hn, heq⟩ := Option.map_eq_some_iff.mp hs
    cases heq
    have hle := hi.blockNum
    rw [eq_of_int hn]
    exact (hi.withBlockNum (by omega)).goto (by decide)

omit [DecidableEq Tid] in
theorem inv_start (holder : Option Tid) : Inv (start holder) :=
  ⟨rfl, le_rfl, fun _ => nofun⟩

/-! ### What the comments promise -/

variable [Fintype Tid]

namespace State

/-- Some thread has released the lock in `Wait` and no unit of the semaphore is meant for it. -/
def SomeoneWaits (s : State Tid) : Prop := s.cond.sema.value < (having Pc.inWait s.pc).card

instance (s : State Tid) : Decidable s.SomeoneWaits := inferInstanceAs (Decidable (_ < _))

/-- A `Signal` that is issued while some thread waits adds a unit for it. -/
def Grants (s : State Tid) (e : Event Tid) : Prop :=
  s.pc e.tid = .signalTest → s.SomeoneWaits →
    ∀ s' ∈ s.step e, s'.cond.sema.value = s.cond.sema.value + 1

instance (s : State Tid) (e : Event Tid) : Decidable (s.Grants e) :=
  inferInstanceAs (Decidable (_ → _ → _))

/-- No `Signal` is issued while some thread waits. -/
def SignalsNobody (s : State Tid) (e : Event Tid) : Prop :=
  s.pc e.tid = .signalTest → ¬ s.SomeoneWaits

end State

/-- Where `blockNum` is not positive, no unit is added. -/
theorem Inv.not_grants (hi : Inv s) (hpc : s.pc e.tid = .signalTest) (hw : s.SomeoneWaits) :
    ¬ s.Grants e := by
  intro hg
  have hle := hi.blockNum
  have hs : s.step e = some (s.goto e.tid .signalDec) := by
    simp only [State.step, hpc]
    rw [if_neg (by omega)]
  have hvalue := hg hpc hw (s.goto e.tid .signalDec) (Option.mem_def.mpr hs)
  have hsame : (s.goto e.tid .signalDec).cond.sema.value = s.cond.sema.value := rfl
  omega

/-- Along every run all `Signal`s grant a wakeup, where some thread waits, exactly if none is issued
while some thread waits; and `blockNum` is positive whenever some thread waits exactly if none ever
does. -/
theorem guarded_signal_grants_iff (holder : Option Tid) (es : List (Event Tid)) :
    (machine.Meets State.Grants (start holder) es ↔
      machine.Meets State.SignalsNobody (start holder) es) ∧
    (machine.Visits (fun s => s.SomeoneWaits → 0 < s.cond.blockNum) (start holder) es ↔
      machine.Visits (fun s => ¬ s.SomeoneWaits) (start holder) es) := by
  have h0 := inv_start holder
  refine ⟨⟨fun hm => ?_, fun hm => ?_⟩, fun hv => ?_, fun hv => ?_⟩
  · refine hm.imp (I := Inv) (fun s e s' hi hg hs => ⟨fun hpc hw => ?_, hi.step hs⟩) h0
    exact hi.not_grants hpc hw hg
  · refine hm.imp (I := Inv) (fun s e s' hi hno hs => ⟨fun hpc hw => ?_, hi.step hs⟩) h0
    exact absurd hw (hno hpc)
  · refine hv.imp (I := Inv) (fun s hi hpos hw => ?_) (fun s e s' hi hs => hi.step hs) h0
    exact absurd (hpos hw) (not_lt.mpr hi.blockNum)
  · exact hv.imp (I := Inv) (fun s hi hno hw => absurd hw hno) (fun s e s' hi hs => hi.step hs) h0

/-- Thread 1 waits; then thread 0 calls `Signal` with the lock held. -/
def lostSignal : List (Event (Fin 2)) :=
  [⟨t1, .acquire⟩, ⟨t1, .acquire⟩, ⟨t1, .acquire⟩, ⟨t1, .wait⟩, ⟨t1, .wait⟩, ⟨t1, .wait⟩,
    ⟨t0, .acquire⟩, ⟨t0, .acquire⟩, ⟨t0, .acquire⟩, ⟨t0, .signal⟩, ⟨t0, .signal⟩, ⟨t0, .signal⟩]

theorem guarded_signal_lost :
    machine.Meets State.UsesHeld (start none) lostSignal ∧
      ¬ machine.Meets State.Grants (start none) lostSignal ∧
      ¬ machine.Visits (fun s => s.SomeoneWaits → 0 < s.cond.blockNum) (start none) lostSignal ∧
      ∃ s, machine.run (start none) lostSignal = some s ∧ s.cond.sema = ⟨0, [t1]⟩ ∧
        s.cond.blockNum = -1 := by
  refine ⟨by decide, by decide, fun hv => ?_, _, rfl, rfl, rfl⟩
  have hpos := hv.last (show machine.run (start none) lostSignal = some _ from rfl)
  exact absurd (hpos (by decide)) (by decide)

end Coursework.Nachos.GuardedSignal
