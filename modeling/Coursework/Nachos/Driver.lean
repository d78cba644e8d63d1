import Coursework.Lib.History
import Coursework.Nachos.Monitor

/-!
# A device behind a lock and a semaphore

`SynchDisk` and the post office use a device in the same way: acquire a lock, make the request,
wait in `P` until the interrupt handler has called `V`, release the lock. The device schedules
one interrupt for each request, and it may come at any time after that.
-/
namespace Coursework.Nachos
open Finset

/-- What a device does at a request, with the result and with `none` for a failed assertion, and
in the interrupt handler before the `V`. The type `E` is for what is left to chance. -/
structure Device (D Q E R : Type) where
  request : D → Q → E → Option (D × R)
  finish : D → D

namespace Driver

/-- The statement that a thread runs next. Requests are numbered as they are made. -/
inductive Pc (Q R : Type) where
  /-- With the last call and its result. -/
  | outside (last : Option (ℕ × Q × R))
  /-- In the loop of the `P` of `lock->Acquire()`. -/
  | acquireP (q : Q)
  | acquireSet (q : Q)
  | request (q : Q)
  /-- In the loop of `P` on the semaphore of the handler. -/
  | waitP (n : ℕ) (q : Q) (r : R)
  | release (n : ℕ) (q : Q) (r : R)
  | releaseV (n : ℕ) (q : Q) (r : R)
  /-- An assertion of the device has failed. -/
  | assertFailed

structure State (Tid D Q R : Type) where
  lock : Lock Tid
  done : Semaphore Tid
  device : D
  /-- The numbers of the requests whose interrupt is scheduled. -/
  scheduled : List ℕ
  issued : ℕ
  pc : Tid → Pc Q R

inductive Event (Tid Q E : Type) where
  | call (t : Tid) (q : Q)
  | step (t : Tid) (env : E)
  | interrupt (n : ℕ)

/-- What is seen of a run. -/
inductive Seen (Tid Q R : Type) where
  | requested (t : Tid) (n : ℕ) (q : Q) (r : R)
  /-- The interrupt handler for request `n` has run. -/
  | done (n : ℕ)
  /-- The caller of request `n` comes out of `P`. -/
  | passed (t : Tid) (n : ℕ)
  | returned (t : Tid) (n : ℕ) (q : Q) (r : R)

variable {Tid D Q E R : Type} [DecidableEq Tid]

namespace State

def goto (s : State Tid D Q R) (t : Tid) (pc : Pc Q R) : State Tid D Q R :=
  { s with pc := Function.update s.pc t pc }

def step (dev : Device D Q E R) (s : State Tid D Q R) : Event Tid Q E → Option (State Tid D Q R)
  | .call t q =>
    match s.pc t with
    | .outside _ => some (s.goto t (.acquireP q))
    | _ => none
  | .step t env =>
    match s.pc t with
    | .outside _ | .assertFailed => none
    | .acquireP q =>
      if t ∈ s.lock.sema.queue then none
      else
        let (S, passed) := s.lock.sema.P t
        some ({ s with lock := { s.lock with sema := S } }.goto t
          (if passed then .acquireSet q else .acquireP q))
    | .acquireSet q =>
      some ({ s with lock := { s.lock with threadHoldLock := some t } }.goto t (.request q))
    | .request q =>
      match dev.request s.device q env with
      | none => some (s.goto t .assertFailed)
      | some (d, r) =>
        some ({ s with
          device := d
          scheduled := s.scheduled ++ [s.issued]
          issued := s.issued + 1 }.goto t (.waitP s.issued q r))
    | .waitP n q r =>
      if t ∈ s.done.queue then none
      else
        let (S, passed) := s.done.P t
        some ({ s with done := S }.goto t (if passed then .release n q r else .waitP n q r))
    | .release n q r =>
      some ({ s with lock := { s.lock with threadHoldLock := none } }.goto t (.releaseV n q r))
    | .releaseV n q r =>
      some ({ s with lock := { s.lock with sema := s.lock.sema.V } }.goto t
        (.outside (some (n, q, r))))
  | .interrupt n =>
    if n ∈ s.scheduled then
      some { s with
        scheduled := s.scheduled.erase n
        device := dev.finish s.device
        done := s.done.V }
    else none

def seen (dev : Device D Q E R) (s : State Tid D Q R) : Event Tid Q E → List (Seen Tid Q R)
  | .call _ _ => []
  | .step t env =>
    match s.pc t with
    | .request q =>
      match dev.request s.device q env with
      | none => []
      | some (_, r) => [.requested t s.issued q r]
    | .waitP n _ _ => if s.done.value = 0 then [] else [.passed t n]
    | .releaseV n q r => [.returned t n q r]
    | _ => []
  | .interrupt n => [.done n]

/-- What one step does and what is seen of it, one case for each statement and outcome. -/
inductive Steps (dev : Device D Q E R) (s : State Tid D Q R) :
    Event Tid Q E → List (Seen Tid Q R) → State Tid D Q R → Prop where
  | call {t q last} (hpc : s.pc t = .outside last) :
      Steps dev s (.call t q) [] (s.goto t (.acquireP q))
  | acquireSleep {t env q} (hpc : s.pc t = .acquireP q) (hv : s.lock.sema.value = 0) :
      Steps dev s (.step t env) [] ({ s with lock := { s.lock with
        sema := { s.lock.sema with queue := s.lock.sema.queue ++ [t] } } }.goto t (.acquireP q))
  | acquirePass {t env q} (hpc : s.pc t = .acquireP q) (hv : s.lock.sema.value ≠ 0) :
      Steps dev s (.step t env) [] ({ s with lock := { s.lock with
        sema := { s.lock.sema with value := s.lock.sema.value - 1 } } }.goto t (.acquireSet q))
  | acquireSet {t env q} (hpc : s.pc t = .acquireSet q) :
      Steps dev s (.step t env) []
        ({ s with lock := { s.lock with threadHoldLock := some t } }.goto t (.request q))
  | requestFail {t env q} (hpc : s.pc t = .request q) (hreq : dev.request s.device q env = none) :
      Steps dev s (.step t env) [] (s.goto t .assertFailed)
  | request {t env q d r} (hpc : s.pc t = .request q)
      (hreq : dev.request s.device q env = some (d, r)) :
      Steps dev s (.step t env) [.requested t s.issued q r] ({ s with
        device := d
        scheduled := s.scheduled ++ [s.issued]
        issued := s.issued + 1 }.goto t (.waitP s.issued q r))
  | waitSleep {t env n q r} (hpc : s.pc t = .waitP n q r) (hv : s.done.value = 0) :
      Steps dev s (.step t env) [] ({ s with
        done := { s.done with queue := s.done.queue ++ [t] } }.goto t (.waitP n q r))
  | waitPass {t env n q r} (hpc : s.pc t = .waitP n q r) (hv : s.done.value ≠ 0) :
      Steps dev s (.step t env) [.passed t n] ({ s with
        done := { s.done with value := s.done.value - 1 } }.goto t (.release n q r))
  | release {t env n q r} (hpc : s.pc t = .release n q r) :
      Steps dev s (.step t env) []
        ({ s with lock := { s.lock with threadHoldLock := none } }.goto t (.releaseV n q r))
  | releaseV {t env n q r} (hpc : s.pc t = .releaseV n q r) :
      Steps dev s (.step t env) [.returned t n q r]
        ({ s with lock := { s.lock with sema := s.lock.sema.V } }.goto t
          (.outside (some (n, q, r))))
  | interrupt {n} (hn : n ∈ s.scheduled) :
      Steps dev s (.interrupt n) [.done n] { s with
        scheduled := s.scheduled.erase n
        device := dev.finish s.device
        done := s.done.V }

theorem steps_of_step {dev : Device D Q E R} {s s' : State Tid D Q R} {e : Event Tid Q E}
    (h : s.step dev e = some s') : Steps dev s e (s.seen dev e) s' := by
  cases e with
  | call t q =>
    rw [step] at h
    split at h
    case h_1 last hpc =>
      cases h
      exact .call hpc
    case h_2 => cases h
  | interrupt n =>
    obtain ⟨hn, h⟩ := Option.ite_none_right_eq_some.mp h
    cases h
    exact .interrupt hn
  | step t env =>
    cases hpc : s.pc t with
    | outside last | assertFailed => simp [step, hpc] at h
    | acquireP q =>
      simp only [step, hpc, Option.ite_none_left_eq_some] at h
      rw [seen, hpc]
      by_cases hv : s.lock.sema.value = 0
      · simp only [Semaphore.P, hv, if_true, Bool.false_eq_true, if_false] at h
        cases h.2
        exact hv ▸ .acquireSleep hpc hv
      · simp only [Semaphore.P, hv, if_true, if_false] at h
        cases h.2
        exact .acquirePass hpc hv
    | acquireSet q =>
      simp only [step, hpc, Option.some.injEq] at h
      subst h
      rw [seen, hpc]
      exact .acquireSet hpc
    | request q =>
      rw [seen, hpc]
      cases hreq : dev.request s.device q env with
      | none =>
        simp only [step, hpc, hreq, Option.some.injEq] at h
        subst h
        simp only [hreq]
        exact .requestFail hpc hreq
      | some p =>
        simp only [step, hpc, hreq, Option.some.injEq] at h
        subst h
        simp only [hreq]
        exact .request hpc hreq
    | waitP n q r =>
      simp only [step, hpc, Option.ite_none_left_eq_some] at h
      rw [seen, hpc]
      by_cases hv : s.done.value = 0
      · simp only [Semaphore.P, hv, if_true, Bool.false_eq_true, if_false] at h
        cases h.2
        simp only [hv, if_true]
        exact hv ▸ .waitSleep hpc hv
      · simp only [Semaphore.P, hv, if_true, if_false] at h
        cases h.2
        simp only [hv, if_false]
        exact .waitPass hpc hv
    | release n q r =>
      simp only [step, hpc, Option.some.injEq] at h
      subst h
      rw [seen, hpc]
      exact .release hpc
    | releaseV n q r =>
      simp only [step, hpc, Option.some.injEq] at h
      subst h
      rw [seen, hpc]
      exact .releaseV hpc

end State

/-- Nobody has called, and the device is new. -/
structure Start (d0 : D → Prop) (s : State Tid D Q R) : Prop where
  lock : s.lock.sema = ⟨1, []⟩
  done : s.done = ⟨0, []⟩
  device : d0 s.device
  scheduled : s.scheduled = []
  pc : ∀ t, s.pc t = .outside none

def machine (dev : Device D Q E R) (d0 : D → Prop) :
    Machine (State Tid D Q R) (Event Tid Q E) where
  init := Start d0
  step := State.step dev

end Driver
end Coursework.Nachos
