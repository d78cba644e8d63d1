import Coursework.Lib.Machine
import Coursework.Lib.Threads
import Mathlib.Data.Fintype.Fin
import Mathlib.Data.Fintype.Basic

/-!
# The sleep-queue lock of `synch-sleep.cc`

`Acquire` and `Release` run with interrupts off; other threads run at the sleep
inside `Acquire` and where `SetLevel` turns interrupts back on. `Acquire` tests
`state` with an `if`: a thread that comes back from the sleep takes the lock
without testing again. The constructor does not set `state`.
-/
namespace Coursework.Nachos

/-- `class Lock` of `synch-sleep.h`. -/
structure SleepLock (Tid : Type) where
  state : Bool
  queue : List Tid
  threadHoldLock : Option Tid
  deriving DecidableEq

namespace SleepLock
variable {Tid : Type} [DecidableEq Tid]

/-- The constructor makes the queue; `state` and the holder are as the memory was. -/
def new (garbage : Bool) (holder : Option Tid) : SleepLock Tid := ⟨garbage, [], holder⟩

/-- The end of `Acquire`, also after the sleep. -/
def take (l : SleepLock Tid) (t : Tid) : SleepLock Tid :=
  { l with state := true, threadHoldLock := some t }

/-- `Acquire` to its sleep (`false`) or to its end. -/
def acquire (l : SleepLock Tid) (t : Tid) : SleepLock Tid × Bool :=
  if l.state = true then ({ l with queue := l.queue ++ [t] }, false) else (l.take t, true)

def release (l : SleepLock Tid) : SleepLock Tid := ⟨false, l.queue.tail, none⟩

/-- `owns` is true from the return of `Acquire` to the next `Release`. -/
structure Contender where
  /-- In the sleep of `Acquire`, or made ready by `Release` and not resumed yet. -/
  sleeping : Bool
  owns : Bool
  deriving DecidableEq

structure State (Tid : Type) where
  lock : SleepLock Tid
  thread : Tid → Contender

inductive Event (Tid : Type) where
  | acquire (t : Tid)
  /-- A thread that `Release` made ready returns from `Sleep`. -/
  | resume (t : Tid)
  | release (t : Tid)
  deriving DecidableEq

namespace State

def step (s : State Tid) : Event Tid → Option (State Tid)
  | .acquire t =>
    if (s.thread t).sleeping then none
    else
      let (l, got) := s.lock.acquire t
      some ⟨l, Function.update s.thread t
        (if got then ⟨false, true⟩ else ⟨true, (s.thread t).owns⟩)⟩
  | .resume t =>
    if (s.thread t).sleeping ∧ t ∉ s.lock.queue then
      some ⟨s.lock.take t, Function.update s.thread t ⟨false, true⟩⟩
    else none
  | .release t =>
    if (s.thread t).sleeping then none
    else some ⟨s.lock.release, Function.update s.thread t ⟨false, false⟩⟩

def start (garbage : Bool) (holder : Option Tid) : State Tid :=
  ⟨.new garbage holder, fun _ => ⟨false, false⟩⟩

def machine : Machine (State Tid) (Event Tid) where
  init s := ∃ garbage holder, s = start garbage holder
  step := step

/-- Threads release only what they hold. -/
def ReleasesHeld (s : State Tid) (e : Event Tid) : Prop :=
  ∀ t, e = .release t → (s.thread t).owns = true

/-- At most one thread is between its return from `Acquire` and its next `Release`. -/
def Exclusive (s : State Tid) : Prop :=
  ∀ t u, (s.thread t).owns = true → (s.thread u).owns = true → t = u

/-- An `Acquire` by `t` returns without blocking. -/
def Free (s : State Tid) (t : Tid) : Prop :=
  ∃ s', s.step (.acquire t) = some s' ∧ (s'.thread t).owns = true

/-- A thread that resumes inside `Acquire` finds `state` false. -/
def ResumesFree (s : State Tid) (e : Event Tid) : Prop :=
  ∀ t, e = .resume t → s.lock.state = false

instance [Fintype Tid] (s : State Tid) (e : Event Tid) : Decidable (s.ReleasesHeld e) :=
  inferInstanceAs (Decidable (∀ t, e = .release t → _))

instance [Fintype Tid] (s : State Tid) (e : Event Tid) : Decidable (s.ResumesFree e) :=
  inferInstanceAs (Decidable (∀ t, e = .resume t → _))

/-- What holds as long as the lock is exclusive. -/
structure Inv (s : State Tid) : Prop where
  exclusive : s.Exclusive
  busy : s.lock.state = true ↔ ∃ t, (s.thread t).owns = true
  asleep : ∀ t, (s.thread t).owns = true → (s.thread t).sleeping = true → t ∈ s.lock.queue
  queued : ∀ t ∈ s.lock.queue, (s.thread t).sleeping = true

variable {s s' : State Tid} {e : Event Tid} {t u : Tid}

/-- What one event does. -/
theorem step_cases (h : s.step e = some s') :
    (∃ t, e = .acquire t ∧ (s.thread t).sleeping = false ∧ s.lock.state = true ∧
      s' = ⟨{ s.lock with queue := s.lock.queue ++ [t] },
        Function.update s.thread t ⟨true, (s.thread t).owns⟩⟩) ∨
    (∃ t, e = .acquire t ∧ (s.thread t).sleeping = false ∧ s.lock.state = false ∧
      s' = ⟨s.lock.take t, Function.update s.thread t ⟨false, true⟩⟩) ∨
    (∃ t, e = .resume t ∧ (s.thread t).sleeping = true ∧ t ∉ s.lock.queue ∧
      s' = ⟨s.lock.take t, Function.update s.thread t ⟨false, true⟩⟩) ∨
    (∃ t, e = .release t ∧ (s.thread t).sleeping = false ∧
      s' = ⟨s.lock.release, Function.update s.thread t ⟨false, false⟩⟩) := by
  cases e with
  | acquire t =>
    simp only [step, Option.ite_none_left_eq_some, Bool.not_eq_true] at h
    rcases h with ⟨hsl, h⟩
    by_cases hb : s.lock.state = true
    · left
      exact ⟨t, rfl, hsl, hb, by simpa [SleepLock.acquire, hb] using h.symm⟩
    · right; left
      rw [Bool.not_eq_true] at hb
      exact ⟨t, rfl, hsl, hb, by simpa [SleepLock.acquire, hb] using h.symm⟩
  | resume t =>
    right; right; left
    simp only [step, Option.ite_none_right_eq_some, Option.some.injEq] at h
    exact ⟨t, rfl, h.1.1, h.1.2, h.2.symm⟩
  | release t =>
    right; right; right
    simp only [step, Option.ite_none_left_eq_some, Option.some.injEq, Bool.not_eq_true] at h
    exact ⟨t, rfl, h.1, h.2.symm⟩

omit [DecidableEq Tid] in
theorem Inv.not_owns (h : s.Inv) (hf : s.lock.state = false) (t : Tid) :
    (s.thread t).owns = false := by
  by_contra hne
  have hbusy := h.busy.mpr ⟨t, Bool.eq_true_of_not_eq_false hne⟩
  rw [hf] at hbusy
  cases hbusy

/-- A thread that takes a lock nobody owns is its only owner. -/
theorem Inv.take (h : s.Inv) (hf : s.lock.state = false) (hq : t ∉ s.lock.queue) :
    Inv ⟨s.lock.take t, Function.update s.thread t ⟨false, true⟩⟩ := by
  have howner (u : Tid) (hu : (Function.update s.thread t ⟨false, true⟩ u).owns = true) :
      u = t := by
    by_contra hne
    rw [Function.update_of_ne hne, h.not_owns hf u] at hu
    cases hu
  constructor
  · intro u v hu hv
    rw [howner u hu, howner v hv]
  · exact ⟨fun _ => ⟨t, by simp⟩, fun _ => rfl⟩
  · intro u hu hs
    rw [howner u hu] at hs
    simp at hs
  · intro u hu
    have hne : u ≠ t := fun he => hq (he ▸ hu)
    simpa [hne] using h.queued u hu

/-- A thread that finds the lock busy joins the queue; its own ownership, if any, stays. -/
theorem Inv.sleep (h : s.Inv) :
    Inv ⟨{ s.lock with queue := s.lock.queue ++ [t] },
      Function.update s.thread t ⟨true, (s.thread t).owns⟩⟩ := by
  have howns (u : Tid) :
      (Function.update s.thread t ⟨true, (s.thread t).owns⟩ u).owns = (s.thread u).owns := by
    by_cases hu : u = t
    · simp [hu]
    · simp [hu]
  constructor
  · intro u v hu hv
    rw [howns] at hu hv
    exact h.exclusive u v hu hv
  · simpa only [howns] using h.busy
  · intro u hu hs
    dsimp only at hu hs ⊢
    by_cases hne : u = t
    · simp [hne]
    · rw [howns] at hu
      rw [Function.update_of_ne hne] at hs
      exact List.mem_append_left [t] (h.asleep u hu hs)
  · intro u hu
    dsimp only at hu ⊢
    by_cases hne : u = t
    · simp [hne]
    · rw [Function.update_of_ne hne]
      exact h.queued u (by simpa [hne] using hu)

theorem Inv.release (h : s.Inv) (hown : (s.thread t).owns = true)
    (hsl : (s.thread t).sleeping = false) :
    Inv ⟨s.lock.release, Function.update s.thread t ⟨false, false⟩⟩ := by
  have hnone (u : Tid) : (Function.update s.thread t ⟨false, false⟩ u).owns = false := by
    by_cases hu : u = t
    · simp [hu]
    · rw [Function.update_of_ne hu]
      by_contra hne
      exact hu (h.exclusive u t (Bool.eq_true_of_not_eq_false hne) hown)
  constructor
  · intro u v hu
    rw [hnone u] at hu
    cases hu
  · simp [hnone, SleepLock.release]
  · intro u hu
    rw [hnone u] at hu
    cases hu
  · intro u hu
    have hmem := h.queued u (List.mem_of_mem_tail hu)
    have hne : u ≠ t := by
      rintro rfl
      rw [hsl] at hmem
      cases hmem
    simpa [hne] using hmem

theorem Inv.step (h : s.Inv) (hrel : s.ReleasesHeld e) (hfree : s.ResumesFree e)
    (hs : s.step e = some s') : s'.Inv := by
  obtain ⟨t, rfl, hsl, hb, rfl⟩ | ⟨t, rfl, hsl, hb, rfl⟩ | ⟨t, rfl, hsl, hq, rfl⟩ |
    ⟨t, rfl, hsl, rfl⟩ := step_cases hs
  · exact h.sleep
  · apply h.take hb
    intro hq
    rw [h.queued t hq] at hsl
    cases hsl
  · exact h.take (hfree t rfl) hq
  · exact h.release (hrel t rfl) hsl

/-- A thread that resumes while the lock is owned becomes a second owner. -/
theorem Inv.not_exclusive (h : s.Inv) (hfree : ¬ s.ResumesFree e) (hs : s.step e = some s') :
    ¬ s'.Exclusive := by
  have hres : ∃ t, e = .resume t ∧ s.lock.state = true := by
    by_contra hno
    exact hfree fun t ht => by
      by_contra hne
      exact hno ⟨t, ht, Bool.eq_true_of_not_eq_false hne⟩
  rcases hres with ⟨t, rfl, hbusy⟩
  simp only [State.step, Option.ite_none_right_eq_some, Option.some.injEq] at hs
  rcases hs with ⟨⟨hsl, hq⟩, rfl⟩
  obtain ⟨u, hu⟩ := h.busy.mp hbusy
  have hne : u ≠ t := by
    rintro rfl
    exact hq (h.asleep u hu hsl)
  intro hex
  exact hne (hex u t (by simpa [hne] using hu) (by simp))

/-- From a state where the lock is exclusive, it stays so exactly along the runs in
which every thread that resumes finds `state` false. -/
theorem Inv.visits_iff (h : s.Inv) {es : List (Event Tid)}
    (hrel : machine.Meets ReleasesHeld s es) :
    machine.Visits Exclusive s es ↔ machine.Meets ResumesFree s es := by
  apply Machine.visits_iff_meets (I := Inv) (fun _ hi => hi.exclusive) ?_ ?_ h hrel
  · exact fun s e s' hi hheld hfree hs => hi.step hheld hfree hs
  · exact fun s e s' hi hbusy hs => hi.not_exclusive hbusy hs

omit [DecidableEq Tid] in
theorem inv_start (holder : Option Tid) : Inv (start false holder) where
  exclusive t u ht := by simp [start] at ht
  busy := by simp [start, SleepLock.new]
  asleep t ht := by simp [start] at ht
  queued t ht := by simp [start, SleepLock.new] at ht

theorem free_start_iff (garbage : Bool) (holder : Option Tid) (t : Tid) :
    Free (start garbage holder) t ↔ garbage = false := by
  cases garbage with
  | false => exact ⟨fun _ => rfl, fun _ => ⟨_, rfl, by simp⟩⟩
  | true =>
    refine ⟨fun ⟨s', hs, hown⟩ => ?_, fun h => by cases h⟩
    cases hs
    simp [start, SleepLock.new] at hown

/-- A new lock is free and stays exclusive along a run if and only if its
uninitialised `state` happened to be false and no thread that `Release` made ready
resumes inside `Acquire` while `state` is true. -/
theorem sleep_lock_exclusive_iff (garbage : Bool) (holder : Option Tid) (t : Tid)
    {es : List (Event Tid)} (hrel : machine.Meets ReleasesHeld (start garbage holder) es) :
    Free (start garbage holder) t ∧ machine.Visits Exclusive (start garbage holder) es ↔
      garbage = false ∧ machine.Meets ResumesFree (start garbage holder) es := by
  rw [free_start_iff]
  apply and_congr_right
  intro hg
  subst hg
  exact (inv_start holder).visits_iff hrel

theorem sleep_lock_exclusive_iff_handover :
    machine.Visits Exclusive (start false none)
      [.acquire (0 : Fin 2), .acquire 1, .release 0, .resume 1] :=
  ((sleep_lock_exclusive_iff false none 0 (by decide)).mpr ⟨rfl, by decide⟩).2

/-- Thread 1 sleeps on the lock of thread 0; after the release thread 2 takes the lock
before thread 1 resumes. -/
def barge : List (Event (Fin 3)) :=
  [.acquire 0, .acquire 1, .release 0, .acquire 2, .resume 1]

theorem sleep_lock_two_owners :
    machine.Meets ReleasesHeld (start false none) barge ∧
      ¬ machine.Visits Exclusive (start false none) barge ∧
      ¬ Free (start true none) (0 : Fin 3) := by
  refine ⟨by decide, fun hv => ?_, fun ⟨s', hs, hown⟩ => ?_⟩
  · have hex := hv.last (show machine.run (start false none) barge = some _ from rfl)
    exact absurd (hex 1 2 rfl rfl) (by decide)
  · cases hs
    cases hown

end State
end SleepLock
end Coursework.Nachos
