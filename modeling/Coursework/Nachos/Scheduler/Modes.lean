import Coursework.Lib.History
import Coursework.Lib.Placement
import Coursework.Nachos.Scheduler

/-!
# What the lists and the status say of a thread

A thread that is not running is in one list, and its status says in which kind. The operations
of the scheduler and of semaphores take threads out of lists and put them in.
-/
namespace Coursework.Nachos.Scheduler

variable {Tid Sid : Type} [DecidableEq Tid] [DecidableEq Sid]

/-- The lists of threads. -/
inductive Slot (Sid : Type) where
  | ready
  | queue (sema : Sid)
  deriving DecidableEq

/-- The status of the threads in a list. -/
def Slot.status : Slot Sid → ThreadStatus
  | .ready => .ready
  | .queue _ => .blocked

inductive Mode where
  /-- In no list. -/
  | absent
  | running
  | listed
  deriving DecidableEq

def Mode.Holds : Mode → ThreadStatus → Option (Slot Sid) → Prop
  | .absent, _, home => home = none
  | .running, status, home => status = .running ∧ home = none
  | .listed, status, home => ∃ k, home = some k ∧ status = k.status

namespace State

def lists (s : State Tid Sid) : Slot Sid → List Tid
  | .ready => s.readyList
  | .queue sema => (s.sema sema).queue

/-- Every thread is in the mode given for it. -/
def Modes (s : State Tid Sid) (m : Tid → Mode) : Prop :=
  ∃ home, Placed s.lists home ∧ ∀ t, (m t).Holds (s.status t) (home t)

variable {s s' : State Tid Sid} {m : Tid → Mode} {t : Tid} {k : Slot Sid} {l : List Tid}

omit [DecidableEq Tid] in
theorem lists_of_sema_eq (h : s'.sema = s.sema) :
    s'.lists = Function.update s.lists .ready s'.readyList := by
  funext k
  cases k <;> simp [lists, h]

omit [DecidableEq Tid] in
theorem lists_sema (sema : Sid) (S : Semaphore Tid) :
    { s with sema := Function.update s.sema sema S }.lists =
      Function.update s.lists (.queue sema) S.queue := by
  funext k
  cases k with
  | ready => simp [lists]
  | queue σ =>
    by_cases hσ : σ = sema
    · simp [lists, hσ]
    · simp [lists, hσ]

theorem Modes.congr (hm : s.Modes m) (hl : s'.lists = s.lists) (hs : s'.status = s.status) :
    s'.Modes m := by
  rcases hm with ⟨home, hp, hh⟩
  refine ⟨home, hp.congr fun k => by rw [hl], ?_⟩
  rw [hs]
  exact hh

/-- A thread at the head of a list leaves it. -/
theorem Modes.take (hm : s.Modes m) (hk : s.lists k = t :: l)
    (hl : s'.lists = Function.update s.lists k l) (hs : s'.status = s.status) :
    m t = .listed ∧ s'.Modes (Function.update m t .absent) := by
  rcases hm with ⟨home, hp, hh⟩
  have hhome : home t = some k := hp.mem_iff.mp (hk ▸ List.mem_cons_self)
  have hlisted : m t = .listed := by
    have ht := hh t
    rw [hhome] at ht
    cases hmt : m t with
    | listed => rfl
    | absent =>
      rw [hmt] at ht
      cases ht
    | running =>
      rw [hmt] at ht
      cases ht.2
  refine ⟨hlisted, Function.update home t none, hl ▸ hp.pop hk, ?_⟩
  intro u
  rw [hs]
  by_cases hu : u = t
  · subst hu
    rw [Function.update_self, Function.update_self]
    rfl
  · rw [Function.update_of_ne hu, Function.update_of_ne hu]
    exact hh u

omit [DecidableEq Tid] [DecidableEq Sid] in
theorem Modes.home_eq_none {home : Tid → Option (Slot Sid)} (ht : m t ≠ .listed)
    (hh : ∀ t, (m t).Holds (s.status t) (home t)) : home t = none := by
  have hht := hh t
  cases hmt : m t with
  | listed => exact absurd hmt ht
  | absent =>
    rw [hmt] at hht
    exact hht
  | running =>
    rw [hmt] at hht
    exact hht.2

/-- A thread that is in no list goes to the end of one. -/
theorem Modes.put (hm : s.Modes m) (ht : m t ≠ .listed)
    (hl : s'.lists = Function.update s.lists k (s.lists k ++ [t]))
    (hs : s'.status = Function.update s.status t k.status) :
    s'.Modes (Function.update m t .listed) := by
  rcases hm with ⟨home, hp, hh⟩
  refine ⟨Function.update home t (some k), hl ▸ hp.append (home_eq_none ht hh) k, ?_⟩
  intro u
  rw [hs]
  by_cases hu : u = t
  · subst hu
    rw [Function.update_self, Function.update_self, Function.update_self]
    exact ⟨k, rfl, rfl⟩
  · rw [Function.update_of_ne hu, Function.update_of_ne hu, Function.update_of_ne hu]
    exact hh u

/-- A thread that is in no list gets another status. -/
theorem Modes.setStatus (hm : s.Modes m) (ht : m t ≠ .listed) {status : ThreadStatus} {μ : Mode}
    (hl : s'.lists = s.lists) (hs : s'.status = Function.update s.status t status)
    (hμ : μ.Holds status (none : Option (Slot Sid))) :
    s'.Modes (Function.update m t μ) := by
  rcases hm with ⟨home, hp, hh⟩
  refine ⟨home, hp.congr fun k => by rw [hl], ?_⟩
  intro u
  rw [hs]
  by_cases hu : u = t
  · subst hu
    rw [Function.update_self, Function.update_self, home_eq_none ht hh]
    exact hμ
  · rw [Function.update_of_ne hu, Function.update_of_ne hu]
    exact hh u

theorem Modes.readyToRun (hm : s.Modes m) (ht : m t ≠ .listed) :
    (s.readyToRun t).Modes (Function.update m t .listed) := by
  exact hm.put ht (k := .ready) (lists_of_sema_eq rfl) rfl

/-- A thread that `V` wakes was blocked in the queue and is ready then. -/
theorem Modes.v (hm : s.Modes m) (sema : Sid) : (s.v sema).Modes m := by
  have hlists := lists_sema (s := s) sema (s.sema sema).V
  cases hq : (s.sema sema).queue with
  | nil =>
    have hv : s.v sema = { s with sema := Function.update s.sema sema (s.sema sema).V } := by
      rw [State.v, hq, List.head?_nil]
    rw [hv]
    refine hm.congr ?_ rfl
    rw [hlists, Function.update_eq_self_iff, Semaphore.V, hq]
    exact hq.symm
  | cons t l =>
    have hv : s.v sema =
        { s with sema := Function.update s.sema sema (s.sema sema).V }.readyToRun t := by
      rw [State.v, hq, List.head?_cons]
    rw [Semaphore.V, hq, List.tail_cons] at hlists
    have htake := hm.take (k := .queue sema) hq hlists rfl
    have hput := htake.2.readyToRun (t := t) (by simp)
    rw [Function.update_idem, ← htake.1, Function.update_eq_self] at hput
    rw [hv, Semaphore.V, hq, List.tail_cons]
    exact hput

end State
end Coursework.Nachos.Scheduler
