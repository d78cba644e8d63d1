import Coursework.Nachos.Monitor.Invariants

/-!
# Mutual exclusion of the kernel's lock

The client here is the most general one: at any time a thread may make any call,
on any number of conditions. Only the caller's obligation restricts it, to call
`Release` and `Wait` while it owns the lock; it may call `Acquire` while it owns
the lock, and then sleeps.
-/
namespace Coursework.Nachos.Monitor

variable {Tid C K D I : Type} [DecidableEq Tid] [DecidableEq C] [Fintype Tid]

/-- The client that makes the call which the input names. -/
def anyCode : Code C Unit Unit (Call C) := fun _ _ call => some (call, (), ())

def anyClient : Machine (State Tid C Unit Unit) (Event Tid (Call C)) :=
  machine anyCode (fun _ => True) ()

/-- Before the first acquisition nobody owns the lock; after it the field names the owner. -/
def HolderOk (holder : Option Tid) (owns : Tid → Bool) (h : List Tid) : Prop :=
  (h = [] → ∀ t, owns t = false) ∧ (h ≠ [] → ∀ t, holder = some t ↔ owns t = true)

omit [Fintype Tid] in
theorem HolderOk.act {holder holder' : Option Tid} {owns owns' : Tid → Bool} {h seen : List Tid}
    {t : Tid} (hi : HolderOk holder owns h) (hu : ∀ u, owns t = true → owns u = true → t = u)
    (hu' : ∀ u, owns' t = true → owns' u = true → t = u)
    (ha : State.OwnAct t holder owns seen holder' owns') :
    HolderOk holder' owns' (h ++ seen) := by
  cases ha with
  | keep => rwa [List.append_nil]
  | release ht =>
    have hnone : ∀ u, Function.update owns t false u = false := by
      intro u
      by_cases hut : u = t
      · simp [hut]
      · rw [Function.update_of_ne hut]
        by_contra hne
        exact hut (hu u ht (Bool.eq_true_of_not_eq_false hne)).symm
    exact ⟨fun _ => hnone, fun _ u => by simp [hnone u]⟩
  | hold =>
    refine ⟨fun hnil => by simp at hnil, fun _ u => ?_⟩
    constructor
    · intro he
      cases he
      exact Function.update_self t true owns
    · intro hown
      rw [hu' u (Function.update_self t true owns) hown]

variable {code : Code C K D I} {d0 : D → Prop} {k0 : K}
  {ok : State Tid C K D × List Tid → Event Tid I → Prop}

theorem holder_ok (hok : ∀ p e, ok p e → p.1.ReleasesHeld code e)
    {p : State Tid C K D × List Tid}
    (hr : ((machine code d0 k0).observe State.acquired).Reach ok p) :
    HolderOk p.1.lock.threadHoldLock p.1.owns p.2 := by
  apply hr.invariant (fun p => HolderOk p.1.lock.threadHoldLock p.1.owns p.2)
  · rintro p ⟨hs, hnil⟩
    exact ⟨fun _ t => by simp [State.owns, hs.thread t], fun hne => absurd hnil hne⟩
  · intro p e p' hr hi hpe hs
    obtain ⟨hstep, hseen⟩ := Machine.observe_step.mp hs
    have hreach := hr.of_observe (State.ReleasesHeld code) hok
    have hreach' := hreach.step (hok p e hpe) hstep
    rw [hseen]
    exact hi.act (fun u => owner_unique (fun _ _ h => h) hreach)
      (fun u => owner_unique (fun _ _ h => h) hreach')
      (State.own_act (hok p e hpe) (State.steps_of_step hstep))

/-- At most one thread owns the lock, and once some `Acquire` has completed the
lock's own test answers true for exactly that thread. -/
theorem lock_mutual_exclusion {s : State Tid C Unit Unit} {h : List Tid}
    (hr : (anyClient.observe State.acquired).Reach (fun p e => p.1.ReleasesHeld anyCode e)
      (s, h)) :
    (∀ t u, s.owns t = true → s.owns u = true → t = u) ∧
    (h ≠ [] → ∀ t, s.lock.isHeldByCurrentThread t = true ↔ s.owns t = true) := by
  have hreach := hr.of_observe (State.ReleasesHeld anyCode) fun _ _ h => h
  refine ⟨fun t u => owner_unique (fun _ _ h => h) hreach, fun hne t => ?_⟩
  rw [← (holder_ok (fun _ _ h => h) hr).2 hne t, Lock.isHeldByCurrentThread, decide_eq_true_eq]
  exact eq_comm

/-- Thread 0 acquires the lock, thread 1 calls `Acquire` and sleeps, thread 0 waits on the
condition, and thread 1 takes the lock. -/
def handover : List (Event (Fin 2) (Call Unit)) :=
  [⟨t0, .acquire⟩, ⟨t0, .pause⟩, ⟨t0, .pause⟩, ⟨t1, .acquire⟩, ⟨t1, .pause⟩, ⟨t0, .wait ()⟩,
    ⟨t0, .pause⟩, ⟨t1, .pause⟩, ⟨t1, .pause⟩]

theorem lock_mutual_exclusion_handover :
    ∃ p, (anyClient.observe State.acquired).run (startState (some 1) () (), []) handover = some p ∧
      p.2 = [0, 1] ∧ p.1.lock.isHeldByCurrentThread 1 = true ∧
      (p.1.owns 1 = true → p.1.owns 0 = true → (1 : Fin 2) = 0) := by
  have h0 : (anyClient.observe State.acquired).init
      ((startState (some 1) () (), []) : State (Fin 2) Unit Unit Unit × List (Fin 2)) :=
    ⟨start_startState trivial, rfl⟩
  have hr : (anyClient.observe State.acquired).Reach (fun p e => p.1.ReleasesHeld anyCode e) _ :=
    Machine.Reach.run (.init h0) (show Machine.Meets _ _ _ handover by decide) rfl
  obtain ⟨hone, hheld⟩ := lock_mutual_exclusion hr
  exact ⟨_, rfl, rfl, (hheld (by decide) 1).mpr rfl, hone 1 0⟩

end Coursework.Nachos.Monitor
