import Coursework.Nachos.Lock
import Coursework.Lib.WaitSet

/-!
# Does `Signal` wake a waiting thread?

A signal is stored as a unit of the condition's semaphore. It outlives an empty
set of waiters, and a thread that begins to wait later can take it. A run obeys
the meaning of `Signal` when every unit is added for a thread that still waits for
one and no thread begins to wait while a unit is left; a step that breaks this
can always be continued to a return which no signal explains.
-/
namespace Coursework.Nachos.Monitor
open Finset

variable {Tid C K D I : Type} [DecidableEq Tid] [DecidableEq C] [Fintype Tid]

namespace State

/-- The part of a step that concerns who waits on `c` and who is woken; a `V` of
`Broadcast` counts as a signal. -/
def condSeen (c : C) (s : State Tid C K D) (e : Event Tid I) : List (WaitSet.Seen Tid) :=
  match s.condLabel c e with
  | .silent => []
  | .enter => [.released e.tid]
  | .pass => [.woke e.tid]
  | .v => [.signal]

/-- Signals come while some thread waits ungranted, waits begin while no wakeup is unused. -/
def Matched (c : C) (s : State Tid C K D) (e : Event Tid I) : Prop :=
  match s.condLabel c e with
  | .enter => (s.cond c).sema.value = 0
  | .v => (s.cond c).sema.value < (s.inWait c).card
  | _ => True

instance (c : C) (s : State Tid C K D) (e : Event Tid I) : Decidable (s.Matched c e) := by
  unfold Matched
  split <;> infer_instance

end State

variable {code : Code C K D I} {d0 : D → Prop} {k0 : K}
  {ok : State Tid C K D × List (WaitSet.Seen Tid) → Event Tid I → Prop} {c : C}

/-- Every choice of as many granted threads as there are units explains the history. -/
structure SignalOk (S : Semaphore Tid) (inside : Finset Tid) (h : List (WaitSet.Seen Tid)) :
    Prop where
  explained : WaitSet.AnyGrant h inside S.value.toNat
  enough : S.value ≤ inside.card

section
omit [Fintype Tid]

theorem SignalOk.meaningful {S : Semaphore Tid} {inside : Finset Tid}
    {h : List (WaitSet.Seen Tid)} (hi : SignalOk S inside h) : WaitSet.Meaningful h :=
  hi.explained.meaningful (Int.toNat_le.mpr hi.enough)

theorem SignalOk.pass {S : Semaphore Tid} {inside : Finset Tid} {h : List (WaitSet.Seen Tid)}
    {t : Tid} (hi : SignalOk S inside h) (hpos : 0 ≤ S.value) (ht : t ∈ inside)
    (hv : S.value ≠ 0) :
    SignalOk { S with value := S.value - 1 } (inside.erase t) (h ++ [.woke t]) where
  explained := by
    refine WaitSet.AnyGrant.woke ?_ ht
    rw [show (S.value - 1).toNat + 1 = S.value.toNat by omega]
    exact hi.explained
  enough := by
    have := hi.enough
    have := card_pos.mpr ⟨t, ht⟩
    rw [card_erase_of_mem ht]
    simp only
    omega

theorem SignalOk.v {S : Semaphore Tid} {inside : Finset Tid} {h : List (WaitSet.Seen Tid)}
    (hi : SignalOk S inside h) (hpos : 0 ≤ S.value) (hv : S.value < inside.card) :
    SignalOk S.V inside (h ++ [.signal]) where
  explained := by
    rw [Semaphore.V, show (S.value + 1).toNat = S.value.toNat + 1 by omega]
    exact hi.explained.signal
  enough := by
    simp only [Semaphore.V]
    omega

theorem SignalOk.enter {S : Semaphore Tid} {inside : Finset Tid} {h : List (WaitSet.Seen Tid)}
    {t : Tid} (hi : SignalOk S inside h) (ht : t ∉ inside) (hv : S.value = 0) :
    SignalOk S (insert t inside) (h ++ [.released t]) where
  explained := by
    have hnone := hi.explained
    rw [hv] at hnone ⊢
    exact hnone.released ht
  enough := by omega

end

/-- What one step does to the semaphore of `c` keeps every choice possible. -/
theorem SignalOk.step {s s' : State Tid C K D} {e : Event Tid I} {h : List (WaitSet.Seen Tid)}
    (hi : SignalOk (s.cond c).sema (s.inWait c) h) (hpos : 0 ≤ (s.cond c).sema.value)
    (hm : s.Matched c e) (hs : State.Steps code s e s') :
    SignalOk (s'.cond c).sema (s'.inWait c) (h ++ s.condSeen c e) := by
  have hact := State.cond_act c hs
  rw [State.Matched] at hm
  rw [State.condSeen]
  generalize s.condLabel c e = a at hact hm ⊢
  generalize (s'.cond c).sema = S' at hact ⊢
  generalize s'.inWait c = inside' at hact ⊢
  cases hact with
  | idle => simpa using hi
  | enter ht => exact hi.enter ht hm
  | sleep => simpa using ⟨hi.explained, hi.enough⟩
  | pass ht _ hv => exact hi.pass hpos ht hv
  | v => exact hi.v hpos hm

theorem signal_ok (hok : ∀ p e, ok p e → p.1.Matched c e)
    {p : State Tid C K D × List (WaitSet.Seen Tid)}
    (hr : ((machine code d0 k0).observe (State.condSeen c)).Reach ok p) :
    SignalOk (p.1.cond c).sema (p.1.inWait c) p.2 := by
  apply hr.invariant (fun p => SignalOk (p.1.cond c).sema (p.1.inWait c) p.2)
  · rintro p ⟨hs, hnil⟩
    have hnone : p.1.inWait c = ∅ := by
      ext t
      simp [State.inWait, hs.thread t, Thread.inWait]
    rw [hnil, hnone, hs.cond c]
    exact ⟨WaitSet.anyGrant_nil, le_rfl⟩
  · intro p e p' hr hi hpe hs
    obtain ⟨hstep, hseen⟩ := Machine.observe_step.mp hs
    have hreach := hr.forget
    rw [hseen]
    exact hi.step (cond_ok hreach c).nonneg (hok p e hpe) (State.steps_of_step hstep)

/-! ### A step that breaks the condition can go wrong -/

variable {s s' : State Tid C Unit Unit} {e : Event Tid (Call C)} {h : List (WaitSet.Seen Tid)}
  {t : Tid}

/-- Further steps of `t` alone can end the history in a way no signal explains. -/
inductive Spoilable (c : C) (t : Tid) : State Tid C Unit Unit × List (WaitSet.Seen Tid) → Prop where
  | now (s : State Tid C Unit Unit) {h : List (WaitSet.Seen Tid)}
      (hno : ¬ WaitSet.Meaningful h) : Spoilable c t (s, h)
  | step {s s' : State Tid C Unit Unit} {h : List (WaitSet.Seen Tid)} {e : Event Tid (Call C)}
      (he : e.tid = t) (hu : s.UsesHeld anyCode e) (hs : s.step anyCode e = some s')
      (hgo : Spoilable c t (s', h ++ s.condSeen c e)) : Spoilable c t (s, h)

section
omit [Fintype Tid]

/-- A step of `t` inside the kernel. -/
theorem Spoilable.of_step {x : Call C} (hcall : s.callOf anyCode ⟨t, x⟩ = none)
    (hs : s.step anyCode ⟨t, x⟩ = some s')
    (h' : Spoilable c t (s', h ++ s.condSeen c (⟨t, x⟩ : Event Tid (Call C)))) :
    Spoilable c t (s, h) :=
  .step (e := ⟨t, x⟩) rfl (by simp [State.UsesHeld, hcall]) hs h'

/-- A thread in the loop of the `P` of `Wait` takes an unused unit. -/
theorem spoilable_of_waitP {k : Unit} (hq : t ∉ (s.cond c).sema.queue)
    (hpc : (s.thread t).pc = .waitP c k) (hv : (s.cond c).sema.value ≠ 0) :
    Spoilable c t (s, h ++ [.released t]) := by
  obtain ⟨s', hs⟩ : ∃ s', s.step anyCode ⟨t, .pause⟩ = some s' := by
    simp only [State.step, hpc, hq, if_false, Option.some.injEq, exists_eq']
  refine .of_step (by simp [State.callOf, hpc]) hs (.now s' ?_)
  have hseen : s.condSeen c (⟨t, .pause⟩ : Event Tid (Call C)) = [.woke t] := by
    simp [State.condSeen, State.condLabel, hpc, hq, hv]
  rw [hseen]
  exact WaitSet.not_meaningful_of_no_signal h t

/-- A thread that begins to wait while a unit is unused comes back at once. -/
theorem spoilable_of_releaseV {k : Unit} (hq : t ∉ (s.cond c).sema.queue)
    (hpc : (s.thread t).pc = .releaseV (.waitP c k)) (hv : (s.cond c).sema.value ≠ 0) :
    Spoilable c t (s, h) := by
  have hs : s.step anyCode ⟨t, .pause⟩ =
      some ((s.setSema s.lock.sema.V).goto t (.waitP c k)) := by
    simp only [State.step, hpc, After.pc]
  refine .of_step (by simp [State.callOf, hpc]) hs ?_
  have hseen : s.condSeen c (⟨t, .pause⟩ : Event Tid (Call C)) = [.released t] := by
    simp [State.condSeen, State.condLabel, hpc]
  rw [hseen]
  exact spoilable_of_waitP (k := k) (by simpa using hq) (by simp) (by simpa using hv)

/-- An owner of the lock may call `Wait` while a unit is unused. -/
theorem spoilable_of_owner {k : Unit} (hq : t ∉ (s.cond c).sema.queue)
    (hpc : (s.thread t).pc = .client k) (hown : s.owns t = true)
    (hv : (s.cond c).sema.value ≠ 0) : Spoilable c t (s, h) := by
  have hs : s.step anyCode ⟨t, .wait c⟩ = some (s.release t (.waitP c ())) := by
    simp [State.step, hpc, anyCode, State.call]
  refine .step (e := ⟨t, .wait c⟩) rfl (fun _ _ _ => hown) hs ?_
  exact spoilable_of_releaseV (k := ()) (by simpa using hq) (by simp) (by simpa using hv)

/-- After a `V` of `Signal` that leaves units, the signaller itself may wait. -/
theorem spoilable_of_signalDec {k : Unit} (hq : t ∉ (s.cond c).sema.queue)
    (hpc : (s.thread t).pc = .signalDec c k) (hown : s.owns t = true)
    (hv : (s.cond c).sema.value ≠ 0) : Spoilable c t (s, h) := by
  have hs : s.step anyCode ⟨t, .pause⟩ =
      some ((s.setCond c { s.cond c with blockNum := (s.cond c).blockNum - 1 }).goto t
        (.client k)) := by
    simp only [State.step, hpc]
  refine .of_step (by simp [State.callOf, hpc]) hs ?_
  refine spoilable_of_owner (k := k) (by simpa using hq) (by simp) ?_ (by simpa using hv)
  rw [State.owns_keep (t := t) (x := ⟨.client k, (s.thread t).owns⟩) rfl rfl]
  exact hown

end

/-- The steps that break the condition, outside `Broadcast`. -/
theorem cases_of_not_matched (hb : (s.thread e.tid).pc.inBroadcast = false)
    (hm : ¬ s.Matched c e) :
    (∃ k, (s.thread e.tid).pc = .releaseV (.waitP c k) ∧ (s.cond c).sema.value ≠ 0) ∨
    (∃ k, (s.thread e.tid).pc = .signalV c k ∧ (s.inWait c).card ≤ (s.cond c).sema.value) := by
  rw [State.Matched, State.condLabel] at hm
  cases hpc : (s.thread e.tid).pc with
  | releaseV a =>
    cases a with
    | client k => simp [hpc] at hm
    | waitP x k =>
      by_cases hx : x = c
      · subst hx
        exact .inl ⟨k, rfl, by simpa [hpc] using hm⟩
      · simp [hpc, hx] at hm
  | signalV x k =>
    by_cases hx : x = c
    · subst hx
      exact .inr ⟨k, rfl, by simpa [hpc] using hm⟩
    · simp [hpc, hx] at hm
  | bcastV x k => simp [hpc, Pc.inBroadcast] at hb
  | waitP x k =>
    by_cases hx : x = c ∧ e.tid ∉ (s.cond c).sema.queue ∧ (s.cond c).sema.value ≠ 0
    · simp [hpc, hx] at hm
    · simp only [hpc, hx, if_false] at hm
      exact absurd trivial hm
  | client | acquireP | acquireSet | waitInc | signalDec | bcastTest | bcastDec =>
    simp [hpc] at hm

/-- A step that breaks the condition leaves a state which can go wrong. -/
theorem spoilable_of_not_matched (hok : (s.cond c).sema.Ok (s.inWait c))
    (hheld : (s.thread e.tid).OpHeld) (hb : (s.thread e.tid).pc.inBroadcast = false)
    (hm : ¬ s.Matched c e) (hs : s.step anyCode e = some s') :
    Spoilable c e.tid (s', h ++ s.condSeen c e) := by
  have hqueue (hin : e.tid ∉ s.inWait c) : e.tid ∉ (s.cond c).sema.queue :=
    fun hq => hin (hok.asleep _ hq)
  rcases cases_of_not_matched hb hm with ⟨k, hpc, hv⟩ | ⟨k, hpc, hv⟩
  · have hq := hqueue (by simp [State.inWait, hpc, Thread.inWait])
    simp only [State.step, hpc, After.pc, Option.some.injEq] at hs
    have hseen : s.condSeen c e = [.released e.tid] := by
      simp [State.condSeen, State.condLabel, hpc]
    rw [← hs, hseen]
    exact spoilable_of_waitP (k := k) (by simpa using hq) (by simp) (by simpa using hv)
  · have hq := hqueue (by simp [State.inWait, hpc, Thread.inWait])
    rw [Thread.OpHeld, hpc] at hheld
    simp only [State.step, hpc, Option.some.injEq] at hs
    rw [← hs]
    refine spoilable_of_signalDec (k := k) ?_ (by simp) (by simpa [State.owns] using hheld) ?_
    · simpa [Semaphore.V] using fun hmem => hq (List.mem_of_mem_tail hmem)
    · simp [Semaphore.V]
      omega

/-- `Signal` wakes a waiting thread along every run whose steps are matched. A step
of `Wait` or `Signal` that is not matched can be followed by steps of its own thread after
which a return from `Wait` has no signal that explains it. -/
theorem signal_wakes_waiter (c : C) :
    (∀ (s : State Tid C Unit Unit) (h : List (WaitSet.Seen Tid)),
      (anyClient.observe (State.condSeen c)).Reach
        (fun p e => p.1.UsesHeld anyCode e ∧ p.1.Matched c e) (s, h) → WaitSet.Meaningful h) ∧
    ∀ (s s' : State Tid C Unit Unit) (h : List (WaitSet.Seen Tid)) (e : Event Tid (Call C)),
      (anyClient.observe (State.condSeen c)).Reach (fun p e => p.1.UsesHeld anyCode e) (s, h) →
      s.step anyCode e = some s' → ¬ s.Matched c e → (s.thread e.tid).pc.inBroadcast = false →
      Spoilable c e.tid (s', h ++ s.condSeen c e) := by
  refine ⟨fun s h hr => (signal_ok (fun _ _ hpe => hpe.2) hr).meaningful, ?_⟩
  intro s s' h e hr hs hm hb
  have hreach := hr.of_observe (State.UsesHeld anyCode) fun _ _ hpe => hpe
  exact spoilable_of_not_matched (cond_ok hreach c) (op_held (fun _ _ hse => hse) hreach e.tid)
    hb hm hs

/-- Thread 1 waits, thread 0 signals, thread 1 takes the wakeup. -/
def wakeup : List (Event (Fin 2) (Call Unit)) :=
  [⟨t1, .acquire⟩, ⟨t1, .pause⟩, ⟨t1, .pause⟩, ⟨t1, .wait ()⟩, ⟨t1, .pause⟩, ⟨t1, .pause⟩,
    ⟨t0, .acquire⟩, ⟨t0, .pause⟩, ⟨t0, .pause⟩, ⟨t0, .signal ()⟩, ⟨t0, .pause⟩, ⟨t1, .pause⟩]

theorem signal_wakes_waiter_wakeup :
    ∃ p, (anyClient.observe (State.condSeen ())).run (startState none () (), []) wakeup = some p ∧
      p.2 = [.released 1, .signal, .woke 1] ∧ WaitSet.Meaningful p.2 := by
  have h0 : (anyClient.observe (State.condSeen ())).init
      ((startState none () (), []) :
        State (Fin 2) Unit Unit Unit × List (WaitSet.Seen (Fin 2))) :=
    ⟨start_startState trivial, rfl⟩
  have hr : (anyClient.observe (State.condSeen ())).Reach
      (fun p e => p.1.UsesHeld anyCode e ∧ p.1.Matched () e) _ :=
    Machine.Reach.run (.init h0) (show Machine.Meets _ _ _ wakeup by decide) rfl
  exact ⟨_, rfl, rfl, (signal_wakes_waiter ()).1 _ _ hr⟩

/-- Thread 0 signals while nobody waits; thread 1 then calls `Wait` and comes back at once. -/
def staleSignal : List (Event (Fin 2) (Call Unit)) :=
  [⟨t0, .acquire⟩, ⟨t0, .pause⟩, ⟨t0, .pause⟩, ⟨t0, .signal ()⟩, ⟨t0, .pause⟩, ⟨t0, .pause⟩,
    ⟨t0, .release⟩, ⟨t0, .pause⟩,
    ⟨t1, .acquire⟩, ⟨t1, .pause⟩, ⟨t1, .pause⟩, ⟨t1, .wait ()⟩, ⟨t1, .pause⟩, ⟨t1, .pause⟩]

theorem signal_outlives_no_waiter :
    ∃ p, (anyClient.observe (State.condSeen ())).Reach (fun p e => p.1.UsesHeld anyCode e) p ∧
      (anyClient.observe (State.condSeen ())).run (startState none () (), []) staleSignal =
        some p ∧
      p.2 = [.signal, .released (1 : Fin 2), .woke 1] ∧ ¬ WaitSet.Meaningful p.2 := by
  have h0 : (anyClient.observe (State.condSeen ())).init
      ((startState none () (), []) :
        State (Fin 2) Unit Unit Unit × List (WaitSet.Seen (Fin 2))) :=
    ⟨start_startState trivial, rfl⟩
  have hr : (anyClient.observe (State.condSeen ())).Reach (fun p e => p.1.UsesHeld anyCode e) _ :=
    Machine.Reach.run (.init h0) (show Machine.Meets _ _ _ staleSignal by decide) rfl
  exact ⟨_, hr, rfl, rfl, WaitSet.not_meaningful_of_no_signal [.signal] 1⟩

end Coursework.Nachos.Monitor
