import Coursework.Nachos.Lock

/-!
# Does `Broadcast` wake every waiting thread?

`Broadcast` loops while `blockNum` is not zero, and `Wait` adds to `blockNum` only
after it has been woken. So the counter is never positive when the caller holds the
lock: it is minus the number of wakeups that are stored or taken and not counted
yet. With a counter of zero `Broadcast` wakes nobody; below zero it never returns
when it runs alone.
-/
namespace Coursework.Nachos.Monitor
open Finset

variable {Tid C K D I : Type} [DecidableEq Tid] [DecidableEq C] [Fintype Tid]

/-- Woken threads that have not counted themselves in `blockNum`. -/
def Thread.uncounted (c : C) (x : Thread C K) : ℕ :=
  match x.pc with
  | .waitInc y _ => if y = c then 1 else 0
  | _ => 0

/-- Threads that have done the `V` but not the `blockNum--` of a wakeup. -/
def Thread.overcounted (c : C) (x : Thread C K) : ℕ :=
  match x.pc with
  | .signalDec y _ | .bcastDec y _ => if y = c then 1 else 0
  | _ => 0

namespace State
variable {code : Code C K D I} {s s' : State Tid C K D} {e : Event Tid I} {t : Tid} {c : C} {k : K}

def blockBalance (s : State Tid C K D) (c : C) : ℤ :=
  (s.cond c).blockNum + (s.cond c).sema.value + s.weight (Thread.uncounted c) -
    s.weight (Thread.overcounted c)

theorem blockBalance_of {x : Thread C K} (ht : s'.thread = Function.update s.thread t x)
    (hx : (s'.cond c).blockNum + (s'.cond c).sema.value + x.uncounted c +
        (s.thread t).overcounted c =
      (s.cond c).blockNum + (s.cond c).sema.value + (s.thread t).uncounted c +
        x.overcounted c) :
    s'.blockBalance c = s.blockBalance c := by
  have hu := weight_update (w := Thread.uncounted c) ht
  have ho := weight_update (w := Thread.overcounted c) ht
  rw [blockBalance, blockBalance]
  omega

/-- Every step moves one unit between the counter, the semaphore and its own thread. -/
theorem blockBalance_step (h : Steps code s e s') : s'.blockBalance c = s.blockBalance c := by
  cases h with
  | @client k k' d x hpc hcode =>
    cases x with
    | acquire | release | wait | signal | broadcast | pause =>
      exact blockBalance_of (t := e.tid) rfl
        (by simp [State.call, Thread.uncounted, Thread.overcounted, hpc])
  | @releaseV a hpc =>
    cases a with
    | client | waitP =>
      exact blockBalance_of (t := e.tid) rfl
        (by simp [Thread.uncounted, Thread.overcounted, After.pc, hpc])
  | acquireSleep hpc | acquirePass hpc | acquireSet hpc | bcastExit hpc | bcastLoop hpc =>
    exact blockBalance_of (t := e.tid) rfl
      (by simp [Thread.uncounted, Thread.overcounted, hpc])
  | @waitSleep x k hpc | @waitPass x k hpc | @waitInc x k hpc | @signalV x k hpc
  | @signalDec x k hpc | @bcastV x k hpc | @bcastDec x k hpc =>
    apply blockBalance_of (t := e.tid) rfl
    by_cases hc : x = c
    · subst hc
      simp [Thread.uncounted, Thread.overcounted, Semaphore.V, hpc]
      try omega
    · simp [Thread.uncounted, Thread.overcounted, hpc, hc, Ne.symm hc]

section
omit [Fintype Tid]

/-- Other threads keep their places. -/
theorem thread_of_ne (h : Steps code s e s') (ht : t ≠ e.tid) : s'.thread t = s.thread t := by
  cases h with
  | @client k k' d x hpc hcode =>
    cases x <;> simp [State.call, ht]
  | _ => simp [ht]

theorem step_bcastV (hpc : (s.thread e.tid).pc = .bcastV c k) :
    s.step code e = some ((s.setCond c { s.cond c with sema := (s.cond c).sema.V }).goto e.tid
      (.bcastDec c k)) := by
  simp only [step, hpc]

theorem step_bcastDec (hpc : (s.thread e.tid).pc = .bcastDec c k) :
    s.step code e = some ((s.setCond c
      { s.cond c with blockNum := (s.cond c).blockNum - 1 }).goto e.tid (.bcastTest c k)) := by
  simp only [step, hpc]

theorem pc_of_condLabel_v (h : s.condLabel c e = .v) :
    (∃ k, (s.thread e.tid).pc = .signalV c k) ∨ ∃ k, (s.thread e.tid).pc = .bcastV c k := by
  unfold condLabel at h
  split at h
  case h_3 x k hpc =>
    split_ifs at h with hx
    exact .inl ⟨k, hx ▸ hpc⟩
  case h_4 x k hpc =>
    split_ifs at h with hx
    exact .inr ⟨k, hx ▸ hpc⟩
  all_goals first | cases h | (split_ifs at h)

theorem step_bcastExit (hpc : (s.thread e.tid).pc = .bcastTest c k)
    (hzero : (s.cond c).blockNum = 0) : s.step code e = some (s.goto e.tid (.client k)) := by
  simp only [step, hpc, hzero, if_true]

omit [DecidableEq Tid] [DecidableEq C] in
theorem usesHeld_of_callOf (h : s.callOf code e = none) : s.UsesHeld code e := by
  simp [UsesHeld, h]

end

end State

/-! ### What a call of `Broadcast` does -/

section Broadcast
variable {code : Code C K D I} {d0 : D → Prop} {k0 : K} {s s' s1 : State Tid C K D}
  {e : Event Tid I} {t : Tid} {c : C} {k : K} {n g : ℕ}

theorem blockBalance_eq_zero {ok : State Tid C K D → Event Tid I → Prop}
    (hr : (machine code d0 k0).Reach ok s) : s.blockBalance c = 0 := by
  apply hr.invariant (fun s => s.blockBalance c = 0)
  · intro s hs
    simp [State.blockBalance, State.weight, hs.cond c, hs.thread, Condition.new,
      Thread.uncounted, Thread.overcounted]
  · intro s e s' _ hi _ hs
    rw [State.blockBalance_step (State.steps_of_step hs), hi]

/-- Whoever runs `Signal` or `Broadcast` is the owner of the lock. -/
theorem eq_of_opHeld (hr : (machine code d0 k0).Reach (State.UsesHeld code) s) {u : Tid}
    (ht : s.owns t = true) (hu : (s.thread u).OpHeld → s.owns u = true) : u = t :=
  owner_unique (fun _ _ h => h.releasesHeld) hr (hu (op_held (fun _ _ h => h) hr u)) ht

/-- At the test of `Broadcast` the counter is minus the wakeups that are stored or uncounted. -/
theorem blockNum_eq (hr : (machine code d0 k0).Reach (State.UsesHeld code) s)
    (hpc : (s.thread t).pc = .bcastTest c k) :
    (s.cond c).blockNum + (s.cond c).sema.value + s.weight (Thread.uncounted c) = 0 := by
  have hown : s.owns t = true := by
    have hheld := op_held (fun _ _ h => h) hr t
    rwa [Thread.OpHeld, hpc] at hheld
  have hover : s.weight (Thread.overcounted c) = 0 := by
    apply sum_eq_zero
    intro u _
    by_cases hut : u = t
    · simp [hut, Thread.overcounted, hpc]
    · cases hu : (s.thread u).pc with
      | signalDec | bcastDec =>
        exact absurd (eq_of_opHeld hr hown fun h => by rwa [Thread.OpHeld, hu] at h) hut
      | _ => simp [Thread.overcounted, hu]
  have hbal := blockBalance_eq_zero (c := c) hr
  rw [State.blockBalance, hover] at hbal
  omega

/-- The states from a call `Broadcast` of `t` to its return while all threads run, with
the number of steps that `t` takes in it and the number of wakeups granted. -/
inductive During (code : Code C K D I) (c : C) (t : Tid) (s1 : State Tid C K D) :
    ℕ → ℕ → State Tid C K D → Prop where
  | called : During code c t s1 0 0 s1
  | step {n g : ℕ} {s s' : State Tid C K D} {e : Event Tid I} (h : During code c t s1 n g s)
      (hin : (s.thread t).pc.inBroadcast = true) (hu : s.UsesHeld code e)
      (hs : s.step code e = some s') :
      During code c t s1 (n + if e.tid = t then 1 else 0)
        (g + if s.condLabel c e = .v then 1 else 0) s'

/-- A `Broadcast` does what it promises: the caller leaves it after a bounded number of
its own steps, by then every thread that waited has a wakeup, and there are no
more wakeups than threads. -/
structure BroadcastOk (code : Code C K D I) (c : C) (t : Tid) (s1 : State Tid C K D) : Prop where
  returns : ∃ N, ∀ n g s, During code c t s1 n g s → n ≤ N
  wakesAll : ∀ n g s, During code c t s1 n g s → (s.thread t).pc.inBroadcast = false →
    (s1.inWait c).card ≤ (s1.cond c).sema.value + g
  noMore : ∀ n g s, During code c t s1 n g s → g ≤ (s1.inWait c).card

section
omit [Fintype Tid]

/-- The caller steps inside `Broadcast`. -/
theorem During.own (h : During code c t s1 n g s) (hin : (s.thread t).pc.inBroadcast = true)
    {i : I} (hs : s.step code ⟨t, i⟩ = some s') :
    During code c t s1 (n + 1) (g + if s.condLabel c (⟨t, i⟩ : Event Tid I) = .v then 1 else 0)
      s' := by
  have hcall : s.callOf code ⟨t, i⟩ = none := by
    cases hpc : (s.thread t).pc with
    | client => simp [hpc, Pc.inBroadcast] at hin
    | _ => simp [State.callOf, hpc]
  simpa using h.step hin (State.usesHeld_of_callOf hcall) hs

/-- Below zero the loop goes round and takes the counter further down. -/
theorem During.spin (h : During code c t s1 n g s) (i : I)
    (hpc : (s.thread t).pc = .bcastTest c k) (hneg : (s.cond c).blockNum < 0) :
    ∃ g' s', During code c t s1 (n + 3) g' s' ∧ (s'.thread t).pc = .bcastTest c k ∧
      (s'.cond c).blockNum < 0 := by
  have htest : s.step code ⟨t, i⟩ = some (s.goto t (.bcastV c k)) := by
    simp only [State.step, hpc, hneg.ne, if_false]
  have hv := h.own (by simp [hpc, Pc.inBroadcast]) htest
  have hdec := hv.own (i := i) (by simp [Pc.inBroadcast])
    (State.step_bcastV (c := c) (k := k) (by simp))
  refine ⟨_, _, hdec.own (i := i) (by simp [Pc.inBroadcast])
    (State.step_bcastDec (c := c) (k := k) (by simp)), by simp, ?_⟩
  simp
  omega

theorem During.spins (hpc : (s1.thread t).pc = .bcastTest c k) (i : I)
    (hneg : (s1.cond c).blockNum < 0) (m : ℕ) :
    ∃ g s, During code c t s1 (3 * m) g s ∧ (s.thread t).pc = .bcastTest c k ∧
      (s.cond c).blockNum < 0 := by
  induction m with
  | zero => exact ⟨0, s1, .called, hpc, hneg⟩
  | succ m ih =>
    rcases ih with ⟨g, s, hs, hpc', hneg'⟩
    exact hs.spin i hpc' hneg'

theorem During.endless (hpc : (s1.thread t).pc = .bcastTest c k)
    (hneg : (s1.cond c).blockNum < 0) (i : I) (N : ℕ) :
    ∃ n g s, During code c t s1 n g s ∧ N < n := by
  obtain ⟨g, s, hs, -⟩ := During.spins hpc i hneg (N + 1)
  exact ⟨_, g, s, hs, by omega⟩

end

/-- While an owner is at the test with a counter of zero, other threads leave it at zero
and add no wakeup. -/
theorem quiet_step (hr : (machine code d0 k0).Reach (State.UsesHeld code) s)
    (hpc : (s.thread t).pc = .bcastTest c k) (hzero : (s.cond c).blockNum = 0)
    (ht : e.tid ≠ t) (hs : State.Steps code s e s') :
    (s'.cond c).blockNum = 0 ∧ s.condLabel c e ≠ .v := by
  have hown : s.owns t = true := by
    have hheld := op_held (fun _ _ h => h) hr t
    rwa [Thread.OpHeld, hpc] at hheld
  have hnot : ¬ ((s.thread e.tid).OpHeld → s.owns e.tid = true) :=
    fun hu => ht (eq_of_opHeld hr hown hu)
  have hsum := blockNum_eq hr hpc
  have hpos := (cond_ok hr c).nonneg
  constructor
  · cases hs with
    | @waitInc x k' hu =>
      have hle := s.le_weight (Thread.uncounted c) e.tid
      by_cases hx : x = c
      · simp only [Thread.uncounted, hu, hx, if_true] at hle
        omega
      · simpa [Ne.symm hx] using hzero
    | signalDec hu | bcastDec hu =>
      exact absurd (fun h => by rwa [Thread.OpHeld, hu] at h) hnot
    | @waitSleep x | @waitPass x | @signalV x | @bcastV x =>
      by_cases hx : x = c
      · subst hx
        simpa using hzero
      · simpa [Ne.symm hx] using hzero
    | client | releaseV | acquireSleep | acquirePass | acquireSet | bcastExit | bcastLoop =>
      simpa using hzero
  · intro hlabel
    rcases State.pc_of_condLabel_v hlabel with ⟨k', hu⟩ | ⟨k', hu⟩
    · exact hnot fun h => by rwa [Thread.OpHeld, hu] at h
    · exact hnot fun h => by rwa [Thread.OpHeld, hu] at h

/-- With a counter of zero the caller leaves in one step and nothing is granted. -/
theorem During.quiet (hr : (machine code d0 k0).Reach (State.UsesHeld code) s1)
    (hpc : (s1.thread t).pc = .bcastTest c k) (hzero : (s1.cond c).blockNum = 0)
    (h : During code c t s1 n g s) :
    g = 0 ∧ (n = 0 ∧ (s.thread t).pc = .bcastTest c k ∧ (s.cond c).blockNum = 0 ∧
      (machine code d0 k0).Reach (State.UsesHeld code) s ∨
      n = 1 ∧ (s.thread t).pc.inBroadcast = false) := by
  induction h with
  | called => exact ⟨rfl, .inl ⟨rfl, hpc, hzero, hr⟩⟩
  | @step n g s s' e _ hin hu hs ih =>
    rcases ih with ⟨rfl, ⟨rfl, hpc, hzero, hr⟩ | ⟨-, hout⟩⟩
    · have hsteps := State.steps_of_step hs
      by_cases ht : e.tid = t
      · subst ht
        simp only [State.step, hpc, hzero, if_true, Option.some.injEq] at hs
        refine ⟨by simp [State.condLabel, hpc], .inr ⟨by simp, ?_⟩⟩
        simp [← hs, Pc.inBroadcast]
      · obtain ⟨hzero', hlabel⟩ := quiet_step hr hpc hzero ht hsteps
        refine ⟨by simp [hlabel], .inl ⟨by simp [ht], ?_, hzero', hr.step hu hs⟩⟩
        rw [State.thread_of_ne hsteps (Ne.symm ht), hpc]
    · rw [hout] at hin
      cases hin

omit [Fintype Tid] in
theorem During.exit (hpc : (s1.thread t).pc = .bcastTest c k) (hzero : (s1.cond c).blockNum = 0)
    (i : I) : During code c t s1 1 0 (s1.goto t (.client k)) := by
  have hcalled : During code c t s1 0 0 s1 := .called
  have hown := hcalled.own (by simp [hpc, Pc.inBroadcast])
    (State.step_bcastExit (e := ⟨t, i⟩) hpc hzero)
  simpa [State.condLabel, hpc] using hown

/-- Below zero the loop has no end, and at zero it wakes nobody. -/
theorem broadcastOk_iff (hr : (machine code d0 k0).Reach (State.UsesHeld code) s1)
    (hpc : (s1.thread t).pc = .bcastTest c k) (i : I) :
    BroadcastOk code c t s1 ↔ (s1.cond c).blockNum = 0 ∧ s1.inWait c = ∅ := by
  have hsum := blockNum_eq hr hpc
  have hpos := (cond_ok hr c).nonneg
  constructor
  · intro hok
    have hzero : (s1.cond c).blockNum = 0 := by
      by_contra hne
      obtain ⟨N, hN⟩ := hok.returns
      obtain ⟨n, g, s, hs, hn⟩ := During.endless hpc (by omega) i N
      exact absurd (hN n g s hs) (by omega)
    have hall := hok.wakesAll _ _ _ (During.exit hpc hzero i) (by simp [Pc.inBroadcast])
    exact ⟨hzero, card_eq_zero.mp (by omega)⟩
  · rintro ⟨hzero, hnone⟩
    refine ⟨⟨1, fun n g s h => ?_⟩, fun n g s h _ => ?_, fun n g s h => ?_⟩
    · obtain ⟨-, ⟨rfl, -⟩ | ⟨rfl, -⟩⟩ := h.quiet hr hpc hzero
      · exact zero_le_one
      · exact le_rfl
    · rw [hnone, card_empty]
      omega
    · rw [(h.quiet hr hpc hzero).1]
      exact Nat.zero_le _

end Broadcast

variable {s s1 : State Tid C Unit Unit} {e : Event Tid (Call C)} {c : C}

/-- Thread 0 acquires the lock and is about to call `Broadcast`; nobody waits. -/
def aloneBroadcast : List (Event (Fin 2) (Call Unit)) :=
  [⟨t0, .acquire⟩, ⟨t0, .pause⟩, ⟨t0, .pause⟩]

/-- Thread 1 waits; thread 0 acquires the lock and calls `Broadcast`. -/
def lostBroadcast : List (Event (Fin 2) (Call Unit)) :=
  [⟨t1, .acquire⟩, ⟨t1, .pause⟩, ⟨t1, .pause⟩, ⟨t1, .wait ()⟩, ⟨t1, .pause⟩, ⟨t1, .pause⟩,
    ⟨t0, .acquire⟩, ⟨t0, .pause⟩, ⟨t0, .pause⟩, ⟨t0, .broadcast ()⟩]

/-- Thread 0 signals while nobody waits and calls `Broadcast`. -/
def endlessBroadcast : List (Event (Fin 2) (Call Unit)) :=
  [⟨t0, .acquire⟩, ⟨t0, .pause⟩, ⟨t0, .pause⟩, ⟨t0, .signal ()⟩, ⟨t0, .pause⟩, ⟨t0, .pause⟩,
    ⟨t0, .broadcast ()⟩]

end Coursework.Nachos.Monitor
