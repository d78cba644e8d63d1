import Coursework.Nachos.Monitor.Credit

/-!
# Waiters that wait for different things

Each waiter on a condition has a test of its own, given by the location where it goes on.
A wakeup that goes to a waiter whose test fails is lost to the others. The law of
such a client is that whoever gives up the last wakeup leaves nobody waiting whose test
would succeed. On the runs whose steps keep this law nobody is stranded.
-/
namespace Coursework.Nachos.Monitor
open Finset

variable {Tid C K D I : Type} [DecidableEq Tid] [DecidableEq C]

/-- A thread that has called `Wait` on `c` and has not been let through its `P`. -/
def Thread.waits (c : C) (x : Thread C K) : Bool :=
  match x.pc with
  | .releaseV (.waitP y _) | .waitP y _ => y = c
  | _ => false

/-- Who goes on at `k` finds its test true of the data. -/
abbrev Test (K D : Type) := D → K → Bool

/-- Somebody waits on `c` whose test is true of `d`. -/
def State.Wanted (c : C) (test : Test K D) (s : State Tid C K D) (d : D) : Prop :=
  ∃ t, (s.thread t).waits c = true ∧ test d (s.locs t) = true

instance [Fintype Tid] (c : C) (test : Test K D) (s : State Tid C K D) (d : D) :
    Decidable (s.Wanted c test d) :=
  inferInstanceAs (Decidable (∃ _, _))

/-- The code waits only where its test fails and comes back with a wakeup, and where it has
no wakeup it makes a test true only by a signal. -/
def WaitsFor (code : Code C K D I) (test : Test K D) (c : C) (w : K → ℕ) : Prop :=
  ∀ ⦃k d i x k' d'⦄, code k d i = some (x, k', d') →
    (x = .wait c → test d' k' = false ∧ 1 ≤ w k') ∧
      (1 ≤ w k ∨ 1 ≤ x.credit c w k' ∨ ∀ l, test d' l = true → test d l = true)

/-- A step that gives up the last wakeup of `c` leaves nobody waiting whose test is true. -/
def State.KeepsWakeup [Fintype Tid] (code : Code C K D I) (test : Test K D) (c : C) (w : K → ℕ)
    (s : State Tid C K D) (e : Event Tid I) : Prop :=
  ∀ ⦃k x k' d'⦄, (s.thread e.tid).pc = .client k → code k s.data e.input = some (x, k', d') →
    1 ≤ w k → x.credit c w k' = 0 → s.wakeups c w ≤ w k → ¬ s.Wanted c test d'

variable {code : Code C K D I} {d0 : D → Prop} {k0 : K}
  {ok : State Tid C K D → Event Tid I → Prop} {test : Test K D} {c : C} {w : K → ℕ}
  {s s' : State Tid C K D} {e : Event Tid I} {t : Tid}

/-- Whoever waits after a call and did not before has made it. -/
theorem Wanted.of_call {k' : K} {d : D} {x : Call C}
    (hx : x = .wait c → test d k' = false)
    (h : ({ s with data := d }.call e.tid k' x).Wanted c test d) : s.Wanted c test d := by
  rcases h with ⟨t, ht, htest⟩
  rw [State.locs_call] at htest
  rw [State.call_thread] at ht
  by_cases hte : t = e.tid
  · subst hte
    rw [Function.update_self] at ht htest
    cases x with
    | wait y =>
      have hy : y = c := by simpa [Thread.waits, Call.start] using ht
      rw [hx (by rw [hy])] at htest
      cases htest
    | acquire | release | signal | broadcast | pause => cases ht
  · rw [Function.update_of_ne hte] at ht htest
    exact ⟨t, ht, htest⟩

theorem waits_of_update {u : Tid} {x : Thread C K}
    (hs : s'.thread = Function.update s.thread u x)
    (hx : x.waits c = true → (s.thread u).waits c = true) (ht : (s'.thread t).waits c = true) :
    (s.thread t).waits c = true := by
  rw [hs] at ht
  by_cases htu : t = u
  · subst htu
    rw [Function.update_self] at ht
    exact hx ht
  · rwa [Function.update_of_ne htu] at ht

theorem waits_kernel (hkernel : ∀ k, (s.thread e.tid).pc ≠ .client k)
    (h : State.Steps code s e s') (ht : (s'.thread t).waits c = true) :
    (s.thread t).waits c = true := by
  cases h with
  | client hpc => exact absurd hpc (hkernel _)
  | @releaseV a hpc =>
    cases a with
    | client | waitP => exact waits_of_update rfl (by simp [Thread.waits, After.pc, hpc]) ht
  | acquireSleep hpc | acquirePass hpc | acquireSet hpc | waitSleep hpc | waitPass hpc
  | waitInc hpc | signalV hpc | signalDec hpc | bcastExit hpc | bcastLoop hpc | bcastV hpc
  | bcastDec hpc => exact waits_of_update rfl (by simp [Thread.waits, hpc]) ht

variable [Fintype Tid]

theorem wanted_step (hw : WaitsFor code test c w) (hpos : 0 ≤ (s.cond c).sema.value)
    (hret : ∀ u, (s.thread u).Retests c w) (hkeep : s.KeepsWakeup code test c w e)
    (hi : s.Wanted c test s.data → 1 ≤ s.wakeups c w) (h : State.Steps code s e s') :
    s'.Wanted c test s'.data → 1 ≤ s'.wakeups c w := by
  intro hwant
  rcases State.client_or_kernel h with ⟨k, x, k', d, hpc, hcode, rfl⟩ | hkernel
  · obtain ⟨hwait, hpay⟩ := hw hcode
    have hcall := wakeups_call c w d k' x hpc
    have hold : s.Wanted c test d := by
      rw [State.call_data] at hwant
      exact Wanted.of_call (fun hx => (hwait hx).1) hwant
    have hmine : w k ≤ s.wakeups c w := by
      have hle := s.le_weight (Thread.credit c w) e.tid
      rw [Thread.credit, hpc, Pc.credit] at hle
      rw [State.wakeups]
      omega
    by_cases hcredit : x.credit c w k' = 0
    · by_cases hk : 1 ≤ w k
      · have hlast : ¬ s.wakeups c w ≤ w k := fun hle => hkeep hpc hcode hk hcredit hle hold
        omega
      · have hsame : s.Wanted c test s.data := by
          rcases hold with ⟨t, ht, htest⟩
          rcases hpay with hpay | hpay | hpay
          · exact absurd hpay hk
          · omega
          · exact ⟨t, ht, hpay _ htest⟩
        have hone := hi hsame
        omega
    · omega
  · obtain ⟨hdata, hlocs⟩ := State.kernel_keep hkernel h
    have hmono := wakeups_kernel hret hkernel h
    apply (hi ?_).trans hmono
    rcases hwant with ⟨t, ht, htest⟩
    rw [hdata, hlocs] at htest
    exact ⟨t, waits_kernel hkernel h ht, htest⟩

/-- A step that breaks the law leaves somebody waiting whose test is true, and no wakeup. -/
theorem lost_of_not_keepsWakeup (hlaw : ¬ s.KeepsWakeup code test c w e)
    (hs : s.step code e = some s') : s'.Wanted c test s'.data ∧ s'.wakeups c w ≤ 0 := by
  simp only [State.KeepsWakeup, not_forall, not_not] at hlaw
  rcases hlaw with ⟨k, x, k', d, hpc, hcode, -, hcredit, hlast, t, ht, htest⟩
  rw [State.step, hpc] at hs
  simp only [hcode, Option.map_some, Option.some.injEq] at hs
  subst hs
  have hother : t ≠ e.tid := by
    rintro rfl
    simp [Thread.waits, hpc] at ht
  constructor
  · refine ⟨t, ?_, ?_⟩
    · rwa [State.call_thread, Function.update_of_ne hother]
    · rwa [State.call_data, State.locs_call, Function.update_of_ne hother]
  · have hcall := wakeups_call c w d k' x hpc
    omega

omit [Fintype Tid] in
theorem retests (hw : WaitsFor code test c w) (hr : (machine code d0 k0).Reach ok s) :
    ∀ u, (s.thread u).Retests c w := by
  apply hr.invariant (fun s => ∀ u, (s.thread u).Retests c w)
  · intro s hs u
    rw [hs.thread u]
    trivial
  · intro s e s' _ hi _ hs
    exact retests_step (fun k x k' d _ hcode hx => ((hw hcode).1 hx).2) hi (State.steps_of_step hs)

/-- On the runs that keep the law, whoever waits with a true test has a wakeup under way. -/
theorem wakeup_of_wanted (hw : WaitsFor code test c w)
    (hkeep : ∀ s e, ok s e → s.KeepsWakeup code test c w e)
    (hr : (machine code d0 k0).Reach ok s) (hwant : s.Wanted c test s.data) :
    1 ≤ s.wakeups c w := by
  revert hwant
  apply hr.invariant (fun s => s.Wanted c test s.data → 1 ≤ s.wakeups c w)
  · rintro s hs ⟨t, ht, -⟩
    rw [hs.thread t] at ht
    cases ht
  · intro s e s' hr hi hse hs
    exact wanted_step hw (cond_ok hr c).nonneg (retests hw hr) (hkeep s e hse) hi
      (State.steps_of_step hs)

/-- When everybody sleeps or is outside and the lock is free, the tests of the threads that
sleep on `c` are false. -/
theorem test_false_of_asleep {outside : K → Bool} (hw : WaitsFor code test c w)
    (hkeep : ∀ s e, ok s e → s.KeepsWakeup code test c w e) (hout : ∀ k, outside k = true → w k = 0)
    (hr : (machine code d0 k0).Reach ok s) (hq : s.Quiet outside) (hfree : 0 < s.lock.sema.value)
    (ht : t ∈ (s.cond c).sema.queue) : test s.data (s.locs t) = false := by
  have hnone := wakeups_of_quiet hout hr hq hfree (List.ne_nil_of_mem ht)
  have hwaits : (s.thread t).waits c = true := by
    have hin := (cond_ok hr c).asleep t ht
    rw [State.inWait, mem_having, Thread.inWait] at hin
    split at hin
    case h_1 y k hpc => simpa [Thread.waits, hpc] using hin
    case h_2 => cases hin
  apply Bool.eq_false_iff.mpr
  intro htest
  have hone := wakeup_of_wanted hw hkeep hr ⟨t, hwaits, htest⟩
  omega

end Coursework.Nachos.Monitor
