import Coursework.Nachos.Driver

/-!
# One request at a time

The lock and the semaphore cut a run into rounds: a request, its interrupt, and then the caller
comes out of `P`. At every moment the semaphore has one unit exactly between the interrupt and
that.
-/
namespace Coursework.Nachos.Driver
open Finset

variable {Tid D Q E R : Type} [DecidableEq Tid]

/-- Where in a round a history ends. -/
inductive Phase where
  | free
  | requested (n : ℕ)
  | done (n : ℕ)

/-- Histories that are rounds; a call that has passed may return at any time after that. -/
inductive Rounds : Phase → List (Seen Tid Q R) → Prop where
  | nil : Rounds .free []
  | requested {l t n q r} (h : Rounds .free l) : Rounds (.requested n) (l ++ [.requested t n q r])
  | done {l n} (h : Rounds (.requested n) l) : Rounds (.done n) (l ++ [.done n])
  | passed {l t n} (h : Rounds (.done n) l) : Rounds .free (l ++ [.passed t n])
  | returned {p l t n q r} (h : Rounds p l) : Rounds p (l ++ [.returned t n q r])

/-- The lock is held from the return of its `P` to its `V`. -/
def Pc.holds : Pc Q R → ℕ
  | .outside _ | .acquireP _ => 0
  | _ => 1

/-- The request that a thread in `P` waits for. -/
def Pc.waiting : Pc Q R → Option ℕ
  | .waitP n _ _ => some n
  | _ => none

/-- The request that a thread is going to make. -/
def Pc.wants : Pc Q R → Option Q
  | .acquireP q | .acquireSet q | .request q => some q
  | _ => none

/-- Devices that take every valid request in a state that is ready, and are ready after every
interrupt. -/
structure Serves (dev : Device D Q E R) (Valid : Q → Prop) (Ready : D → Prop) : Prop where
  request : ∀ d q e, Ready d → Valid q → (dev.request d q e).isSome
  finish : ∀ d, Ready (dev.finish d)

/-- The requests of the callers are valid. -/
def Event.Valid (Valid : Q → Prop) : Event Tid Q E → Prop
  | .call _ q => Valid q
  | _ => True

instance (Valid : Q → Prop) [DecidablePred Valid] :
    (e : Event Tid Q E) → Decidable (e.Valid Valid)
  | .call _ q => inferInstanceAs (Decidable (Valid q))
  | .step _ _ | .interrupt _ => inferInstanceAs (Decidable True)

namespace State

/-- What the state says about the phase of the round. -/
def Matches (s : State Tid D Q R) : Phase → Prop
  | .free => (∀ t, (s.pc t).waiting = none) ∧ s.scheduled = [] ∧ s.done.value = 0
  | .requested n => (∃ t, (s.pc t).waiting = some n) ∧ s.scheduled = [n] ∧ s.done.value = 0
  | .done n => (∃ t, (s.pc t).waiting = some n) ∧ s.scheduled = [] ∧ s.done.value = 1

variable {s s' : State Tid D Q R} {t u : Tid} {x : Pc Q R} {p : Phase} {n : ℕ}

theorem goto_pc : (s.goto t x).pc = Function.update s.pc t x := rfl

theorem Matches.keep (hp : s.Matches p) (hpc : s'.pc = Function.update s.pc t x)
    (hx : x.waiting = (s.pc t).waiting) (hs : s'.scheduled = s.scheduled)
    (hd : s'.done.value = s.done.value) : s'.Matches p := by
  have hwait (u : Tid) : (s'.pc u).waiting = (s.pc u).waiting := by
    rw [hpc]
    by_cases hu : u = t
    · rw [hu, Function.update_self, hx]
    · rw [Function.update_of_ne hu]
  cases p with
  | free => exact ⟨fun u => (hwait u).trans (hp.1 u), hs.trans hp.2.1, hd.trans hp.2.2⟩
  | requested n | done n =>
    obtain ⟨⟨u, hu⟩, hrest⟩ := hp
    exact ⟨⟨u, (hwait u).trans hu⟩, hs.trans hrest.1, hd.trans hrest.2⟩

omit [DecidableEq Tid] in
theorem Matches.value (hp : s.Matches p) : s.done.value = 0 ∨ s.done.value = 1 := by
  cases p with
  | free | requested => exact .inl hp.2.2
  | done => exact .inr hp.2.2

end State

/-! ### The invariant -/

section Fintype
variable [Fintype Tid] {dev : Device D Q E R} {Valid : Q → Prop} {Ready : D → Prop}
  {s s' : State Tid D Q R} {t u : Tid} {x : Pc Q R} {p : Phase} {n : ℕ} {e : Event Tid Q E}
  {h l : List (Seen Tid Q R)}

structure Inv (Valid : Q → Prop) (Ready : D → Prop) (s : State Tid D Q R)
    (h : List (Seen Tid Q R)) : Prop where
  nonneg : 0 ≤ s.lock.sema.value
  token : s.lock.sema.value + ((∑ t, (s.pc t).holds : ℕ) : ℤ) = 1
  rounds : ∃ p, Rounds p h ∧ s.Matches p
  ready : s.scheduled = [] → Ready s.device
  valid : ∀ t, ∀ q ∈ (s.pc t).wants, Valid q
  fine : ∀ t, s.pc t ≠ .assertFailed

omit [DecidableEq Tid] in
/-- Two threads that hold the lock are one. -/
theorem Inv.holder_unique (hi : Inv Valid Ready s h) (ht : 0 < (s.pc t).holds)
    (hu : 0 < (s.pc u).holds) : u = t := by
  have hone := hi.token
  have hpos := hi.nonneg
  exact eq_of_sum_weight_le_one (w := Pc.holds) (by omega) hu ht

theorem Pc.holds_of_waiting (hx : x.waiting = some n) : 0 < x.holds := by
  cases x with
  | waitP => exact Nat.one_pos
  | _ => cases hx

omit [DecidableEq Tid] in
/-- While a thread holds the lock no other one waits for an interrupt. -/
theorem Inv.waiting_of_ne (hi : Inv Valid Ready s h) (ht : 0 < (s.pc t).holds) (hu : u ≠ t) :
    (s.pc u).waiting = none := by
  cases hw : (s.pc u).waiting with
  | none => rfl
  | some m => exact absurd (hi.holder_unique ht (Pc.holds_of_waiting hw)) hu

/-- A step of thread `t` keeps what is not about the lock and not about a round. -/
theorem Inv.step_keep (hi : Inv Valid Ready s h) (hpc : s'.pc = Function.update s.pc t x)
    (hnonneg : 0 ≤ s'.lock.sema.value)
    (htoken : s'.lock.sema.value + (x.holds : ℤ) = s.lock.sema.value + ((s.pc t).holds : ℤ))
    (hx : ∀ q ∈ x.wants, Valid q) (hfine : x ≠ .assertFailed)
    (hrounds : ∃ p, Rounds p (h ++ l) ∧ s'.Matches p)
    (hready : s'.scheduled = [] → Ready s'.device) : Inv Valid Ready s' (h ++ l) where
  nonneg := hnonneg
  token := by
    have hsum := sum_update Pc.holds s.pc t x
    have hone := hi.token
    rw [← hpc] at hsum
    omega
  rounds := hrounds
  ready := hready
  valid := by
    rw [hpc, Function.forall_update_iff s.pc fun _ pc => ∀ q ∈ pc.wants, Valid q]
    exact ⟨hx, fun u _ => hi.valid u⟩
  fine := by
    rw [hpc, Function.forall_update_iff s.pc fun _ pc => pc ≠ .assertFailed]
    exact ⟨hfine, fun u _ => hi.fine u⟩

/-- A step of thread `t` inside a part of a round. -/
theorem Inv.step_inside (hi : Inv Valid Ready s h) (hpc : s'.pc = Function.update s.pc t x)
    (hnonneg : 0 ≤ s'.lock.sema.value)
    (htoken : s'.lock.sema.value + (x.holds : ℤ) = s.lock.sema.value + ((s.pc t).holds : ℤ))
    (hx : ∀ q ∈ x.wants, Valid q) (hfine : x ≠ .assertFailed)
    (hwaiting : x.waiting = (s.pc t).waiting) (hsched : s'.scheduled = s.scheduled)
    (hdone : s'.done.value = s.done.value) (hdevice : s'.device = s.device) :
    Inv Valid Ready s' (h ++ []) := by
  obtain ⟨p, hr, hp⟩ := hi.rounds
  apply hi.step_keep hpc hnonneg htoken hx hfine
  · rw [List.append_nil]
    exact ⟨p, hr, hp.keep hpc hwaiting hsched hdone⟩
  · rw [hsched, hdevice]
    exact hi.ready

omit [DecidableEq Tid] in
/-- A thread that is about to make a request finds no other request. -/
theorem Inv.free_of_request (hi : Inv Valid Ready s h) {q : Q} (hpc : s.pc t = .request q) :
    Rounds .free h ∧ s.Matches .free := by
  obtain ⟨p, hr, hp⟩ := hi.rounds
  have hno (n : ℕ) (hw : ∃ u, (s.pc u).waiting = some n) : False := by
    obtain ⟨u, hu⟩ := hw
    have hholds : 0 < (s.pc t).holds := by
      rw [hpc]
      exact Nat.one_pos
    rw [hi.holder_unique hholds (Pc.holds_of_waiting hu), hpc] at hu
    cases hu
  cases p with
  | free => exact ⟨hr, hp⟩
  | requested n | done n => exact absurd hp.1 (hno n)

omit [DecidableEq Tid] in
/-- A thread comes out of `P` after the interrupt for its own request. -/
theorem Inv.done_of_pass (hi : Inv Valid Ready s h) {q : Q} {r : R} (hpc : s.pc t = .waitP n q r)
    (hv : s.done.value ≠ 0) : Rounds (.done n) h ∧ s.Matches (.done n) := by
  obtain ⟨p, hr, hp⟩ := hi.rounds
  cases p with
  | free | requested m => exact absurd hp.2.2 hv
  | done m =>
    obtain ⟨u, hu⟩ := hp.1
    have hholds : 0 < (s.pc t).holds := by
      rw [hpc]
      exact Nat.one_pos
    rw [hi.holder_unique hholds (Pc.holds_of_waiting hu), hpc] at hu
    cases hu
    exact ⟨hr, hp⟩

theorem inv_step (hserve : Serves dev Valid Ready) (hi : Inv Valid Ready s h)
    (hvalid : e.Valid Valid) (hs : State.Steps dev s e l s') : Inv Valid Ready s' (h ++ l) := by
  have hnonneg := hi.nonneg
  have hwants := hi.valid
  cases hs with
  | @call t q last hpc =>
    refine hi.step_inside rfl hnonneg ?_ ?_ nofun ?_ rfl rfl rfl
    · rw [hpc]
      rfl
    · rintro q' ⟨⟩
      exact hvalid
    · rw [hpc]
      rfl
  | @acquireSleep t env q hpc hv =>
    have hq := hwants t
    rw [hpc] at hq
    refine hi.step_inside rfl hnonneg ?_ hq nofun ?_ rfl rfl rfl
    · rw [hpc]
      rfl
    · rw [hpc]
  | @acquirePass t env q hpc hv =>
    have hq := hwants t
    rw [hpc] at hq
    refine hi.step_inside rfl ?_ ?_ hq nofun ?_ rfl rfl rfl
    · simp only [State.goto]
      omega
    · rw [hpc]
      simp [State.goto, Pc.holds]
    · rw [hpc]
      rfl
  | @acquireSet t env q hpc =>
    have hq := hwants t
    rw [hpc] at hq
    refine hi.step_inside rfl hnonneg ?_ hq nofun ?_ rfl rfl rfl
    · rw [hpc]
      rfl
    · rw [hpc]
      rfl
  | @requestFail t env q hpc hreq =>
    have hsome := hserve.request s.device q env (hi.ready (hi.free_of_request hpc).2.2.1)
      (hwants t q (by rw [hpc]; rfl))
    rw [hreq] at hsome
    cases hsome
  | @request t env q d r hpc hreq =>
    obtain ⟨hfree, hnone, hsched, hzero⟩ := hi.free_of_request hpc
    refine hi.step_keep rfl hnonneg ?_ nofun nofun ⟨.requested s.issued, .requested hfree, ?_⟩ ?_
    · rw [hpc]
      rfl
    · refine ⟨⟨t, ?_⟩, ?_, hzero⟩
      · rw [State.goto_pc, Function.update_self]
        rfl
      · simp [State.goto, hsched]
    · simp [State.goto]
  | @waitSleep t env n q r hpc hv =>
    refine hi.step_inside rfl hnonneg ?_ nofun nofun ?_ rfl rfl rfl
    · rw [hpc]
      rfl
    · rw [hpc]
  | @waitPass t env n q r hpc hv =>
    obtain ⟨hdone, -, hsched, hone⟩ := hi.done_of_pass hpc hv
    refine hi.step_keep rfl hnonneg ?_ nofun nofun ⟨.free, .passed hdone, ?_, hsched, ?_⟩ hi.ready
    · rw [hpc]
      rfl
    · intro u
      rw [State.goto_pc]
      by_cases hu : u = t
      · rw [hu, Function.update_self]
        rfl
      · rw [Function.update_of_ne hu]
        apply hi.waiting_of_ne ?_ hu
        rw [hpc]
        exact Nat.one_pos
    · simp [State.goto, hone]
  | @release t env n q r hpc =>
    refine hi.step_inside rfl hnonneg ?_ nofun nofun ?_ rfl rfl rfl
    · rw [hpc]
      rfl
    · rw [hpc]
      rfl
  | @releaseV t env n q r hpc =>
    obtain ⟨p, hr, hp⟩ := hi.rounds
    refine hi.step_keep rfl ?_ ?_ nofun nofun ⟨p, .returned hr, hp.keep rfl ?_ rfl rfl⟩ hi.ready
    · simp only [State.goto, Semaphore.V]
      omega
    · rw [hpc]
      simp [State.goto, Semaphore.V, Pc.holds]
    · rw [hpc]
      rfl
  | @interrupt n hn =>
    obtain ⟨p, hr, hp⟩ := hi.rounds
    refine ⟨hnonneg, hi.token, ?_, fun _ => hserve.finish _, hwants, hi.fine⟩
    cases p with
    | free | done m =>
      rw [hp.2.1] at hn
      cases hn
    | requested m =>
      obtain ⟨hw, hsched, hzero⟩ := hp
      rw [hsched, List.mem_singleton] at hn
      subst hn
      refine ⟨.done n, .done hr, hw, ?_, ?_⟩
      · simp [hsched]
      · simp [Semaphore.V, hzero]

/-- Runs of valid calls are cut into rounds. -/
theorem inv_reach {d0 : D → Prop} (hserve : Serves dev Valid Ready) (h0 : ∀ d, d0 d → Ready d)
    {ok : State Tid D Q R × List (Seen Tid Q R) → Event Tid Q E → Prop}
    (hok : ∀ p e, ok p e → e.Valid Valid) {p : State Tid D Q R × List (Seen Tid Q R)}
    (hr : ((machine dev d0).observe (State.seen dev)).Reach ok p) : Inv Valid Ready p.1 p.2 := by
  apply hr.invariant (fun p => Inv Valid Ready p.1 p.2)
  · rintro ⟨s, l⟩ ⟨hs, rfl⟩
    have hs : Start d0 s := hs
    have hnobody : ∑ t, (s.pc t).holds = 0 := by
      apply Finset.sum_eq_zero
      intro t _
      rw [hs.pc t]
      rfl
    refine ⟨?_, ?_, ⟨.free, .nil, ?_, hs.scheduled, ?_⟩, fun _ => h0 _ hs.device, ?_, ?_⟩
    · rw [hs.lock]
      exact Int.one_nonneg
    · rw [hs.lock, hnobody]
      rfl
    · intro t
      rw [hs.pc t]
      rfl
    · rw [hs.done]
    · intro t q hq
      rw [hs.pc t] at hq
      cases hq
    · intro t ht
      rw [hs.pc t] at ht
      cases ht
  · intro p e p' _ hi hpe hs
    obtain ⟨hstep, hseen⟩ := Machine.observe_step.mp hs
    rw [hseen]
    exact inv_step hserve hi (hok p e hpe) (State.steps_of_step hstep)

end Fintype
end Coursework.Nachos.Driver
