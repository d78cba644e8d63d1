import Coursework.Nachos.Monitor

/-!
# Invariants of locks and condition variables under any client

The semaphores of a lock and of its conditions lose no wakeup whatever the client
does. When every `Release` and `Wait` is called by an owner of the lock, the
semaphore's value, the owners and the threads on their way in or out of the lock
account for exactly one unit, and this is mutual exclusion.
-/
namespace Coursework.Nachos.Monitor
open Finset

variable {Tid C K D I : Type} [DecidableEq Tid] [DecidableEq C]

def Thread.inAcquire (x : Thread C K) : Bool :=
  match x.pc with
  | .acquireP _ => true
  | _ => false

def Thread.inWait (c : C) (x : Thread C K) : Bool :=
  match x.pc with
  | .waitP y _ => y = c
  | _ => false

def Call.isRelease : Call C → Bool
  | .release | .wait _ => true
  | _ => false

def Call.needsLock : Call C → Bool
  | .release | .wait _ | .signal _ | .broadcast _ => true
  | _ => false

/-- A thread that has just made a call and goes on at `k` after it. -/
def Call.start (k : K) (owns : Bool) : Call C → Thread C K
  | .acquire => ⟨.acquireP k, owns⟩
  | .release => ⟨.releaseV (.client k), false⟩
  | .wait c => ⟨.releaseV (.waitP c k), false⟩
  | .signal c => ⟨.signalV c k, owns⟩
  | .broadcast c => ⟨.bcastTest c k, owns⟩
  | .pause => ⟨.client k, owns⟩

def Pc.inBroadcast : Pc C K → Bool
  | .bcastTest _ _ | .bcastV _ _ | .bcastDec _ _ => true
  | _ => false

/-- `Signal` and `Broadcast` are run by owners of the lock. -/
def Thread.OpHeld (x : Thread C K) : Prop :=
  match x.pc with
  | .signalV _ _ | .signalDec _ _ => x.owns = true
  | .bcastTest _ _ | .bcastV _ _ | .bcastDec _ _ => x.owns = true
  | _ => True

/-- Units of the lock's semaphore that a thread accounts for. -/
def Thread.tokens (x : Thread C K) : ℕ :=
  x.owns.toNat +
    match x.pc with
    | .acquireSet _ => 1
    | .releaseV _ => 1
    | _ => 0

namespace State
variable {s s' : State Tid C K D} {e : Event Tid I} {t : Tid} {c : C} {k : K}

section
omit [DecidableEq C]

@[simp] theorem goto_thread (pc : Pc C K) :
    (s.goto t pc).thread = Function.update s.thread t ⟨pc, (s.thread t).owns⟩ := rfl

@[simp] theorem goto_lock (pc : Pc C K) : (s.goto t pc).lock = s.lock := rfl

@[simp] theorem goto_cond (pc : Pc C K) : (s.goto t pc).cond = s.cond := rfl

@[simp] theorem goto_data (pc : Pc C K) : (s.goto t pc).data = s.data := rfl

end

section
omit [DecidableEq Tid] [DecidableEq C]

@[simp] theorem setSema_thread (S : Semaphore Tid) : (s.setSema S).thread = s.thread := rfl

@[simp] theorem setSema_sema (S : Semaphore Tid) : (s.setSema S).lock.sema = S := rfl

@[simp] theorem setSema_cond (S : Semaphore Tid) : (s.setSema S).cond = s.cond := rfl

@[simp] theorem setSema_data (S : Semaphore Tid) : (s.setSema S).data = s.data := rfl

@[simp] theorem setSema_holder (S : Semaphore Tid) :
    (s.setSema S).lock.threadHoldLock = s.lock.threadHoldLock := rfl

end

section
omit [DecidableEq Tid]

@[simp] theorem setCond_thread (x : Condition Tid) : (s.setCond c x).thread = s.thread := rfl

@[simp] theorem setCond_lock (x : Condition Tid) : (s.setCond c x).lock = s.lock := rfl

@[simp] theorem setCond_data (x : Condition Tid) : (s.setCond c x).data = s.data := rfl

@[simp] theorem setCond_cond (x : Condition Tid) :
    (s.setCond c x).cond = Function.update s.cond c x := rfl

end

section
omit [DecidableEq C]

@[simp] theorem release_thread (a : After C K) :
    (s.release t a).thread = Function.update s.thread t ⟨.releaseV a, false⟩ := rfl

@[simp] theorem release_sema (a : After C K) : (s.release t a).lock.sema = s.lock.sema := rfl

@[simp] theorem release_holder (a : After C K) :
    (s.release t a).lock.threadHoldLock = none := rfl

@[simp] theorem release_cond (a : After C K) : (s.release t a).cond = s.cond := rfl

@[simp] theorem release_data (a : After C K) : (s.release t a).data = s.data := rfl

@[simp] theorem hold_thread :
    (s.hold t k).thread = Function.update s.thread t ⟨.client k, true⟩ := rfl

@[simp] theorem hold_sema : (s.hold t k).lock.sema = s.lock.sema := rfl

@[simp] theorem hold_holder : (s.hold t k).lock.threadHoldLock = some t := rfl

@[simp] theorem hold_cond : (s.hold t k).cond = s.cond := rfl

@[simp] theorem hold_data : (s.hold t k).data = s.data := rfl

@[simp] theorem call_sema (x : Call C) : (s.call t k x).lock.sema = s.lock.sema := by
  cases x <;> rfl

@[simp] theorem call_cond (x : Call C) : (s.call t k x).cond = s.cond := by
  cases x <;> rfl

@[simp] theorem call_data (x : Call C) : (s.call t k x).data = s.data := by
  cases x <;> rfl

@[simp] theorem call_thread (x : Call C) :
    (s.call t k x).thread = Function.update s.thread t (x.start k (s.thread t).owns) := by
  cases x <;> rfl

/-- One thread changes, and what held of every thread holds of its new state. -/
theorem forall_thread {P : Thread C K → Prop} {x : Thread C K} (hi : ∀ u, P (s.thread u))
    (ht : s'.thread = Function.update s.thread t x) (hx : P x) : ∀ u, P (s'.thread u) := by
  rw [ht]
  exact (Function.forall_update_iff s.thread fun _ => P).mpr ⟨hx, fun u _ => hi u⟩

end

/-- The call a client thread makes in this step, if the step is one of client code. -/
def callOf (code : Code C K D I) (s : State Tid C K D) (e : Event Tid I) : Option (Call C) :=
  match (s.thread e.tid).pc with
  | .client k => (code k s.data e.input).map (·.1)
  | _ => none

omit [DecidableEq Tid] [DecidableEq C] in
theorem callOf_eq {code : Code C K D I} {k' : K} {d : D} {x : Call C}
    (hpc : (s.thread e.tid).pc = .client k) (hcode : code k s.data e.input = some (x, k', d)) :
    s.callOf code e = some x := by
  simp [callOf, hpc, hcode]

variable [Fintype Tid]

def weight (w : Thread C K → ℕ) (s : State Tid C K D) : ℕ := ∑ t, w (s.thread t)

omit [DecidableEq C] in
theorem weight_update {w : Thread C K → ℕ} {x : Thread C K}
    (ht : s'.thread = Function.update s.thread t x) :
    s'.weight w + w (s.thread t) = s.weight w + w x := by
  rw [weight, ht]
  exact sum_update w s.thread t x

omit [DecidableEq Tid] [DecidableEq C] in
theorem le_weight (w : Thread C K → ℕ) (t : Tid) : w (s.thread t) ≤ s.weight w :=
  le_sum_weight w s.thread t

/-! ### Each step as the semaphores see it -/

/-- Threads in the loop of the `P` of `Acquire`. -/
def inAcquire (s : State Tid C K D) : Finset Tid := having Thread.inAcquire s.thread

/-- Threads in the loop of the `P` of `Wait`. -/
def inWait (s : State Tid C K D) (c : C) : Finset Tid := having (Thread.inWait c) s.thread

/-- What a step does to the semaphore of condition `c`. -/
def condLabel (s : State Tid C K D) (c : C) (e : Event Tid I) : Semaphore.Label :=
  match (s.thread e.tid).pc with
  | .releaseV (.waitP x _) => if x = c then .enter else .silent
  | .waitP x _ =>
    if x = c ∧ e.tid ∉ (s.cond c).sema.queue ∧ (s.cond c).sema.value ≠ 0 then .pass else .silent
  | .signalV x _ | .bcastV x _ => if x = c then .v else .silent
  | _ => .silent

theorem lock_act {code : Code C K D I} (h : Steps code s e s') :
    ∃ a, s.lock.sema.Act e.tid s.inAcquire a s'.lock.sema s'.inAcquire := by
  cases h with
  | @client k k' d x hpc hcode =>
    cases x with
    | acquire => exact ⟨_, .of_enter rfl rfl (by simp [hpc, Thread.inAcquire]) rfl rfl⟩
    | release | wait | signal | broadcast | pause =>
      exact ⟨_, .of_keep rfl (by simp [hpc, Thread.inAcquire]) rfl rfl⟩
  | acquireSleep hpc hq hv =>
    exact ⟨_, .of_sleep rfl rfl (by simp [hpc, Thread.inAcquire]) hq hv rfl rfl⟩
  | acquirePass hpc hq hv =>
    exact ⟨_, .of_pass rfl rfl (by simp [hpc, Thread.inAcquire]) hq hv rfl rfl⟩
  | @releaseV a hpc =>
    exact ⟨_, .of_v rfl (by cases a <;> simp [hpc, Thread.inAcquire, After.pc]) rfl rfl⟩
  | waitInc hpc => exact ⟨_, .of_enter rfl rfl (by simp [hpc, Thread.inAcquire]) rfl rfl⟩
  | acquireSet hpc | waitSleep hpc | waitPass hpc | signalV hpc | signalDec hpc | bcastExit hpc
  | bcastLoop hpc | bcastV hpc | bcastDec hpc =>
    exact ⟨_, .of_keep rfl (by simp [hpc, Thread.inAcquire]) rfl rfl⟩

theorem cond_act {code : Code C K D I} (c : C) (h : Steps code s e s') :
    (s.cond c).sema.Act e.tid (s.inWait c) (s.condLabel c e) (s'.cond c).sema (s'.inWait c) := by
  cases h with
  | @client k k' d x hpc hcode =>
    cases x with
    | acquire | release | wait | signal | broadcast | pause =>
      exact .of_keep rfl (by simp [hpc, Thread.inWait]) rfl (by simp [condLabel, hpc])
  | @releaseV a hpc =>
    cases a with
    | client k =>
      exact .of_keep rfl (by simp [hpc, Thread.inWait, After.pc]) rfl (by simp [condLabel, hpc])
    | waitP x k =>
      by_cases hc : x = c
      · exact .of_enter rfl (by simp [hc, Thread.inWait, After.pc]) (by simp [hpc, Thread.inWait])
          rfl (by simp [condLabel, hpc, hc])
      · exact .of_keep rfl (by simp [hpc, hc, Thread.inWait, After.pc]) rfl
          (by simp [condLabel, hpc, hc])
  | @waitSleep x k hpc hq hv =>
    by_cases hc : x = c
    · subst hc
      exact .of_sleep rfl (by simp [Thread.inWait]) (by simp [hpc, Thread.inWait]) hq hv (by simp)
        (by simp [condLabel, hpc, hv])
    · exact .of_keep rfl (by simp [hpc, Thread.inWait]) (by simp [Ne.symm hc])
        (by simp [condLabel, hpc, hc])
  | @waitPass x k hpc hq hv =>
    by_cases hc : x = c
    · subst hc
      exact .of_pass rfl rfl (by simp [hpc, Thread.inWait]) hq hv (by simp)
        (by simp [condLabel, hpc, hq, hv])
    · exact .of_keep rfl (by simp [hpc, hc, Thread.inWait]) (by simp [Ne.symm hc])
        (by simp [condLabel, hpc, hc])
  | @signalV x k hpc | @bcastV x k hpc =>
    by_cases hc : x = c
    · subst hc
      exact .of_v rfl (by simp [hpc, Thread.inWait]) (by simp) (by simp [condLabel, hpc])
    · exact .of_keep rfl (by simp [hpc, Thread.inWait]) (by simp [Ne.symm hc])
        (by simp [condLabel, hpc, hc])
  | @waitInc x k hpc | @signalDec x k hpc | @bcastDec x k hpc =>
    refine .of_keep rfl (by simp [hpc, Thread.inWait]) ?_ (by simp [condLabel, hpc])
    by_cases hc : x = c
    · simp [hc]
    · simp [Ne.symm hc]
  | acquireSleep hpc | acquirePass hpc | acquireSet hpc | bcastExit hpc | bcastLoop hpc =>
    exact .of_keep rfl (by simp [hpc, Thread.inWait]) rfl (by simp [condLabel, hpc])

/-! ### Mutual exclusion -/

def owns (s : State Tid C K D) (t : Tid) : Bool := (s.thread t).owns

/-- `Release` and `Wait` are called only by owners of the lock. -/
def ReleasesHeld (code : Code C K D I) (s : State Tid C K D) (e : Event Tid I) : Prop :=
  ∀ x ∈ s.callOf code e, x.isRelease = true → (s.thread e.tid).owns = true

omit [DecidableEq C] in
/-- A step that moves units between the semaphore and its own thread keeps their sum. -/
theorem balance_of {x : Thread C K} (ht : s'.thread = Function.update s.thread t x)
    (hx : s'.lock.sema.value + x.tokens = s.lock.sema.value + (s.thread t).tokens) :
    s'.lock.sema.value + s'.weight Thread.tokens =
      s.lock.sema.value + s.weight Thread.tokens := by
  have hw := weight_update (w := Thread.tokens) ht
  omega

instance (code : Code C K D I) (s : State Tid C K D) (e : Event Tid I) :
    Decidable (s.ReleasesHeld code e) :=
  inferInstanceAs (Decidable (∀ x ∈ s.callOf code e, _))

/-- All operations but `Acquire` are called by owners of the lock. -/
def UsesHeld (code : Code C K D I) (s : State Tid C K D) (e : Event Tid I) : Prop :=
  ∀ x ∈ s.callOf code e, x.needsLock = true → s.owns e.tid = true

instance (code : Code C K D I) (s : State Tid C K D) (e : Event Tid I) :
    Decidable (s.UsesHeld code e) :=
  inferInstanceAs (Decidable (∀ x ∈ s.callOf code e, _))

omit [DecidableEq Tid] [DecidableEq C] [Fintype Tid] in
theorem UsesHeld.releasesHeld {code : Code C K D I} (h : s.UsesHeld code e) :
    s.ReleasesHeld code e :=
  fun x hx hr => h x hx (by cases x <;> simp_all [Call.isRelease, Call.needsLock])

omit [Fintype Tid] in
theorem opHeld_step {code : Code C K D I} (hi : ∀ u, (s.thread u).OpHeld)
    (hu : s.UsesHeld code e) (h : Steps code s e s') : ∀ u, (s'.thread u).OpHeld := by
  have hown := hi e.tid
  cases h with
  | @client k k' d x hpc hcode =>
    have hheld := hu x (callOf_eq hpc hcode)
    cases x with
    | acquire | release | wait | pause => exact forall_thread hi rfl trivial
    | signal | broadcast => exact forall_thread hi rfl (hheld rfl)
  | @releaseV a hpc => cases a <;> exact forall_thread hi rfl trivial
  | signalV hpc | bcastLoop hpc | bcastV hpc | bcastDec hpc =>
    rw [Thread.OpHeld, hpc] at hown
    exact forall_thread hi rfl hown
  | acquireSleep | acquirePass | acquireSet | waitSleep | waitPass | waitInc | signalDec
  | bcastExit => exact forall_thread hi rfl trivial

theorem tokens_step {code : Code C K D I} (hpos : 0 ≤ s.lock.sema.value)
    (hi : s.lock.sema.value + s.weight Thread.tokens = 1) (hrel : s.ReleasesHeld code e)
    (h : Steps code s e s') : s'.lock.sema.value + s'.weight Thread.tokens = 1 := by
  rw [← hi]
  cases h with
  | @client k k' d x hpc hcode =>
    have hown := hrel x (callOf_eq hpc hcode)
    cases x with
    | acquire | signal | broadcast | pause =>
      exact balance_of (t := e.tid) rfl (by simp [State.call, Thread.tokens, hpc])
    | release | wait =>
      exact balance_of (t := e.tid) rfl (by simp [State.call, Thread.tokens, hpc, hown rfl])
  | acquirePass hpc =>
    exact balance_of (t := e.tid) rfl (by simp [Thread.tokens, hpc])
  | acquireSet hpc =>
    -- the unit of this thread leaves none for an earlier ownership
    have hle := s.le_weight Thread.tokens e.tid
    have howns : (s.thread e.tid).owns = false := by
      by_contra hne
      simp only [Thread.tokens, hpc, Bool.eq_true_of_not_eq_false hne, Bool.toNat_true] at hle
      omega
    exact balance_of (t := e.tid) rfl (by simp [Thread.tokens, hpc, howns])
  | @releaseV a hpc =>
    cases a with
    | client | waitP =>
      exact balance_of (t := e.tid) rfl
        (by simp [Thread.tokens, hpc, After.pc, Semaphore.V]; omega)
  | acquireSleep hpc | waitSleep hpc | waitPass hpc | waitInc hpc | signalV hpc | signalDec hpc
  | bcastExit hpc | bcastLoop hpc | bcastV hpc | bcastDec hpc =>
    exact balance_of (t := e.tid) rfl (by simp [Thread.tokens, hpc])

/-- What one step does to the holder field, to the owners and to the record of acquisitions. -/
inductive OwnAct (t : Tid) (holder : Option Tid) (owns : Tid → Bool) :
    List Tid → Option Tid → (Tid → Bool) → Prop where
  | keep : OwnAct t holder owns [] holder owns
  | release (ht : owns t = true) : OwnAct t holder owns [] none (Function.update owns t false)
  | hold : OwnAct t holder owns [t] (some t) (Function.update owns t true)

/-- Sees the thread whose `Acquire`, called directly or by `Wait`, completes in this step. -/
def acquired (s : State Tid C K D) (e : Event Tid I) : List Tid :=
  match (s.thread e.tid).pc with
  | .acquireSet _ => [e.tid]
  | _ => []

omit [DecidableEq C] [Fintype Tid] in
theorem owns_update {x : Thread C K} (ht : s'.thread = Function.update s.thread t x) :
    s'.owns = Function.update s.owns t x.owns := by
  funext u
  by_cases hu : u = t
  · subst hu
    simp [owns, ht]
  · simp [owns, ht, hu]

omit [DecidableEq C] [Fintype Tid] in
theorem owns_keep {x : Thread C K} (ht : s'.thread = Function.update s.thread t x)
    (hx : x.owns = (s.thread t).owns) : s'.owns = s.owns := by
  rw [owns_update ht, hx]
  exact Function.update_eq_self t s.owns

omit [Fintype Tid] in
theorem own_act {code : Code C K D I} (hrel : s.ReleasesHeld code e) (h : Steps code s e s') :
    OwnAct e.tid s.lock.threadHoldLock s.owns (s.acquired e) s'.lock.threadHoldLock s'.owns := by
  have hrelease {x : Thread C K} (hseen : s.acquired e = [])
      (ht : s'.thread = Function.update s.thread e.tid x) (hx : x.owns = false)
      (hh : s'.lock.threadHoldLock = none) (hown : s.owns e.tid = true) :
      OwnAct e.tid s.lock.threadHoldLock s.owns (s.acquired e) s'.lock.threadHoldLock s'.owns := by
    rw [hseen, hh, owns_update ht, hx]
    exact .release hown
  have hkeep {x : Thread C K} (hseen : s.acquired e = [])
      (ht : s'.thread = Function.update s.thread e.tid x) (hx : x.owns = (s.thread e.tid).owns)
      (hh : s'.lock.threadHoldLock = s.lock.threadHoldLock) :
      OwnAct e.tid s.lock.threadHoldLock s.owns (s.acquired e) s'.lock.threadHoldLock s'.owns := by
    rw [hseen, hh, owns_keep ht hx]
    exact .keep
  cases h with
  | @client k k' d x hpc hcode =>
    have hown := hrel x (callOf_eq hpc hcode)
    have hseen : s.acquired e = [] := by simp [acquired, hpc]
    cases x with
    | acquire | signal | broadcast | pause => exact hkeep hseen rfl rfl rfl
    | release | wait => exact hrelease hseen rfl rfl rfl (hown rfl)
  | @acquireSet k hpc =>
    have hown : (s.hold e.tid k).owns = Function.update s.owns e.tid true :=
      owns_update (x := ⟨.client k, true⟩) rfl
    rw [show s.acquired e = [e.tid] by simp [acquired, hpc], hown]
    exact .hold
  | acquireSleep hpc | acquirePass hpc | releaseV hpc | waitSleep hpc | waitPass hpc | waitInc hpc
  | signalV hpc | signalDec hpc | bcastExit hpc | bcastLoop hpc | bcastV hpc | bcastDec hpc =>
    exact hkeep (by simp [acquired, hpc]) rfl rfl rfl

end State

/-! ### Reachable states -/

section Reach
variable {code : Code C K D I} {d0 : D → Prop} {k0 : K} [Fintype Tid]
  {ok : State Tid C K D → Event Tid I → Prop} {s : State Tid C K D} {t u : Tid}

/-- Threads outside every call, a new lock and new conditions, and the client's first data. -/
structure Start (d0 : D → Prop) (k0 : K) (s : State Tid C K D) : Prop where
  lock : ∃ garbage, s.lock = Lock.new garbage
  cond : ∀ c, s.cond c = Condition.new
  data : d0 s.data
  thread : ∀ t, s.thread t = ⟨.client k0, false⟩

/-- A state before any call. -/
def startState (garbage : Option Tid) (d : D) (k0 : K) : State Tid C K D :=
  ⟨.new garbage, fun _ => .new, d, fun _ => ⟨.client k0, false⟩⟩

omit [DecidableEq Tid] [DecidableEq C] [Fintype Tid] in
theorem start_startState {garbage : Option Tid} {d : D} (hd : d0 d) :
    Start d0 k0 (startState garbage d k0 : State Tid C K D) :=
  ⟨⟨garbage, rfl⟩, fun _ => rfl, hd, fun _ => rfl⟩

def machine (code : Code C K D I) (d0 : D → Prop) (k0 : K) :
    Machine (State Tid C K D) (Event Tid I) where
  init := Start d0 k0
  step := State.step code

theorem lock_ok (h : (machine code d0 k0).Reach ok s) : s.lock.sema.Ok s.inAcquire := by
  apply h.invariant (fun s => s.lock.sema.Ok s.inAcquire)
  · intro s hs
    obtain ⟨g, hg⟩ := hs.lock
    rw [hg]
    exact Semaphore.ok_new zero_le_one
  · intro s e s' _ hi _ hs
    obtain ⟨a, ha⟩ := State.lock_act (State.steps_of_step hs)
    exact hi.act ha

theorem cond_ok (h : (machine code d0 k0).Reach ok s) (c : C) :
    (s.cond c).sema.Ok (s.inWait c) := by
  apply h.invariant (fun s => (s.cond c).sema.Ok (s.inWait c))
  · intro s hs
    rw [hs.cond c]
    exact Semaphore.ok_new le_rfl
  · intro s e s' _ hi _ hs
    exact hi.act (State.cond_act c (State.steps_of_step hs))

/-- The unit of the lock's semaphore is in the semaphore or with exactly one thread. -/
theorem one_token (hok : ∀ s e, ok s e → s.ReleasesHeld code e)
    (h : (machine code d0 k0).Reach ok s) :
    s.lock.sema.value + s.weight Thread.tokens = 1 := by
  apply h.invariant (fun s => s.lock.sema.value + s.weight Thread.tokens = 1)
  · intro s hs
    obtain ⟨g, hg⟩ := hs.lock
    simp [hg, Lock.new, State.weight, hs.thread, Thread.tokens]
  · intro s e s' hr hi hse hs
    exact State.tokens_step (lock_ok hr).nonneg hi (hok s e hse) (State.steps_of_step hs)

theorem eq_of_tokens (hok : ∀ s e, ok s e → s.ReleasesHeld code e)
    (h : (machine code d0 k0).Reach ok s) (ht : 0 < (s.thread t).tokens)
    (hu : 0 < (s.thread u).tokens) : t = u := by
  have htok := one_token hok h
  have hpos := (lock_ok h).nonneg
  exact eq_of_sum_weight_le_one (w := Thread.tokens) (by rw [State.weight] at htok; omega) ht hu

omit [DecidableEq Tid] [DecidableEq C] [Fintype Tid] in
theorem tokens_pos_of_owns (h : s.owns t = true) : 0 < (s.thread t).tokens := by
  rw [State.owns] at h
  simp [Thread.tokens, h]

/-- At most one thread owns the lock. -/
theorem owner_unique (hok : ∀ s e, ok s e → s.ReleasesHeld code e)
    (h : (machine code d0 k0).Reach ok s) (ht : s.owns t = true) (hu : s.owns u = true) : t = u :=
  eq_of_tokens hok h (tokens_pos_of_owns ht) (tokens_pos_of_owns hu)

omit [Fintype Tid] in
theorem op_held (hok : ∀ s e, ok s e → s.UsesHeld code e)
    (h : (machine code d0 k0).Reach ok s) : ∀ u, (s.thread u).OpHeld := by
  apply h.invariant (fun s => ∀ u, (s.thread u).OpHeld)
  · intro s hs u
    rw [hs.thread u]
    trivial
  · intro s e s' _ hi hse hs
    exact State.opHeld_step hi (hok s e hse) (State.steps_of_step hs)

end Reach
end Coursework.Nachos.Monitor
