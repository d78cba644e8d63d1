import Coursework.Nachos.Monitor.Client

/-!
# No waiter is stranded

A shared object has a size: the number of things that a waiter on condition `c`
waits for. Locations carry a credit: a thread that has made a thing and not signalled
it yet, or that is about to test the size again, accounts for one. If the code
never lets the size outgrow the stored signals and the credits, then a state where every
thread sleeps or is outside, and the lock is free, has size zero while somebody waits.
-/
namespace Coursework.Nachos.Monitor
open Finset

variable {Tid C K D I : Type} [DecidableEq Tid] [DecidableEq C]

/-- The credit of a thread, where `w` is that of the locations. -/
def Pc.credit (c : C) (w : K → ℕ) : Pc C K → ℕ
  | .releaseV (.waitP _ _) => 0
  | .waitP _ _ => 0
  | .signalV x k => w k + if x = c then 1 else 0
  | .client k | .acquireP k | .acquireSet k | .releaseV (.client k) | .waitInc _ k
  | .signalDec _ k | .bcastTest _ k | .bcastV _ k | .bcastDec _ k => w k

def Thread.credit (c : C) (w : K → ℕ) (x : Thread C K) : ℕ := x.pc.credit c w

/-- The credit just after a call that goes on at `k`. -/
def Call.credit (c : C) (w : K → ℕ) (k : K) : Call C → ℕ
  | .wait _ => 0
  | .signal x => w k + if x = c then 1 else 0
  | .acquire | .release | .broadcast _ | .pause => w k

/-- At the locations `Q` that it keeps to, a step of the client empties the object or pays
for what it adds to the size, and who waits on `c` tests again. -/
def Pays (code : Code C K D I) (Q : K → Prop) (Size : D → ℕ → Prop) (c : C) (w : K → ℕ) : Prop :=
  ∀ ⦃k d i x k' d' n⦄, Q k → code k d i = some (x, k', d') → Size d n →
    Q k' ∧ (x = .wait c → 1 ≤ w k') ∧
      ∃ n', Size d' n' ∧ (n' = 0 ∨ n' + w k ≤ n + x.credit c w k')

/-- Waiters on `c` go on at a location with a credit. -/
def Thread.Retests (c : C) (w : K → ℕ) (x : Thread C K) : Prop :=
  match x.pc with
  | .releaseV (.waitP y k) => y = c → 1 ≤ w k
  | .waitP y k => y = c → 1 ≤ w k
  | _ => True

variable {code : Code C K D I} {d0 : D → Prop} {k0 : K}
  {ok : State Tid C K D → Event Tid I → Prop} {Q : K → Prop} {Size : D → ℕ → Prop} {c : C}
  {w : K → ℕ} {s s' : State Tid C K D} {e : Event Tid I} {t : Tid}

theorem retests_step
    (hcode : ∀ k x k' d, (s.thread e.tid).pc = .client k → code k s.data e.input = some (x, k', d) →
      x = .wait c → 1 ≤ w k')
    (hi : ∀ u, (s.thread u).Retests c w) (h : State.Steps code s e s') :
    ∀ u, (s'.thread u).Retests c w := by
  have hown := hi e.tid
  cases h with
  | @client k k' d x hpc hc =>
    cases x with
    | wait y =>
      apply State.forall_thread hi rfl
      intro hy
      exact hcode k _ k' d hpc hc (by rw [hy])
    | acquire | release | signal | broadcast | pause => exact State.forall_thread hi rfl trivial
  | @releaseV a hpc =>
    cases a with
    | client k => exact State.forall_thread hi rfl trivial
    | waitP y k =>
      rw [Thread.Retests, hpc] at hown
      exact State.forall_thread hi rfl hown
  | waitSleep hpc =>
    rw [Thread.Retests, hpc] at hown
    exact State.forall_thread hi rfl hown
  | acquireSleep | acquirePass | acquireSet | waitPass | waitInc | signalV | signalDec | bcastExit
  | bcastLoop | bcastV | bcastDec => exact State.forall_thread hi rfl trivial

variable [Fintype Tid]

/-- The signals stored in the semaphore of `c`, and the credits. -/
def State.wakeups (c : C) (w : K → ℕ) (s : State Tid C K D) : ℤ :=
  (s.cond c).sema.value + s.weight (Thread.credit c w)

theorem wakeups_le {x : Thread C K} (ht : s'.thread = Function.update s.thread t x)
    (hx : (s.cond c).sema.value + (s.thread t).pc.credit c w ≤
      (s'.cond c).sema.value + x.pc.credit c w) : s.wakeups c w ≤ s'.wakeups c w := by
  have hw := State.weight_update (w := Thread.credit c w) ht
  rw [Thread.credit, Thread.credit] at hw
  rw [State.wakeups, State.wakeups]
  omega

/-- A thread in the kernel passes a wakeup on and drops none. -/
theorem wakeups_kernel (hret : ∀ u, (s.thread u).Retests c w)
    (hkernel : ∀ k, (s.thread e.tid).pc ≠ .client k) (h : State.Steps code s e s') :
    s.wakeups c w ≤ s'.wakeups c w := by
  cases h with
  | client hpc => exact absurd hpc (hkernel _)
  | @releaseV a hpc =>
    cases a with
    | client | waitP => exact wakeups_le (t := e.tid) rfl (by simp [hpc, Pc.credit, After.pc])
  | @waitPass x k hpc hq hv =>
    have hown := hret e.tid
    rw [Thread.Retests, hpc] at hown
    apply wakeups_le (t := e.tid) rfl
    by_cases hx : x = c
    · have := hown hx
      subst hx
      simp [hpc, Pc.credit]
      omega
    · simp [hpc, Pc.credit, Ne.symm hx]
  | @waitSleep x k hpc | @waitInc x k hpc | @signalV x k hpc | @signalDec x k hpc
  | @bcastV x k hpc | @bcastDec x k hpc =>
    apply wakeups_le (t := e.tid) rfl
    by_cases hx : x = c
    · subst hx
      simp [hpc, Pc.credit, Semaphore.V]
      try omega
    · simp [hpc, Pc.credit, hx, Ne.symm hx]
  | acquireSleep hpc | acquirePass hpc | acquireSet hpc | bcastExit hpc | bcastLoop hpc =>
    exact wakeups_le (t := e.tid) rfl (by simp [hpc, Pc.credit])

/-- A call trades the credit of its location for its own. -/
theorem wakeups_call (c : C) (w : K → ℕ) {k : K} (d : D) (k' : K) (x : Call C)
    (hpc : (s.thread t).pc = .client k) :
    ({ s with data := d }.call t k' x).wakeups c w + w k = s.wakeups c w + x.credit c w k' := by
  have hw := State.weight_update (w := Thread.credit c w)
    (State.call_thread (s := { s with data := d }) (t := t) (k := k') x)
  have hx : Thread.credit c w (x.start k' (s.thread t).owns) = x.credit c w k' := by
    cases x <;> rfl
  have hk : Thread.credit c w (s.thread t) = w k := by rw [Thread.credit, hpc, Pc.credit]
  have hs : ({ s with data := d } : State Tid C K D).weight (Thread.credit c w) =
      s.weight (Thread.credit c w) := rfl
  simp only [hx, hk, hs] at hw
  rw [State.wakeups, State.wakeups, State.call_cond]
  simp only
  omega

/-- The size is covered by stored signals and credits. -/
def Covered (Size : D → ℕ → Prop) (c : C) (w : K → ℕ) (s : State Tid C K D) : Prop :=
  ∃ n, Size s.data n ∧ n ≤ (s.cond c).sema.value + s.weight (Thread.credit c w)

theorem covered_step (hp : Pays code Q Size c w) (hpos : 0 ≤ (s.cond c).sema.value)
    (hret : ∀ u, (s.thread u).Retests c w) (hloc : ∀ u, Q (s.thread u).pc.loc)
    (hi : Covered Size c w s) (h : State.Steps code s e s') : Covered Size c w s' := by
  rcases hi with ⟨n, hn, hle⟩
  rw [← State.wakeups] at hle
  rcases State.client_or_kernel h with ⟨k, x, k', d, hpc, hcode, rfl⟩ | hkernel
  · have hk : Q k := by simpa [hpc, Pc.loc] using hloc e.tid
    obtain ⟨-, -, n', hn', hpay⟩ := hp hk hcode hn
    have hcall := wakeups_call c w d k' x hpc
    refine ⟨n', by rwa [State.call_data], ?_⟩
    rw [← State.wakeups]
    rcases hpay with rfl | hpay
    · rw [State.wakeups, State.call_cond]
      simp only
      omega
    · omega
  · have hmono := wakeups_kernel hret hkernel h
    obtain ⟨hdata, -⟩ := State.kernel_keep hkernel h
    exact ⟨n, hdata ▸ hn, hle.trans hmono⟩

/-- What a paying client keeps. -/
structure PayInv (Q : K → Prop) (Size : D → ℕ → Prop) (c : C) (w : K → ℕ) (s : State Tid C K D) :
    Prop where
  loc : ∀ u, Q (s.thread u).pc.loc
  retests : ∀ u, (s.thread u).Retests c w
  covered : Covered Size c w s

theorem payInv (hp : Pays code Q Size c w) (h0 : ∀ d, d0 d → Size d 0) (hk0 : Q k0)
    (hr : (machine code d0 k0).Reach ok s) : PayInv Q Size c w s := by
  apply hr.invariant (PayInv Q Size c w)
  · intro s hs
    refine ⟨fun u => by rwa [hs.thread u], fun u => by rw [hs.thread u]; trivial, 0,
      h0 _ hs.data, ?_⟩
    rw [hs.cond c]
    simp [Condition.new]
  · intro s e s' hr hi _ hs
    have hsteps := State.steps_of_step hs
    obtain ⟨n, hn, -⟩ := hi.covered
    have hretest (k : K) (x : Call C) (k' : K) (d : D) (hpc : (s.thread e.tid).pc = .client k)
        (hcode : code k s.data e.input = some (x, k', d)) (hx : x = .wait c) : 1 ≤ w k' := by
      have hk : Q k := by simpa [hpc, Pc.loc] using hi.loc e.tid
      exact (hp hk hcode hn).2.1 hx
    exact ⟨State.loc_step hi.loc (fun k x k' d _ hcode hk => (hp hk hcode hn).1) hsteps,
      retests_step hretest hi.retests hsteps,
      covered_step hp (cond_ok hr c).nonneg hi.retests hi.loc hi.covered hsteps⟩

/-- Thread `t` sleeps in `P`. -/
def State.Asleep (s : State Tid C K D) (t : Tid) : Prop :=
  t ∈ s.lock.sema.queue ∨ ∃ x, t ∈ (s.cond x).sema.queue

omit [DecidableEq Tid] [DecidableEq C] [Fintype Tid] in
theorem asleep_of_mem (c : C) (h : t ∈ (s.cond c).sema.queue) : s.Asleep t := .inr ⟨c, h⟩

/-- Everybody sleeps or is at a location outside all operations. -/
def State.Quiet (outside : K → Bool) (s : State Tid C K D) : Prop :=
  ∀ t, s.Asleep t ∨ ∃ k, (s.thread t).pc = .client k ∧ outside k = true

variable {outside : K → Bool}

/-- With the lock free and all others asleep, nobody sleeps in `Acquire`. -/
theorem queue_eq_nil (hr : (machine code d0 k0).Reach ok s) (hq : s.Quiet outside)
    (hfree : 0 < s.lock.sema.value) : s.lock.sema.queue = [] := by
  have hok := lock_ok hr
  by_contra hne
  have hlost := hok.noLost hne
  have hsub : s.inAcquire ⊆ s.lock.sema.queue.toFinset := by
    intro u hu
    rw [State.inAcquire, mem_having, Thread.inAcquire] at hu
    rcases hq u with (hin | ⟨x, hin⟩) | ⟨k, hpc, -⟩
    · exact List.mem_toFinset.mpr hin
    · have hw := (cond_ok hr x).asleep u hin
      rw [State.inWait, mem_having, Thread.inWait] at hw
      split at hw <;> simp_all
    · simp [hpc] at hu
  have hcard := card_le_card hsub
  rw [List.toFinset_card_of_nodup hok.nodup] at hcard
  omega

/-- When everybody sleeps or is outside, the lock is free and a thread sleeps on `c`, no
wakeup is left. -/
theorem wakeups_of_quiet (hout : ∀ k, outside k = true → w k = 0)
    (hr : (machine code d0 k0).Reach ok s) (hq : s.Quiet outside) (hfree : 0 < s.lock.sema.value)
    (hsleep : (s.cond c).sema.queue ≠ []) : s.wakeups c w = 0 := by
  have hnil := queue_eq_nil hr hq hfree
  have hok := cond_ok hr c
  have hlost := hok.noLost hsleep
  have hpos := hok.nonneg
  have hwaits (u : Tid) (hu : ∀ k, (s.thread u).pc = .client k → w k ≠ 0) :
      ∃ x k, u ∈ (s.cond x).sema.queue ∧ (s.thread u).pc = .waitP x k := by
    rcases hq u with (hin | ⟨x, hin⟩) | ⟨k, hpc, hk⟩
    · rw [hnil] at hin
      simp at hin
    · have hw := (cond_ok hr x).asleep u hin
      rw [State.inWait, mem_having, Thread.inWait] at hw
      split at hw
      case h_1 y k hpc =>
        obtain rfl : y = x := by simpa using hw
        exact ⟨y, k, hin, hpc⟩
      case h_2 => cases hw
    · exact absurd (hout k hk) (hu k hpc)
  have hcredit : s.weight (Thread.credit c w) = 0 := by
    apply sum_eq_zero
    intro u _
    by_cases hu : ∃ k, (s.thread u).pc = .client k ∧ w k = 0
    · rcases hu with ⟨k, hpc, hk⟩
      rw [Thread.credit, hpc, Pc.credit, hk]
    · obtain ⟨x, k, -, hpc⟩ := hwaits u fun k hpc hk => hu ⟨k, hpc, hk⟩
      rw [Thread.credit, hpc, Pc.credit]
  have hsub : s.inWait c ⊆ (s.cond c).sema.queue.toFinset := by
    intro u hu
    rw [State.inWait, mem_having, Thread.inWait] at hu
    split at hu
    case h_1 y k hpc =>
      obtain rfl : y = c := by simpa using hu
      obtain ⟨x, k', hin, hpc'⟩ := hwaits u fun k' hk' => by simp [hpc] at hk'
      cases hpc.symm.trans hpc'
      exact List.mem_toFinset.mpr hin
    case h_2 => cases hu
  have hcard := card_le_card hsub
  rw [List.toFinset_card_of_nodup hok.nodup] at hcard
  rw [State.wakeups, hcredit]
  omega

/-- When everybody sleeps or is outside, the lock is free and a thread sleeps on `c`,
there is nothing to wait for. -/
theorem no_stranded (hp : Pays code Q Size c w) (h0 : ∀ d, d0 d → Size d 0) (hk0 : Q k0)
    (hout : ∀ k, outside k = true → w k = 0) (hr : (machine code d0 k0).Reach ok s)
    (hq : s.Quiet outside) (hfree : 0 < s.lock.sema.value)
    (hsleep : (s.cond c).sema.queue ≠ []) : Size s.data 0 := by
  obtain ⟨n, hn, hle⟩ := (payInv hp h0 hk0 hr).covered
  rw [← State.wakeups, wakeups_of_quiet hout hr hq hfree hsleep] at hle
  obtain rfl : n = 0 := by omega
  exact hn

end Coursework.Nachos.Monitor
