import Coursework.Lib.Queue
import Coursework.Nachos.Semaphore
import Coursework.Nachos.SleepCondition.Places

/-!
# What `Wait`, `Signal` and `Broadcast` do to the queue of a condition

The record says who joined a queue and who was taken off. Only `Wait` adds to a queue, at its
end, and only `Signal` and `Broadcast` take threads off, from its front and onto the ready list.
-/
namespace Coursework.Nachos.SleepCondition

variable {Tid Lid Cid : Type} [DecidableEq Tid] [DecidableEq Lid] [DecidableEq Cid]

inductive Seen (Tid Cid : Type) where
  /-- `queue->Append(currentThread)` of `Wait`. -/
  | queued (c : Cid) (t : Tid)
  /-- `queue->Remove()` of `Signal` or `Broadcast`. -/
  | removed (c : Cid) (t : Tid)
  deriving DecidableEq

def Seen.queuedOn (c : Cid) : Seen Tid Cid → Option Tid
  | .queued d t => if d = c then some t else none
  | _ => none

def Seen.removedFrom (c : Cid) : Seen Tid Cid → Option Tid
  | .removed d t => if d = c then some t else none
  | _ => none

def see (s : State Tid Lid Cid) : Event Tid Lid Cid → List (Seen Tid Cid)
  | .call (.wait c l) =>
    if (s.lock l).threadHoldLock = some s.currentThread then [.queued c s.currentThread] else []
  | .call (.signal c _) => (s.cond c).head?.toList.map (.removed c)
  | .call (.broadcast c _ _) => (s.cond c).map (.removed c)
  | _ => []

/-- Between the `Append` and the return of the `Sleep` of `Wait`. -/
def Pc.InWait (c : Cid) : Pc Lid Cid → Prop
  | .waitRelease d _ _ | .waitSleep d _ _ | .sleep (.waitAcquire d _ _) | .waitAcquire d _ _ => d = c
  | _ => False

/-- A thread is on the queue before `Wait` releases the lock and when it goes to sleep; who is on
a queue has not returned from its `Sleep` and is not ready. -/
structure Queued (s : State Tid Lid Cid) : Prop where
  before_release : ∀ t c l oldLevel, s.pc t = .waitRelease c l oldLevel →
    t ∈ s.cond c ∧ (s.lock l).threadHoldLock = some t
  before_sleep : ∀ t c l oldLevel, s.pc t = .waitSleep c l oldLevel ∨
    s.pc t = .sleep (.waitAcquire c l oldLevel) → t ∈ s.cond c
  inWait : ∀ t c, t ∈ s.cond c → (s.pc t).InWait c
  not_ready : ∀ t c, t ∈ s.cond c → t ∉ s.readyList
  nodup : ∀ c, (s.cond c).Nodup

/-- The threads of a list are made ready in order, and `rest` is left of the queue. -/
structure MadeReady (s : State Tid Lid Cid) (c : Cid) (threads rest : List Tid)
    (s' : State Tid Lid Cid) : Prop where
  cond : s'.cond = Function.update s.cond c rest
  readyList : s'.readyList = s.readyList ++ threads
  lock : s'.lock = s.lock
  currentThread : s'.currentThread = s.currentThread
  pc : ∀ t, t ≠ s.currentThread → s'.pc t = s.pc t

variable {s s' : State Tid Lid Cid} {t : Tid} {l : Lid} {c : Cid} {k : Pc Lid Cid}
  {now : IntStatus} {rounds : ℕ} {threads rest : List Tid} {e : Event Tid Lid Cid}
  {h : Option (Place Lid Cid)} {mainThread : Tid}

/-! ### Every state -/

omit [DecidableEq Lid] [DecidableEq Cid] in
theorem Pc.Stands.inWait {current : Bool} (hk : k.Stands current (some (.cond c))) :
    k.InWait c := by
  cases current with
  | true =>
    cases k with
    | waitRelease d l old | waitSleep d l old => exact Place.cond.inj (Option.some.inj hk.symm)
    | sleep k =>
      cases k with
      | waitAcquire d l old => exact Place.cond.inj (Option.some.inj hk.symm)
      | acquired l old k => cases hk.1
      | _ => exact hk.elim
    | acquired l old k => cases hk.1
    | oneTick k | yielded old k =>
      cases k with
      | outside => cases hk
      | _ => exact hk.elim
    | root | outside | waitAcquire | waitEnd | assertFailed => cases hk
    | created => exact hk.elim
  | false =>
    cases k with
    | waitAcquire d l old =>
      rcases hk with hk | hk
      · cases hk
      · exact Place.cond.inj (Option.some.inj hk.symm)
    | acquired l old k => rcases hk.1 with hk | hk <;> cases hk
    | yielded old k =>
      cases k with
      | outside => cases hk
      | _ => exact hk.elim
    | root | created => cases hk
    | _ => exact hk.elim

theorem Inv.queued (hi : Inv s) : Queued s := by
  obtain ⟨h, hstands, home, hplaced, hhome, hother⟩ := hi.here
  -- the place of a thread in the code and the list that it is in
  have hplace (t : Tid) : ∃ current, (current = true → t = s.currentThread) ∧
      (s.pc t).Stands current (home t) := by
    by_cases htc : t = s.currentThread
    · subst htc
      exact ⟨true, fun _ => rfl, hhome.symm ▸ hstands⟩
    · exact ⟨false, nofun, hother t htc⟩
  have hmem (t : Tid) (c : Cid) (ht : home t = some (.cond c)) : t ∈ s.cond c :=
    hplaced.mem_iff (k := .cond c).mpr ht
  have hhomeOf (t : Tid) (c : Cid) (ht : t ∈ s.cond c) : home t = some (.cond c) :=
    (hplaced.mem_iff (k := .cond c)).mp ht
  refine ⟨fun t c l old hat => ?_, fun t c l old hat => ?_, fun t c ht => ?_, fun t c ht => ?_,
    fun c => ?_⟩
  · obtain ⟨current, hcur, hst⟩ := hplace t
    rw [hat] at hst
    cases current with
    | false => exact hst.elim
    | true =>
      obtain rfl := hcur rfl
      exact ⟨hmem _ c hst, hi.holder c l old hat⟩
  · obtain ⟨current, -, hst⟩ := hplace t
    rcases hat with hat | hat
    all_goals
      rw [hat] at hst
      cases current with
      | false => exact hst.elim
      | true => exact hmem t c hst
  · obtain ⟨current, -, hst⟩ := hplace t
    rw [hhomeOf t c ht] at hst
    exact hst.inWait
  · intro hready
    have heq := (hplaced.mem_iff (k := .ready)).mp hready
    rw [hhomeOf t c ht] at heq
    cases heq
  · rw [List.nodup_iff_count_le_one]
    intro t
    have hcount := hplaced t (.cond c)
    have hle : (s.cond c).count t = if home t = some (.cond c) then 1 else 0 := hcount
    rw [hle]
    split_ifs <;> omega

/-! ### The operations that leave the queues alone -/

section
omit [DecidableEq Cid]

omit [DecidableEq Lid] in
@[simp] theorem cond_setLevel (s : State Tid Lid Cid) (now : IntStatus) (k : Pc Lid Cid) :
    (s.setLevel now k).cond = s.cond := by
  rw [State.setLevel]
  split_ifs <;> rfl

omit [DecidableEq Lid] in
@[simp] theorem cond_sleep (s : State Tid Lid Cid) (k : Pc Lid Cid) :
    (s.sleep k).cond = s.cond := by
  rw [State.sleep]
  split_ifs <;> rfl

@[simp] theorem cond_acquire (s : State Tid Lid Cid) (l : Lid) (k : Pc Lid Cid) :
    (s.acquire l k).cond = s.cond := by
  rw [State.acquire]
  split
  · exact cond_setLevel ..
  · exact cond_sleep ..

@[simp] theorem cond_release (s : State Tid Lid Cid) (l : Lid) (k : Pc Lid Cid) :
    (s.release l k).cond = s.cond := by
  rw [State.release]
  simp only
  split <;> exact cond_setLevel ..

omit [DecidableEq Lid] in
@[simp] theorem cond_yield (s : State Tid Lid Cid) (k : Pc Lid Cid) :
    (s.yield k).cond = s.cond := by
  rw [State.yield]
  simp only
  split
  · exact cond_setLevel ..
  · rfl

omit [DecidableEq Lid] in
@[simp] theorem cond_fork (s : State Tid Lid Cid) (t : Tid) : (s.fork t).cond = s.cond :=
  cond_setLevel ..

/-- Whatever a thread does after its own code, the queues of the conditions stay. -/
theorem cond_next {yieldOnReturn : Bool} (hs : s.next yieldOnReturn k = some s') :
    s'.cond = s.cond := by
  cases k with
  | created | outside | assertFailed => cases hs
  | oneTick k =>
    cases hs
    split_ifs
    · exact cond_yield ..
    · rfl
  | sleep k =>
    rw [State.next] at hs
    split at hs <;> cases hs <;> rfl
  | root | yielded | acquired | waitEnd =>
    cases hs
    exact cond_setLevel ..
  | waitRelease | waitSleep | waitAcquire =>
    cases hs
    first | exact cond_release .. | exact cond_sleep .. | exact cond_acquire ..

end

/-! ### `Signal` and `Broadcast` -/

section
omit [DecidableEq Lid]

namespace MadeReady

omit [DecidableEq Tid] in
theorem nil (hq : s.cond c = rest) : MadeReady s c [] rest s :=
  ⟨by rw [← hq, Function.update_eq_self], (List.append_nil _).symm, rfl, rfl, fun _ _ => rfl⟩

omit [DecidableEq Tid] in
theorem trans {s₁ : State Tid Lid Cid} {q threads' rest' : List Tid}
    (h : MadeReady s c threads q s₁) (h' : MadeReady s₁ c threads' rest' s') :
    MadeReady s c (threads ++ threads') rest' s' := by
  refine ⟨?_, ?_, h'.lock.trans h.lock, h'.currentThread.trans h.currentThread, fun t ht => ?_⟩
  · rw [h'.cond, h.cond, Function.update_idem]
  · rw [h'.readyList, h.readyList, List.append_assoc]
  · exact (h'.pc t (h.currentThread.symm ▸ ht)).trans (h.pc t ht)

omit [DecidableEq Tid] in
/-- The level plays no part. -/
theorem ofLevel (h : MadeReady { s with level := now } c threads rest s') :
    MadeReady s c threads rest s' :=
  ⟨h.cond, h.readyList, h.lock, h.currentThread, h.pc⟩

theorem setLevel (h : MadeReady s c threads rest s') (now : IntStatus) (k : Pc Lid Cid) :
    MadeReady s c threads rest (s'.setLevel now k) := by
  rw [State.setLevel]
  split_ifs
  all_goals
    refine ⟨h.cond, h.readyList, h.lock, h.currentThread, fun t ht => ?_⟩
    exact (Function.update_of_ne (h.currentThread.symm ▸ ht) _ _).trans (h.pc t ht)

end MadeReady

omit [DecidableEq Tid] in
theorem wake_madeReady (s : State Tid Lid Cid) (c : Cid) :
    MadeReady s c (s.cond c).head?.toList (s.cond c).tail (s.wake c) := by
  rw [State.wake]
  cases hq : s.cond c with
  | nil => exact .nil hq
  | cons t q => exact ⟨rfl, rfl, rfl, rfl, fun _ _ => rfl⟩

theorem signal_madeReady (s : State Tid Lid Cid) (c : Cid) :
    MadeReady s c (s.cond c).head?.toList (s.cond c).tail (s.signal c) :=
  (wake_madeReady { s with level := .off } c).ofLevel.setLevel s.level .outside

omit [DecidableEq Tid] in
theorem wakeAll_madeReady (hs : s.wakeAll c rounds = some s') :
    MadeReady s c (s.cond c) [] s' := by
  induction rounds generalizing s with
  | zero =>
    obtain ⟨hq, heq⟩ := Option.ite_none_right_eq_some.mp hs
    cases heq
    rw [hq]
    exact .nil hq
  | succ rounds ih =>
    rw [State.wakeAll] at hs
    split_ifs at hs with hq
    · cases hs
      rw [hq]
      exact .nil hq
    · have hfirst := wake_madeReady s c
      have hrest := ih hs
      rw [hfirst.cond, Function.update_self] at hrest
      have hall := hfirst.trans hrest
      obtain ⟨t, q, hq'⟩ := List.exists_cons_of_ne_nil hq
      rw [hq'] at hall ⊢
      exact hall

omit [DecidableEq Tid] in
/-- The loop of `Broadcast` ends: a round takes a thread off. -/
theorem wakeAll_isSome (h : (s.cond c).length ≤ rounds) : (s.wakeAll c rounds).isSome := by
  induction rounds generalizing s with
  | zero =>
    rw [State.wakeAll, if_pos (List.length_eq_zero_iff.mp (Nat.le_zero.mp h))]
    rfl
  | succ rounds ih =>
    rw [State.wakeAll]
    split_ifs
    · rfl
    · refine ih ?_
      rw [(wake_madeReady s c).cond, Function.update_self, List.length_tail]
      exact Nat.sub_le_of_le_add h

theorem broadcast_madeReady (hs : s.broadcast c rounds = some s') :
    MadeReady s c (s.cond c) [] s' := by
  obtain ⟨s₁, hall, heq⟩ := Option.bind_eq_some_iff.mp hs
  cases heq
  exact (wakeAll_madeReady hall).ofLevel.setLevel s.level .outside

theorem broadcast_isSome (h : (s.cond c).length ≤ rounds) : (s.broadcast c rounds).isSome := by
  obtain ⟨s₁, hall⟩ := Option.isSome_iff_exists.mp
    (wakeAll_isSome (s := { s with level := .off }) (c := c) h)
  rw [State.broadcast, hall]
  rfl

/-! ### The record -/

theorem cond_wait (s : State Tid Lid Cid) (c : Cid) (l : Lid) :
    (s.wait c l).cond = if (s.lock l).threadHoldLock = some s.currentThread then
      Function.update s.cond c (s.cond c ++ [s.currentThread]) else s.cond := by
  rw [State.wait]
  simp only
  split_ifs <;> rfl

omit [DecidableEq Tid] in
/-- The record of threads that are taken off the front of the queue of `d`. -/
theorem MadeReady.recorded {d : Cid} (hm : MadeReady s d threads rest s')
    (hq : s.cond d = threads ++ rest) (c : Cid) :
    s.cond c ++ (threads.map (Seen.removed d)).filterMap (Seen.queuedOn c) =
      (threads.map (Seen.removed d)).filterMap (Seen.removedFrom c) ++ s'.cond c := by
  rw [hm.cond, filterMap_map_of_none fun _ => rfl, List.append_nil]
  by_cases hd : d = c
  · subst hd
    rw [Function.update_self, filterMap_map_of_some fun t => if_pos rfl, hq]
  · have hnone (t : Tid) : Seen.removedFrom c (.removed d t) = none := if_neg hd
    rw [Function.update_of_ne (Ne.symm hd), filterMap_map_of_none hnone]
    rfl

end

/-- What one step does to the queue of a condition. -/
theorem cond_step (hs : s.step e = some s') (c : Cid) :
    s.cond c ++ (see s e).filterMap (Seen.queuedOn c) =
      (see s e).filterMap (Seen.removedFrom c) ++ s'.cond c := by
  -- a step that records nothing and leaves the queues
  have hquiet (hsee : see s e = []) (hcond : s'.cond = s.cond) : s.cond c ++
      (see s e).filterMap (Seen.queuedOn c) =
        (see s e).filterMap (Seen.removedFrom c) ++ s'.cond c := by
    rw [hsee, hcond]
    exact List.append_nil _
  cases e with
  | step yieldOnReturn => exact hquiet rfl (cond_next hs)
  | call y =>
    obtain ⟨-, hs⟩ := Option.ite_none_right_eq_some.mp hs
    cases y with
    | setLevel | yield | acquire | release =>
      cases hs
      exact hquiet rfl (by first
        | exact cond_setLevel .. | exact cond_yield ..
        | exact cond_acquire .. | exact cond_release ..)
    | fork t =>
      obtain ⟨-, heq⟩ := Option.ite_none_right_eq_some.mp hs
      cases heq
      exact hquiet rfl (cond_fork ..)
    | signal d l =>
      cases hs
      apply (signal_madeReady s d).recorded
      cases s.cond d <;> rfl
    | broadcast d l rounds => exact (broadcast_madeReady hs).recorded (List.append_nil _).symm c
    | wait d l =>
      cases hs
      have hcond := cond_wait s d l
      by_cases hheld : (s.lock l).threadHoldLock = some s.currentThread
      · rw [if_pos hheld] at hcond
        have hsee : see s (.call (.wait d l)) = [.queued d s.currentThread] := if_pos hheld
        rw [hsee, hcond]
        by_cases hd : d = c
        · subst hd
          have hsome : Seen.queuedOn d (.queued d s.currentThread) = some s.currentThread :=
            if_pos rfl
          rw [Function.update_self, List.filterMap_cons_some hsome]
          rfl
        · have hnone : Seen.queuedOn c (.queued d s.currentThread) = none := if_neg hd
          rw [Function.update_of_ne (Ne.symm hd), List.filterMap_cons_none hnone]
          exact List.append_nil _
      · rw [if_neg hheld] at hcond
        exact hquiet (if_neg hheld) hcond

/-- Every reachable state, with what the record says of its queues. -/
theorem record_of_reachable {p : State Tid Lid Cid × List (Seen Tid Cid)}
    (hr : ((machine mainThread).observe see).Reachable p) (c : Cid) :
    p.2.filterMap (Seen.removedFrom c) ++ p.1.cond c = p.2.filterMap (Seen.queuedOn c) := by
  apply hr.invariant fun p : State Tid Lid Cid × List (Seen Tid Cid) =>
    p.2.filterMap (Seen.removedFrom c) ++ p.1.cond c = p.2.filterMap (Seen.queuedOn c)
  · rintro ⟨s, h⟩ ⟨h0, rfl⟩
    exact h0.cond c
  · intro p e p' _ hi _ hs
    obtain ⟨hstep, hseen⟩ := Machine.observe_step.mp hs
    rw [hseen, List.filterMap_append, List.filterMap_append]
    exact fifo_step hi (cond_step hstep c)

/-- What one step may do to the queues and to the ready list. -/
structure Exact (s : State Tid Lid Cid) (e : Event Tid Lid Cid) (s' : State Tid Lid Cid) :
    Prop where
  wait : ∀ c l, e = .call (.wait c l) → (s.lock l).threadHoldLock = some s.currentThread →
    s'.cond = Function.update s.cond c (s.cond c ++ [s.currentThread]) ∧ s'.lock = s.lock ∧
      s'.pc s.currentThread = .waitRelease c l s.level
  signal : ∀ c l, e = .call (.signal c l) →
    MadeReady s c (s.cond c).head?.toList (s.cond c).tail s'
  broadcast : ∀ c l rounds, e = .call (.broadcast c l rounds) → MadeReady s c (s.cond c) [] s'
  stays : (∀ c l, e ≠ .call (.signal c l)) → (∀ c l rounds, e ≠ .call (.broadcast c l rounds)) →
    ∀ c t, t ∈ s.cond c → t ∈ s'.cond c

theorem exact_step (hs : s.step e = some s') : Exact s e s' := by
  refine ⟨?_, ?_, ?_, fun hsignal hbroadcast c t ht => ?_⟩
  · rintro c l rfl hheld
    obtain ⟨-, heq⟩ := Option.ite_none_right_eq_some.mp hs
    cases heq
    rw [State.wait]
    simp only
    rw [if_pos hheld]
    exact ⟨rfl, rfl, Function.update_self ..⟩
  · rintro c l rfl
    obtain ⟨-, heq⟩ := Option.ite_none_right_eq_some.mp hs
    cases heq
    exact signal_madeReady s c
  · rintro c l rounds rfl
    obtain ⟨-, heq⟩ := Option.ite_none_right_eq_some.mp hs
    exact broadcast_madeReady heq
  · have hnone : (see s e).filterMap (Seen.removedFrom c) = [] := by
      cases e with
      | step => rfl
      | call y =>
        cases y with
        | signal d l => exact absurd rfl (hsignal d l)
        | broadcast d l rounds => exact absurd rfl (hbroadcast d l rounds)
        | wait d l =>
          rw [see]
          split_ifs <;> rfl
        | _ => rfl
    have hlaw := cond_step hs c
    rw [hnone, List.nil_append] at hlaw
    rw [← hlaw]
    exact List.mem_append_left _ ht

/-- In every state reached, and for every step from it: who is in `Wait` is on the queue from before
the lock is released, and leaves it only when `Signal` takes off the thread that came first or
`Broadcast` all of them in order; those are made ready, and nobody on a queue is ready before.
`Broadcast` ends after as many rounds as threads are queued. -/
theorem condition_queue_exact {p : State Tid Lid Cid × List (Seen Tid Cid)}
    (hr : ((machine mainThread).observe see).Reachable p) :
    Queued p.1 ∧
    (∀ c, p.2.filterMap (Seen.removedFrom c) ++ p.1.cond c = p.2.filterMap (Seen.queuedOn c)) ∧
    (∀ e s', p.1.step e = some s' → Exact p.1 e s') ∧
    ∀ c l rounds, p.1.pc p.1.currentThread = .outside → (p.1.cond c).length ≤ rounds →
      (p.1.step (.call (.broadcast c l rounds))).isSome := by
  refine ⟨(inv_of_reachable hr.forget).queued, record_of_reachable hr, fun e s' => exact_step,
    fun c l rounds hpc hrounds => ?_⟩
  rw [State.step, if_pos hpc]
  exact broadcast_isSome hrounds

/-- Thread 1 waits; thread 0 then holds the lock. -/
def oneWaits : List (Event (Fin 2) Unit Unit) :=
  [.call (.fork t1), .step false, .call .yield, .step false, .step false, .call (.acquire ()),
    .step false, .call (.wait () ()), .step false, .step false, .step false, .step false,
    .step false, .call (.acquire ()), .step false]

def startState : State (Fin 2) Unit Unit :=
  ⟨[], fun _ => ⟨false, [], none⟩, fun _ => [], t0, .on,
    Function.update (fun _ => .created) t0 .outside⟩

theorem condition_queue_exact_oneWaits :
    ∃ p s', ((machine t0).observe see).run (startState, []) oneWaits = some p ∧
      p.1.cond () = [t1] ∧ p.1.step (.call (.broadcast () () 1)) = some s' ∧
      s'.cond () = [] ∧ s'.readyList = [t1] ∧ MadeReady p.1 () [t1] [] s' := by
  have h0 : ((machine t0).observe see).init
      ((startState, []) : State (Fin 2) Unit Unit × List (Seen (Fin 2) Unit)) :=
    ⟨⟨rfl, fun _ => rfl, fun _ => rfl, rfl, rfl, rfl⟩, rfl⟩
  have hr : ((machine t0).observe see).Reachable _ :=
    Machine.Reachable.run oneWaits (.init h0) rfl
  refine ⟨_, _, rfl, rfl, rfl, rfl, rfl, ?_⟩
  exact ((condition_queue_exact hr).2.2.1 _ _ rfl).broadcast () () 1 rfl

end Coursework.Nachos.SleepCondition
