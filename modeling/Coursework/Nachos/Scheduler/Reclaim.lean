import Coursework.Nachos.Scheduler.Dispatch
import Mathlib.Data.Fintype.Option

/-!
# When finished threads are reclaimed

A finished thread is deleted by the next thread that comes out of `SWITCH` in `Scheduler::Run`. A
thread that runs for the first time starts in `ThreadRoot` and does not come by there.
-/
namespace Coursework.Nachos.Scheduler

variable {Tid Sid : Type} [DecidableEq Tid] [DecidableEq Sid] {mainThread t : Tid}
  {s s' : State Tid Sid} {k : Caller Sid} {e : Event Tid Sid} {h : List (Seen Tid)} {x : Seen Tid}

/-- Since the last `Finish` a thread was dispatched that had run before. -/
def Cleared (h : List (Seen Tid)) : Prop :=
  ∀ before t after, h = before ++ .finished t :: after → ∃ u, .resumed u ∈ after

/-- No thread finishes while only new threads were dispatched since another one did. -/
def FinishesCleared (before : List (Seen Tid)) : Seen Tid → Prop
  | .finished _ => Cleared before
  | _ => True

/-- A thread is deleted once, by another thread. -/
def DeletedOnce (before : List (Seen Tid)) : Seen Tid → Prop
  | .deleted byThread t => t ≠ byThread ∧ ∀ u, .deleted u t ∉ before
  | _ => True

/-- The threads that have finished and are not deleted are `threadToBeDestroyed`; none is deleted
twice, and the destructor does not meet the current thread. -/
structure Reclaims (s : State Tid Sid) : Prop where
  pending : ∀ t, .finished t ∈ s.log → (∀ u, .deleted u t ∉ s.log) →
    s.threadToBeDestroyed = some t
  once : EachAfter DeletedOnce s.log
  asserted : s.pc s.currentThread ≠ .assertFailed

section Cleared
omit [DecidableEq Tid]

theorem cleared_nil : Cleared ([] : List (Seen Tid)) := by
  intro before t after heq
  have hlen := congrArg List.length heq
  simp at hlen

theorem cleared_resumed (u : Tid) : Cleared (h ++ [.resumed u]) := by
  intro before t after heq
  rcases List.eq_nil_or_concat after with rfl | ⟨after', z, rfl⟩
  · cases (List.append_inj' heq rfl).2
  · rw [List.concat_eq_append, ← List.cons_append, ← List.append_assoc] at heq
    cases (List.append_inj' heq rfl).2
    exact ⟨u, by simp⟩

theorem not_cleared_finished : ¬Cleared (h ++ [.finished t]) := by
  intro hc
  obtain ⟨u, hu⟩ := hc h t [] rfl
  cases hu

theorem cleared_concat (hf : ∀ t, x ≠ .finished t) (hr : ∀ t, x ≠ .resumed t) :
    Cleared (h ++ [x]) ↔ Cleared h := by
  constructor
  · rintro hc before t after rfl
    obtain ⟨u, hu⟩ := hc before t (after ++ [x]) (by simp)
    rcases List.mem_append.mp hu with hu | hu
    · exact ⟨u, hu⟩
    · exact absurd (List.mem_singleton.mp hu).symm (hr u)
  · intro hc before t after heq
    rcases List.eq_nil_or_concat after with rfl | ⟨after', z, rfl⟩
    · exact absurd (List.singleton_inj.mp (List.append_inj' heq rfl).2) (hf t)
    · rw [List.concat_eq_append, ← List.cons_append, ← List.append_assoc] at heq
      obtain ⟨u, hu⟩ := hc before t after' (List.append_inj' heq rfl).1
      exact ⟨u, by simp [hu]⟩

end Cleared

/-! ### What a step records -/

def Pc.isSwitched : Pc Sid → Bool
  | .switched _ => true
  | _ => false

/-- The current thread comes out of `SWITCH` next. -/
def State.AtSwitch (s : State Tid Sid) : Prop := (s.pc s.currentThread).isSwitched = true

/-- What a step does to the record and to the thread to be destroyed. -/
inductive Effect (s s' : State Tid Sid) : Prop where
  | silent (hlog : s'.log = s.log) (hd : s'.threadToBeDestroyed = s.threadToBeDestroyed)
      (hs : s.AtSwitch → s.threadToBeDestroyed = none) (hs' : ¬s'.AtSwitch)
  | forked (t : Tid) (hlog : s'.log = s.log ++ [.forked t])
      (hd : s'.threadToBeDestroyed = s.threadToBeDestroyed) (hs : ¬s.AtSwitch) (hs' : ¬s'.AtSwitch)
  | started (t : Tid) (hlog : s'.log = s.log ++ [.started t])
      (hd : s'.threadToBeDestroyed = s.threadToBeDestroyed) (hs : ¬s.AtSwitch) (hs' : ¬s'.AtSwitch)
  | resumed (t : Tid) (hlog : s'.log = s.log ++ [.resumed t])
      (hd : s'.threadToBeDestroyed = s.threadToBeDestroyed) (hs' : s'.AtSwitch)
  | finished (hlog : s'.log = s.log ++ [.finished s.currentThread])
      (hd : s'.threadToBeDestroyed = some s.currentThread)
      (hpc : s.pc s.currentThread = .outside) (hs' : ¬s'.AtSwitch)
  | deleted (t : Tid) (hlog : s'.log = s.log ++ [.deleted s.currentThread t])
      (hd : s.threadToBeDestroyed = some t) (hd' : s'.threadToBeDestroyed = none)
      (hne : t ≠ s.currentThread) (hs : s.AtSwitch) (hs' : ¬s'.AtSwitch)

omit [DecidableEq Tid] [DecidableEq Sid] in
theorem State.atSwitch {x : Pc Sid} (hpc : s.pc s.currentThread = x) (hx : x.isSwitched = true) :
    s.AtSwitch := by
  rw [AtSwitch, hpc, hx]

omit [DecidableEq Tid] [DecidableEq Sid] in
theorem State.not_atSwitch {x : Pc Sid} (hpc : s.pc s.currentThread = x)
    (hx : x.isSwitched = false) : ¬s.AtSwitch := by
  rw [AtSwitch, hpc, hx]
  decide

omit [DecidableEq Sid] in
theorem State.goto_not_atSwitch {x : Pc Sid} (hx : x.isSwitched = false) :
    ¬(s.goto x).AtSwitch :=
  not_atSwitch (show (s.goto x).pc s.currentThread = x from Function.update_self ..) hx

omit [DecidableEq Sid] in
/-- `SetLevel` as the last statement of a call records nothing. -/
theorem State.setLevel_silent (s : State Tid Sid) (now : IntStatus) :
    (s.setLevel now).log = s.log ∧
      (s.setLevel now).threadToBeDestroyed = s.threadToBeDestroyed ∧
      ¬(s.setLevel now).AtSwitch := by
  rw [setLevel]
  split_ifs
  · exact ⟨rfl, rfl, goto_not_atSwitch rfl⟩
  · exact ⟨rfl, rfl, goto_not_atSwitch rfl⟩

omit [DecidableEq Sid] in
theorem State.returnTo_silent (s : State Tid Sid) (k : Caller Sid) :
    (s.returnTo k).log = s.log ∧
      (s.returnTo k).threadToBeDestroyed = s.threadToBeDestroyed ∧
      ¬(s.returnTo k).AtSwitch := by
  cases k with
  | yield oldLevel => exact s.setLevel_silent oldLevel
  | p sema oldLevel => exact ⟨rfl, rfl, goto_not_atSwitch rfl⟩
  | finish => exact ⟨rfl, rfl, goto_not_atSwitch rfl⟩

section Effect
variable {u : State Tid Sid} {nextThread : Tid}

omit [DecidableEq Sid] in
/-- The call that ends in state `u` and then restores the interrupt level. -/
theorem effect_setLevel (hlog : u.log = s.log)
    (hd : u.threadToBeDestroyed = s.threadToBeDestroyed) (hs : ¬s.AtSwitch) (now : IntStatus) :
    Effect s (u.setLevel now) := by
  obtain ⟨hlog', hd', hs'⟩ := u.setLevel_silent now
  exact .silent (hlog'.trans hlog) (hd'.trans hd) (fun h => absurd h hs) hs'

/-- The dispatch in state `u` of the thread that `FindNextToRun` returned. -/
theorem Popped.effect (hp : Popped mainThread nextThread k.mode k.finishing u)
    (hcur : u.pc u.currentThread ≠ .root) (hlog : u.log = s.log)
    (hd : u.threadToBeDestroyed = s.threadToBeDestroyed) (hs : ¬s.AtSwitch) :
    Effect s (u.run nextThread k) := by
  rcases u.run_log nextThread k with ⟨hrun, hroot⟩ | ⟨hrun, hroot⟩
  · have hne : nextThread ≠ u.currentThread := by
      rintro rfl
      exact hcur hroot
    have hpc : (u.run nextThread k).pc nextThread = .root :=
      (Function.update_of_ne hne ..).trans hroot
    exact .started nextThread (by rw [hrun, hlog]) hd hs (State.not_atSwitch hpc rfl)
  · refine .resumed nextThread (by rw [hrun, hlog]) hd ?_
    by_cases hself : nextThread = u.currentThread
    · have hpc : (u.run nextThread k).pc nextThread = .switched k := by
        rw [hself]
        exact Function.update_self ..
      exact State.atSwitch hpc rfl
    · have hpc : (u.run nextThread k).pc nextThread = u.pc nextThread :=
        Function.update_of_ne hself ..
      have hnext := hp.next hself
      cases hx : u.pc nextThread with
      | root => exact absurd hx hroot
      | switched k' => exact State.atSwitch (hpc.trans hx) rfl
      | _ =>
        rw [hx] at hnext
        cases hnext

theorem Mid.effect_yield (hm : Mid mainThread .running false u)
    (hcur : u.pc u.currentThread ≠ .root) (hlog : u.log = s.log)
    (hd : u.threadToBeDestroyed = s.threadToBeDestroyed) (hs : ¬s.AtSwitch) :
    Effect s u.yield := by
  have hoff := hm.setInterrupts .off u.yieldOnReturn
  cases hq : u.readyList with
  | nil =>
    rw [u.yield_of_nil hq]
    refine effect_setLevel ?_ ?_ hs u.level
    · exact hlog
    · exact hd
  | cons nextThread l =>
    rw [u.yield_of_cons hq]
    have hpop : Popped mainThread nextThread .running false
        { u with level := .off, readyList := l } := hoff.pop hq
    exact Popped.effect (k := .yield u.level) hpop.readyToRun hcur hlog hd hs

theorem effect_call (hi : Inv mainThread s) (hpc : s.pc s.currentThread = .outside)
    (c : Call Tid Sid) : Effect s (s.call c) := by
  have hm : Mid mainThread .running false s := hi.mid hpc rfl
  have hs : ¬s.AtSwitch := State.not_atSwitch hpc rfl
  cases c with
  | setLevel now => exact effect_setLevel rfl rfl hs now
  | oneTick => exact .silent rfl rfl (fun h => absurd h hs) (State.goto_not_atSwitch rfl)
  | fork t =>
    refine .forked t ?_ ?_ hs ?_
    · exact (State.setLevel_silent _ s.level).1
    · exact (State.setLevel_silent _ s.level).2.1
    · exact (State.setLevel_silent _ s.level).2.2
  | yield => exact hm.effect_yield (by simp [hpc]) rfl rfl hs
  | p sema => exact .silent rfl rfl (fun h => absurd h hs) (State.goto_not_atSwitch rfl)
  | v sema =>
    refine effect_setLevel ?_ ?_ hs s.level
    · exact State.v_log _ sema
    · exact State.v_threadToBeDestroyed _ sema
  | finish => exact .finished rfl rfl hpc (State.goto_not_atSwitch rfl)

/-- A thread that comes out of `SWITCH` deletes the one to be destroyed. -/
theorem effect_afterSwitch (hi : Inv mainThread s) (hpc : s.pc s.currentThread = .switched k) :
    Effect s (s.afterSwitch k) := by
  cases hd : s.threadToBeDestroyed with
  | none =>
    rw [State.afterSwitch, hd]
    obtain ⟨hlog, hd', hs'⟩ := s.returnTo_silent k
    exact .silent hlog hd' (fun _ => hd) hs'
  | some t =>
    have hne := hi.destroyed_ne hpc hd
    rw [State.afterSwitch, hd]
    simp only [hne, if_false]
    refine .deleted t ?_ hd ?_ hne (State.atSwitch hpc rfl) ?_
    · exact (State.returnTo_silent _ k).1
    · exact (State.returnTo_silent _ k).2.1
    · exact (State.returnTo_silent _ k).2.2

theorem effect_next (hi : Inv mainThread s) (hs : s.next (s.pc s.currentThread) = some s') :
    Effect s s' := by
  cases hpc : s.pc s.currentThread with
  | created | outside | notReached | assertFailed =>
    rw [hpc] at hs
    cases hs
  | root =>
    rw [hpc] at hs
    cases hs
    exact effect_setLevel rfl rfl (State.not_atSwitch hpc rfl) .on
  | oneTick =>
    have hm : Mid mainThread .running false s := hi.mid hpc rfl
    have hno : ¬s.AtSwitch := State.not_atSwitch hpc rfl
    rw [hpc] at hs
    cases hs
    split_ifs
    · refine (hm.setInterrupts .on false).effect_yield ?_ rfl rfl hno
      simp [hpc]
    · exact .silent rfl rfl (fun h => absurd h hno) (State.goto_not_atSwitch rfl)
  | test sema oldLevel =>
    have hno : ¬s.AtSwitch := State.not_atSwitch hpc rfl
    rw [hpc] at hs
    cases hs
    rcases hP : (s.sema sema).P s.currentThread with ⟨S, passed⟩
    rw [State.test, hP]
    cases passed with
    | true =>
      refine effect_setLevel ?_ ?_ hno oldLevel
      · rfl
      · rfl
    | false => exact .silent rfl rfl (fun h => absurd h hno) (State.goto_not_atSwitch rfl)
  | sleep k =>
    have hm : Mid mainThread k.mode k.finishing s := hi.mid hpc rfl
    have hno : ¬s.AtSwitch := State.not_atSwitch hpc rfl
    rw [hpc] at hs
    cases hq : s.readyList with
    | nil =>
      simp only [State.next, State.findNextToRun, hq] at hs
      cases hs
      exact .silent rfl rfl (fun h => absurd h hno) (State.goto_not_atSwitch rfl)
    | cons nextThread l =>
      simp only [State.next, State.findNextToRun, hq] at hs
      cases hs
      refine (hm.pop hq).effect ?_ rfl rfl hno
      simp [hpc]
  | idle k =>
    have hno : ¬s.AtSwitch := State.not_atSwitch hpc rfl
    rw [hpc] at hs
    cases hs
    exact .silent rfl rfl (fun h => absurd h hno) (State.goto_not_atSwitch rfl)
  | switched k =>
    rw [hpc] at hs
    cases hs
    exact effect_afterSwitch hi hpc

theorem effect_handle (hs : ¬s.AtSwitch) (i : Handler Sid) : Effect s (s.handle i) := by
  cases i with
  | v sema =>
    refine .silent (s.v_log sema) (s.v_threadToBeDestroyed sema) (fun h => absurd h hs) ?_
    rw [State.AtSwitch, State.handle, State.v_pc, State.v_currentThread]
    exact hs
  | yieldOnReturn => exact .silent rfl rfl (fun h => absurd h hs) hs

theorem effect_of_step (hi : Inv mainThread s) (hs : s.step e = some s') : Effect s s' := by
  cases e with
  | call c =>
    obtain ⟨hpc, hs⟩ := Option.ite_none_right_eq_some.mp hs
    cases hs
    exact effect_call hi hpc c
  | step => exact effect_next hi hs
  | interrupt i =>
    rw [State.step] at hs
    split at hs
    case h_1 hpc =>
      cases hs
      exact effect_handle (State.not_atSwitch hpc rfl) i
    case h_2 hpc =>
      cases hs
      exact effect_handle (State.not_atSwitch hpc rfl) i
    case h_3 => cases hs

end Effect

/-! ### The threads that have finished -/

/-- What the record says of deletions. -/
structure Account (s : State Tid Sid) : Prop where
  pending : Cleared s.log → s.threadToBeDestroyed = none ∨ s.AtSwitch
  held : ¬Cleared s.log → s.threadToBeDestroyed ≠ none
  switch : s.AtSwitch → Cleared s.log
  destroyed : ∀ t, s.threadToBeDestroyed = some t →
    .finished t ∈ s.log ∧ ∀ u, .deleted u t ∉ s.log
  deleted : ∀ u t, .deleted u t ∈ s.log → .finished t ∈ s.log
  once : EachAfter DeletedOnce s.log
  kept : EachAfter FinishesCleared s.log → ∀ t, .finished t ∈ s.log →
    (∀ u, .deleted u t ∉ s.log) → s.threadToBeDestroyed = some t
  lost : ¬EachAfter FinishesCleared s.log →
    ∃ t, .finished t ∈ s.log ∧ (∀ u, .deleted u t ∉ s.log) ∧ s.threadToBeDestroyed ≠ some t

/-- Events that are neither the finishing nor the deletion of a thread. -/
def Seen.plain : Seen Tid → Bool
  | .finished _ | .deleted _ _ => false
  | _ => true

section
omit [DecidableEq Tid]

theorem Seen.finished_mem_concat (hx : x.plain = true) :
    .finished t ∈ h ++ [x] ↔ .finished t ∈ h := by
  cases x with
  | finished u | deleted u v => cases hx
  | _ => simp

theorem Seen.deleted_mem_concat {u : Tid} (hx : x.plain = true) :
    .deleted u t ∈ h ++ [x] ↔ .deleted u t ∈ h := by
  cases x with
  | finished u | deleted u v => cases hx
  | _ => simp

theorem Seen.deletedOnce (hx : x.plain = true) : DeletedOnce h x := by
  cases x with
  | finished u | deleted u v => cases hx
  | _ => trivial

theorem Seen.finishesCleared (hx : x.plain = true) : FinishesCleared h x := by
  cases x with
  | finished u | deleted u v => cases hx
  | _ => trivial

end

section
omit [DecidableEq Tid] [DecidableEq Sid]

/-- An event that is neither, with no change to the thread to be destroyed. -/
theorem Account.plain (ha : Account s) (hx : x.plain = true) (hlog : s'.log = s.log ++ [x])
    (hd : s'.threadToBeDestroyed = s.threadToBeDestroyed)
    (hpending : Cleared s'.log → s.threadToBeDestroyed = none ∨ s'.AtSwitch)
    (hheld : ¬Cleared s'.log → ¬Cleared s.log) (hswitch : s'.AtSwitch → Cleared s'.log) :
    Account s' := by
  have hfin (t : Tid) : .finished t ∈ s'.log ↔ .finished t ∈ s.log := by
    rw [hlog, Seen.finished_mem_concat hx]
  have hdel (u t : Tid) : .deleted u t ∈ s'.log ↔ .deleted u t ∈ s.log := by
    rw [hlog, Seen.deleted_mem_concat hx]
  have hall : EachAfter FinishesCleared s'.log ↔ EachAfter FinishesCleared s.log := by
    rw [hlog, EachAfter.concat_iff]
    exact and_iff_left (Seen.finishesCleared hx)
  refine ⟨?_, ?_, hswitch, ?_, ?_, ?_, ?_, ?_⟩
  · rwa [hd]
  · rw [hd]
    exact fun h => ha.held (hheld h)
  · simp only [hd, hfin, hdel]
    exact ha.destroyed
  · simp only [hfin, hdel]
    exact ha.deleted
  · rw [hlog]
    exact ha.once.concat (Seen.deletedOnce hx)
  · simp only [hall, hd, hfin, hdel]
    exact ha.kept
  · simp only [hall, hd, hfin, hdel]
    exact ha.lost

/-- The current thread finishes. -/
theorem Account.finish (ha : Account s) (hlog : s'.log = s.log ++ [.finished s.currentThread])
    (hd : s'.threadToBeDestroyed = some s.currentThread) (hs : ¬s.AtSwitch) (hs' : ¬s'.AtSwitch)
    (hnot : .finished s.currentThread ∉ s.log) : Account s' := by
  have hdel (u t : Tid) : .deleted u t ∈ s'.log ↔ .deleted u t ∈ s.log := by
    rw [hlog]
    simp
  have hfin (t : Tid) :
      .finished t ∈ s'.log ↔ .finished t ∈ s.log ∨ t = s.currentThread := by
    rw [hlog]
    simp
  have hnotCleared : ¬Cleared s'.log := hlog ▸ not_cleared_finished
  refine ⟨fun h => absurd h hnotCleared, ?_, fun h => absurd h hs', ?_, ?_, ?_, ?_, ?_⟩
  · simp [hd]
  · intro t ht
    rw [hd] at ht
    cases ht
    refine ⟨(hfin _).mpr (.inr rfl), ?_⟩
    intro u hu
    exact hnot (ha.deleted u _ ((hdel u _).mp hu))
  · intro u t ht
    exact (hfin t).mpr (.inl (ha.deleted u t ((hdel u t).mp ht)))
  · rw [hlog]
    exact ha.once.concat trivial
  · intro hall t ht hno
    rw [hlog, EachAfter.concat_iff] at hall
    rcases (hfin t).mp ht with ht | ht
    · have hsome := ha.kept hall.1 t ht fun u hu => hno u ((hdel u t).mpr hu)
      rcases ha.pending hall.2 with hnone | hswitch
      · rw [hnone] at hsome
        cases hsome
      · exact absurd hswitch hs
    · rw [hd, ht]
  · intro hall
    by_cases hbefore : EachAfter FinishesCleared s.log
    · -- this thread takes the place of the one that waits to be deleted
      have hheld : ¬Cleared s.log := by
        intro hc
        apply hall
        rw [hlog]
        exact hbefore.concat hc
      obtain ⟨t, ht⟩ := Option.ne_none_iff_exists'.mp (ha.held hheld)
      obtain ⟨hfinished, hno⟩ := ha.destroyed t ht
      refine ⟨t, (hfin t).mpr (.inl hfinished), fun u hu => hno u ((hdel u t).mp hu), ?_⟩
      rw [hd]
      rintro heq
      cases heq
      exact hnot hfinished
    · obtain ⟨t, hfinished, hno, -⟩ := ha.lost hbefore
      refine ⟨t, (hfin t).mpr (.inl hfinished), fun u hu => hno u ((hdel u t).mp hu), ?_⟩
      rw [hd]
      rintro heq
      cases heq
      exact hnot hfinished

/-- The thread to be destroyed is deleted. -/
theorem Account.delete (ha : Account s) (hlog : s'.log = s.log ++ [.deleted s.currentThread t])
    (hd : s.threadToBeDestroyed = some t) (hd' : s'.threadToBeDestroyed = none)
    (hne : t ≠ s.currentThread) (hs : s.AtSwitch) (hs' : ¬s'.AtSwitch) : Account s' := by
  have hfin (v : Tid) : .finished v ∈ s'.log ↔ .finished v ∈ s.log := by
    rw [hlog]
    simp
  have hdel (u v : Tid) : .deleted u v ∈ s'.log ↔
      .deleted u v ∈ s.log ∨ u = s.currentThread ∧ v = t := by
    rw [hlog]
    simp
  have hcleared : Cleared s'.log := by
    have hf : ∀ u, Seen.deleted s.currentThread t ≠ .finished u := by simp
    have hr : ∀ u, Seen.deleted s.currentThread t ≠ .resumed u := by simp
    rw [hlog, cleared_concat hf hr]
    exact ha.switch hs
  have hall : EachAfter FinishesCleared s'.log ↔ EachAfter FinishesCleared s.log := by
    rw [hlog, EachAfter.concat_iff]
    exact and_iff_left trivial
  obtain ⟨hfinished, hno⟩ := ha.destroyed t hd
  refine ⟨fun _ => .inl hd', fun h => absurd hcleared h, fun h => absurd h hs', ?_, ?_, ?_, ?_, ?_⟩
  · simp [hd']
  · intro u v hv
    rw [hfin]
    rcases (hdel u v).mp hv with hv | ⟨-, rfl⟩
    · exact ha.deleted u v hv
    · exact hfinished
  · rw [hlog]
    exact ha.once.concat ⟨hne, hno⟩
  · intro h v hv hnov
    have hsome := ha.kept (hall.mp h) v ((hfin v).mp hv)
      fun u hu => hnov u ((hdel u v).mpr (.inl hu))
    rw [hd] at hsome
    cases hsome
    exact absurd ((hdel s.currentThread t).mpr (.inr ⟨rfl, rfl⟩)) (hnov _)
  · intro h
    obtain ⟨v, hv, hnov, hvt⟩ := ha.lost (mt hall.mpr h)
    refine ⟨v, (hfin v).mpr hv, ?_, by simp [hd']⟩
    intro u hu
    rcases (hdel u v).mp hu with hu | ⟨-, rfl⟩
    · exact hnov u hu
    · exact hvt hd

/-- An event that is not of the deletion, nor a dispatch of a thread that ran before. -/
theorem Account.other (ha : Account s) (hlog : s'.log = s.log ++ [x])
    (hd : s'.threadToBeDestroyed = s.threadToBeDestroyed) (hs : ¬s.AtSwitch) (hs' : ¬s'.AtSwitch)
    (hx : x.plain = true) (hr : ∀ u, x ≠ .resumed u) : Account s' := by
  have hf (u : Tid) : x ≠ .finished u := by
    rintro rfl
    cases hx
  have hiff : Cleared s'.log ↔ Cleared s.log := by
    rw [hlog, cleared_concat hf hr]
  refine ha.plain hx hlog hd ?_ (mt hiff.mpr) fun h => absurd h hs'
  intro hc
  rcases ha.pending (hiff.mp hc) with hnone | hswitch
  · exact .inl hnone
  · exact absurd hswitch hs

theorem Account.silent (ha : Account s) (hlog : s'.log = s.log)
    (hd : s'.threadToBeDestroyed = s.threadToBeDestroyed)
    (hs : s.AtSwitch → s.threadToBeDestroyed = none) (hs' : ¬s'.AtSwitch) : Account s' := by
  refine ⟨?_, ?_, fun h => absurd h hs', ?_, ?_, ?_, ?_, ?_⟩
  · rw [hlog, hd]
    intro hc
    rcases ha.pending hc with hnone | hswitch
    · exact .inl hnone
    · exact .inl (hs hswitch)
  · rw [hlog, hd]
    exact ha.held
  · rw [hlog, hd]
    exact ha.destroyed
  · rw [hlog]
    exact ha.deleted
  · rw [hlog]
    exact ha.once
  · rw [hlog, hd]
    exact ha.kept
  · rw [hlog, hd]
    exact ha.lost

end

theorem account_step (hi : Inv mainThread s) (ha : Account s) (he : Effect s s') :
    Account s' := by
  cases he with
  | silent hlog hd hs hs' => exact ha.silent hlog hd hs hs'
  | forked t hlog hd hs hs' => exact ha.other hlog hd hs hs' rfl (by simp)
  | started t hlog hd hs hs' => exact ha.other hlog hd hs hs' rfl (by simp)
  | resumed t hlog hd hs' =>
    have hc : Cleared s'.log := hlog ▸ cleared_resumed t
    exact ha.plain rfl hlog hd (fun _ => .inr hs') (fun h => absurd hc h) fun _ => hc
  | finished hlog hd hpc hs' =>
    have hm : Mid mainThread .running false s := hi.mid hpc rfl
    apply ha.finish hlog hd (State.not_atSwitch hpc rfl) hs'
    rw [hm.record.finished, if_pos rfl]
    decide
  | deleted t hlog hd hd' hne hs hs' => exact ha.delete hlog hd hd' hne hs hs'

theorem account_reach (hr : (machine mainThread).Reach (Once mainThread) s) : Account s := by
  apply hr.invariant Account
  · intro s h0
    have h0 : Start mainThread s := h0
    have hs : ¬s.AtSwitch := by
      apply State.not_atSwitch (x := .outside) ?_ rfl
      rw [h0.currentThread, h0.pc, Function.update_self]
    have hall : EachAfter FinishesCleared s.log := h0.log ▸ .nil
    refine ⟨fun _ => .inl h0.threadToBeDestroyed, ?_, fun h => absurd h hs, ?_, ?_, ?_, ?_,
      fun h => absurd hall h⟩
    · rw [h0.log]
      exact fun h => absurd cleared_nil h
    · simp [h0.threadToBeDestroyed]
    · simp [h0.log]
    · rw [h0.log]
      exact .nil
    · simp [h0.log]
  · intro s e s' hreach ha honce hs
    have hi := inv_reach hreach
    exact account_step hi ha (effect_of_step hi hs)

theorem Inv.asserted (hi : Inv mainThread s) : s.pc s.currentThread ≠ .assertFailed := by
  intro hpc
  obtain ⟨μ, hμ, -⟩ := hi.here
  rw [hpc] at hμ
  cases hμ

/-- Finished threads are all reclaimed, one at a time, just in the runs in which no thread
finishes while only new threads were dispatched since another one did. -/
theorem finished_threads_reclaimed_iff (hr : (machine mainThread).Reach (Once mainThread) s) :
    Reclaims s ↔ EachAfter FinishesCleared s.log := by
  have ha := account_reach hr
  constructor
  · intro hrec
    by_contra hall
    obtain ⟨t, hfinished, hno, hne⟩ := ha.lost hall
    exact hne (hrec.pending t hfinished hno)
  · intro hall
    exact ⟨ha.kept hall, ha.once, (inv_reach hr).asserted⟩

/-- The main thread of three. -/
def main3 : Option (Fin 2) := none

/-- Two threads are forked, and each finishes as soon as it runs. -/
def finishTwice : List (Event (Option (Fin 2)) Unit) :=
  [.call (.fork (some t0)), .step, .call (.fork (some t1)), .step, .call .yield, .step, .step,
    .call .finish, .step, .step, .step, .call .finish, .step, .step, .step]

/-- The second one has taken the place of the first one, which is never deleted. -/
theorem finished_thread_is_lost :
    ∃ s, (machine main3).Reach (Once main3) s ∧
      (machine main3).run (initialState main3) finishTwice = some s ∧
      s.currentThread = main3 ∧ s.level = .on ∧ .deleted main3 (some t1) ∈ s.log ∧
      .finished (some t0) ∈ s.log ∧ (∀ u, .deleted u (some t0) ∉ s.log) ∧
      s.threadToBeDestroyed = none ∧ ¬Reclaims s := by
  have h0 : (machine main3).init (initialState main3) := start_initialState _
  have hr : (machine main3).Reach (Once main3) _ :=
    Machine.Reach.run (.init h0) (show Machine.Meets _ _ _ finishTwice by decide) rfl
  refine ⟨_, hr, rfl, rfl, rfl, by decide, by decide, by decide, rfl, ?_⟩
  intro hrec
  have hsome := hrec.pending (some t0) (by decide) (by decide)
  cases hsome

/-- The main thread is dispatched between the two. -/
def finishInTurn : List (Event (Option (Fin 2)) Unit) :=
  [.call (.fork (some t0)), .step, .call .yield, .step, .step, .call .finish, .step, .step, .step,
    .call (.fork (some t1)), .step, .call .yield, .step, .step, .call .finish, .step, .step]

theorem finished_threads_reclaimed_in_turn :
    ∃ s, (machine main3).run (initialState main3) finishInTurn = some s ∧ Reclaims s := by
  have h0 : (machine main3).init (initialState main3) := start_initialState _
  have hr : (machine main3).Reach (Once main3) _ :=
    Machine.Reach.run (.init h0) (show Machine.Meets _ _ _ finishInTurn by decide) rfl
  refine ⟨_, rfl, (finished_threads_reclaimed_iff hr).mpr ?_⟩
  have hfirst : Cleared ([] ++ [.forked (some t0)] ++ [.started (some t0)]) :=
    (cleared_concat nofun nofun).mpr ((cleared_concat nofun nofun).mpr cleared_nil)
  have hsecond : Cleared ([.forked (some t0), .started (some t0), .finished (some t0)] ++
      [.resumed main3] ++ [.deleted main3 (some t0)] ++ [.forked (some t1)] ++
        [.started (some t1)]) :=
    (cleared_concat nofun nofun).mpr ((cleared_concat nofun nofun).mpr
      ((cleared_concat nofun nofun).mpr (cleared_resumed main3)))
  change EachAfter FinishesCleared [.forked (some t0), .started (some t0), .finished (some t0),
    .resumed main3, .deleted main3 (some t0), .forked (some t1), .started (some t1),
    .finished (some t1), .resumed main3, .deleted main3 (some t1)]
  simp only [EachAfter.cons_iff, FinishesCleared, EachAfter.nil, true_and, and_true]
  exact ⟨hfirst, hsecond⟩

end Coursework.Nachos.Scheduler
