import Coursework.Nachos.Scheduler.Place

/-!
# No thread is lost and none is scheduled twice

`FindNextToRun` takes a thread off the ready list and `Run` makes it the current one; between the
two it is nowhere. A thread that was woken while it idles finds itself.
-/
namespace Coursework.Nachos.Scheduler

variable {Tid Sid : Type} [DecidableEq Tid] [DecidableEq Sid] {mainThread t nextThread : Tid}
  {s s' : State Tid Sid} {μ : Mode} {fin : Bool} {x : Pc Sid} {k : Caller Sid} {sema : Sid}
  {l : List Tid} {e : Event Tid Sid}

/-- After `FindNextToRun`: the thread it returned is in no list. -/
structure Popped (mainThread nextThread : Tid) (μ : Mode) (fin : Bool) (s : State Tid Sid) :
    Prop where
  modes : ∃ m, s.Modes m ∧ m nextThread = .absent ∧
    (nextThread ≠ s.currentThread → m s.currentThread = μ) ∧
    ∀ t, t ≠ s.currentThread → t ≠ nextThread → (s.pc t).mode false = some (m t)
  next : nextThread ≠ s.currentThread → (s.pc nextThread).mode false = some .listed
  self : nextThread = s.currentThread → μ = .listed
  record : Record mainThread fin s

theorem Mid.pop (hm : Mid mainThread μ fin s) (hq : s.readyList = nextThread :: l) :
    Popped mainThread nextThread μ fin { s with readyList := l } := by
  rcases hm.among with ⟨m, hmodes, hcur, hothers⟩
  have hlists : ({ s with readyList := l } : State Tid Sid).lists =
      Function.update s.lists .ready l := State.lists_of_sema_eq rfl
  obtain ⟨hlisted, htake⟩ := hmodes.take (k := .ready) hq hlists rfl
  refine ⟨⟨_, htake, Function.update_self .., ?_, ?_⟩, ?_, ?_, ?_⟩
  · intro hne
    rw [Function.update_of_ne (Ne.symm hne)]
    exact hcur
  · intro t ht hnext
    rw [Function.update_of_ne hnext]
    exact hothers t ht
  · intro hne
    rw [← hlisted]
    exact hothers nextThread hne
  · intro hself
    have hself : nextThread = s.currentThread := hself
    rw [← hcur, ← hself]
    exact hlisted
  · exact hm.record.congr rfl rfl rfl hm.record.destroyed

theorem Popped.not_finishing (hp : Popped mainThread nextThread k.mode fin s)
    (hself : nextThread = s.currentThread) : k.finishing = false :=
  Caller.not_finishing (hp.self hself)

/-- Where the dispatched thread goes on. -/
theorem Popped.next_pc (hp : Popped mainThread nextThread k.mode fin s) :
    ((s.run nextThread k).pc nextThread).mode true = some .running ∧
      ((s.run nextThread k).pc nextThread).finishing = false := by
  by_cases hself : nextThread = s.currentThread
  · have hk := hp.not_finishing hself
    have hpc : (s.run nextThread k).pc nextThread = .switched k := by
      rw [hself]
      exact Function.update_self ..
    rw [hpc]
    exact ⟨by rw [Pc.mode, hk]; rfl, hk⟩
  · have hpc : (s.run nextThread k).pc nextThread = s.pc nextThread :=
      Function.update_of_ne hself ..
    rw [hpc]
    exact Pc.mode_dispatch (hp.next hself)

theorem Popped.not_finished (hp : Popped mainThread nextThread k.mode k.finishing s) :
    .finished nextThread ∉ s.log := by
  rw [hp.record.finished]
  by_cases hself : nextThread = s.currentThread
  · rw [if_pos hself, hp.not_finishing hself]
    decide
  · rw [if_neg hself, (Pc.mode_dispatch (hp.next hself)).2]
    decide

theorem State.run_log (s : State Tid Sid) (nextThread : Tid) (k : Caller Sid) :
    (s.run nextThread k).log = s.log ++ [.started nextThread] ∧ s.pc nextThread = .root ∨
      (s.run nextThread k).log = s.log ++ [.resumed nextThread] ∧ s.pc nextThread ≠ .root := by
  by_cases hroot : s.pc nextThread = .root
  · exact .inl ⟨by simp only [State.run, hroot, if_true], hroot⟩
  · exact .inr ⟨by simp only [State.run, hroot, if_false], hroot⟩

/-- A dispatch adds nothing to the record but itself. -/
theorem State.mem_run_log {y : Seen Tid} (hy : ∀ t, y ≠ .started t ∧ y ≠ .resumed t) :
    y ∈ (s.run nextThread k).log ↔ y ∈ s.log := by
  rcases s.run_log nextThread k with ⟨hlog, -⟩ | ⟨hlog, -⟩ <;>
    simp [hlog, (hy nextThread).1, (hy nextThread).2]

theorem Popped.run_record (hp : Popped mainThread nextThread k.mode k.finishing s) :
    Record mainThread false (s.run nextThread k) := by
  have hr := hp.record
  obtain ⟨hnext, hfin⟩ := hp.next_pc
  have hcur : (s.run nextThread k).pc s.currentThread = .switched k := Function.update_self ..
  have hother (t : Tid) (ht : t ≠ s.currentThread) : (s.run nextThread k).pc t = s.pc t :=
    Function.update_of_ne ht ..
  have hfinished (t : Tid) : .finished t ∈ (s.run nextThread k).log ↔ .finished t ∈ s.log :=
    State.mem_run_log (y := .finished t) fun _ => ⟨by simp, by simp⟩
  refine ⟨?_, Pc.ne_created hnext, ?_, ?_, ?_⟩
  · intro t
    rw [State.mem_run_log (y := .forked t) fun _ => ⟨by simp, by simp⟩]
    by_cases ht : t = s.currentThread
    · rw [ht, hcur]
      exact iff_of_false (by simp) fun h => hr.current ((hr.created _).mpr h)
    · rw [hother t ht]
      exact hr.created t
  · intro t
    rw [hfinished]
    by_cases ht : t = nextThread
    · rw [if_pos (show t = (s.run nextThread k).currentThread from ht), ht]
      exact iff_of_false hp.not_finished (by decide)
    · rw [if_neg (show ¬t = (s.run nextThread k).currentThread from ht), hr.finished]
      by_cases htc : t = s.currentThread
      · rw [if_pos htc, htc, hcur]
        rfl
      · rw [if_neg htc, hother t htc]
  · intro t ht
    rw [hfinished]
    exact hr.destroyed t ht
  · rcases s.run_log nextThread k with ⟨hlog, -⟩ | ⟨hlog, -⟩
    · rw [hlog]
      exact hr.dispatched.concat hp.not_finished
    · rw [hlog]
      exact hr.dispatched.concat hp.not_finished

theorem Popped.run (hp : Popped mainThread nextThread k.mode k.finishing s)
    (hl : s.level = .off) : Inv mainThread (s.run nextThread k) := by
  obtain ⟨hnext, hfin⟩ := hp.next_pc
  refine ⟨⟨.running, hnext, ?_, ?_⟩, ?_⟩
  · rcases hp.modes with ⟨m, hmodes, habsent, hcur, hothers⟩
    refine ⟨Function.update m nextThread .running,
      hmodes.setStatus (by rw [habsent]; decide) rfl rfl ⟨rfl, rfl⟩, Function.update_self .., ?_⟩
    intro t ht
    have ht : t ≠ nextThread := ht
    rw [Function.update_of_ne ht]
    by_cases htc : t = s.currentThread
    · subst htc
      have hpc : (s.run nextThread k).pc s.currentThread = .switched k := Function.update_self ..
      rw [hpc, hcur (Ne.symm ht)]
      rfl
    · have hpc : (s.run nextThread k).pc t = s.pc t := Function.update_of_ne htc ..
      rw [hpc]
      exact hothers t htc ht
  · have hfin : ((s.run nextThread k).pc (s.run nextThread k).currentThread).finishing = false :=
      hfin
    rw [hfin]
    exact hp.run_record
  · intro hon
    rw [show s.level = .on from hon] at hl
    cases hl

/-- The thread that yields goes behind the others. -/
theorem Popped.readyToRun (hp : Popped mainThread nextThread .running fin s) :
    Popped mainThread nextThread .listed fin (s.readyToRun s.currentThread) := by
  have hne : nextThread ≠ s.currentThread := by
    intro hself
    cases hp.self hself
  refine ⟨?_, hp.next, fun _ => rfl, hp.record.congr rfl rfl rfl hp.record.destroyed⟩
  rcases hp.modes with ⟨m, hmodes, habsent, hcur, hothers⟩
  refine ⟨Function.update m s.currentThread .listed,
    hmodes.readyToRun (by rw [hcur hne]; decide), ?_, fun _ => Function.update_self .., ?_⟩
  · rw [Function.update_of_ne hne]
    exact habsent
  · intro t ht hnext
    have ht : t ≠ s.currentThread := ht
    rw [Function.update_of_ne ht]
    exact hothers t ht hnext

/-- `Yield` finds nobody. -/
theorem State.yield_of_nil (s : State Tid Sid) (hq : s.readyList = []) :
    s.yield = { s with level := .off }.setLevel s.level := by
  simp only [yield, findNextToRun, hq, List.head?_nil, List.tail_nil]

theorem State.yield_of_cons (s : State Tid Sid) (hq : s.readyList = nextThread :: l) :
    s.yield = ({ s with level := .off, readyList := l }.readyToRun
      s.currentThread).run nextThread (.yield s.level) := by
  simp [yield, findNextToRun, hq]

theorem Mid.yield (hm : Mid mainThread .running false s) : Inv mainThread s.yield := by
  have hoff := hm.setInterrupts .off s.yieldOnReturn
  cases hq : s.readyList with
  | nil =>
    rw [s.yield_of_nil hq]
    exact hoff.setLevel s.level
  | cons nextThread l =>
    rw [s.yield_of_cons hq]
    have hpop : Popped mainThread nextThread .running false
        { s with level := .off, readyList := l } := hoff.pop hq
    exact Popped.run (k := .yield s.level) hpop.readyToRun rfl

/-! ### Steps and runs -/

theorem Inv.call (hi : Inv mainThread s) (hpc : s.pc s.currentThread = .outside)
    (c : Call Tid Sid) (hc : ∀ t, c = .fork t → s.pc t = .created) :
    Inv mainThread (s.call c) := by
  have hm : Mid mainThread .running false s := hi.mid hpc rfl
  have hoff := hm.setInterrupts .off s.yieldOnReturn
  cases c with
  | setLevel now => exact hm.setLevel now
  | oneTick => exact hm.oneTick
  | fork t => exact hm.fork (hc t rfl)
  | yield => exact hm.yield
  | p sema => exact hoff.goto rfl rfl (.inl rfl)
  | v sema => exact (hoff.v sema).setLevel s.level
  | finish => exact hm.finish

theorem Mid.returnTo (hm : Mid mainThread .running false s) (hl : s.level = .off)
    (hk : k.finishing = false) : Inv mainThread (s.returnTo k) := by
  cases k with
  | yield oldLevel => exact hm.setLevel oldLevel
  | p sema oldLevel =>
    exact hm.goto rfl rfl (.inl hl)
  | finish => cases hk

theorem Inv.mid_of_switched (hi : Inv mainThread s) (hpc : s.pc s.currentThread = .switched k) :
    k.finishing = false ∧ Mid mainThread .running false s := by
  have hk : k.finishing = false := by
    obtain ⟨μ, hμ, -⟩ := hi.here
    rw [hpc, Pc.mode] at hμ
    cases hfin : k.finishing with
    | false => rfl
    | true => simp [hfin] at hμ
  have hm : Mid mainThread .running k.finishing s := hi.mid hpc (by rw [Pc.mode, hk]; rfl)
  rw [hk] at hm
  exact ⟨hk, hm⟩

/-- The destructor does not meet the current thread. -/
theorem Inv.destroyed_ne (hi : Inv mainThread s) (hpc : s.pc s.currentThread = .switched k)
    (hd : s.threadToBeDestroyed = some t) : t ≠ s.currentThread := by
  have hrec := (hi.mid_of_switched hpc).2.record
  intro ht
  have hfinished := hrec.destroyed t hd
  rw [hrec.finished, if_pos ht] at hfinished
  cases hfinished

/-- A thread that comes out of `SWITCH` deletes another one. -/
theorem Inv.afterSwitch (hi : Inv mainThread s) (hpc : s.pc s.currentThread = .switched k) :
    Inv mainThread (s.afterSwitch k) := by
  have hl : s.level = .off := hi.off (by simp [hpc])
  obtain ⟨hk, hm⟩ := hi.mid_of_switched hpc
  cases hd : s.threadToBeDestroyed with
  | none =>
    rw [State.afterSwitch, hd]
    exact hm.returnTo hl hk
  | some t =>
    have hne := hi.destroyed_ne hpc hd
    rw [State.afterSwitch, hd]
    simp only [hne, if_false]
    refine Mid.returnTo ⟨hm.among, ?_⟩ hl hk
    have hr := hm.record
    refine ⟨?_, hr.current, ?_, by simp, hr.dispatched.concat trivial⟩
    · intro u
      simpa using hr.created u
    · intro u
      simpa using hr.finished u

theorem Inv.next (hi : Inv mainThread s) (hs : s.next (s.pc s.currentThread) = some s') :
    Inv mainThread s' := by
  cases hpc : s.pc s.currentThread with
  | created | outside | notReached | assertFailed =>
    rw [hpc] at hs
    cases hs
  | root =>
    rw [hpc] at hs
    cases hs
    exact Mid.setLevel (hi.mid hpc rfl) .on
  | oneTick =>
    have hm : Mid mainThread .running false s := hi.mid hpc rfl
    rw [hpc] at hs
    cases hs
    split_ifs
    · exact (hm.setInterrupts .on false).yield
    · exact (hm.setInterrupts .on s.yieldOnReturn).goto rfl rfl (.inr rfl)
  | test sema oldLevel =>
    rw [hpc] at hs
    cases hs
    exact Mid.test (hi.mid hpc rfl) oldLevel (hi.off (by simp [hpc]))
  | sleep k =>
    have hl : s.level = .off := hi.off (by simp [hpc])
    have hm : Mid mainThread k.mode k.finishing s := hi.mid hpc rfl
    rw [hpc] at hs
    cases hq : s.readyList with
    | nil =>
      simp only [State.next, State.findNextToRun, hq] at hs
      cases hs
      rw [List.tail_nil, ← hq]
      exact hm.goto rfl rfl (.inl hl)
    | cons nextThread l =>
      simp only [State.next, State.findNextToRun, hq] at hs
      cases hs
      exact (hm.pop hq).run hl
  | idle k =>
    have hl : s.level = .off := hi.off (by simp [hpc])
    have hm : Mid mainThread k.mode k.finishing s := hi.mid hpc rfl
    rw [hpc] at hs
    cases hs
    exact (hm.setInterrupts s.level false).goto rfl rfl (.inl hl)
  | switched k =>
    rw [hpc] at hs
    cases hs
    exact hi.afterSwitch hpc

/-- Handlers leave the current thread where it is. -/
theorem Inv.handle (hi : Inv mainThread s) (i : Handler Sid) : Inv mainThread (s.handle i) := by
  obtain ⟨μ, hμ, hm⟩ := hi.here
  cases i with
  | v sema =>
    refine ⟨⟨μ, ?_, ?_⟩, ?_⟩
    · rw [State.handle, State.v_pc, State.v_currentThread]
      exact hμ
    · rw [State.handle, State.v_pc, State.v_currentThread]
      exact hm.v sema
    · rw [State.handle, State.v_pc, State.v_currentThread, State.v_level]
      exact hi.level
  | yieldOnReturn => exact ⟨⟨μ, hμ, hm.setInterrupts s.level true⟩, hi.level⟩

/-- Each thread is forked once, and the main thread is not. -/
def Once (mainThread : Tid) (s : State Tid Sid) : Event Tid Sid → Prop
  | .call (.fork t) => t ≠ mainThread ∧ .forked t ∉ s.log
  | _ => True

instance (s : State Tid Sid) : (e : Event Tid Sid) → Decidable (Once mainThread s e)
  | .call c => match c with
    | .fork t => inferInstanceAs (Decidable (t ≠ mainThread ∧ .forked t ∉ s.log))
    | .setLevel _ | .oneTick | .yield | .p _ | .v _ | .finish => inferInstanceAs (Decidable True)
  | .step | .interrupt _ => inferInstanceAs (Decidable True)

theorem inv_step (hi : Inv mainThread s) (honce : Once mainThread s e)
    (hs : s.step e = some s') : Inv mainThread s' := by
  cases e with
  | call c =>
    obtain ⟨hpc, hs⟩ := Option.ite_none_right_eq_some.mp hs
    cases hs
    apply hi.call hpc
    rintro t rfl
    obtain ⟨μ, -, hm⟩ := hi.here
    exact (hm.record.created t).mpr honce
  | step => exact hi.next hs
  | interrupt i =>
    rw [State.step] at hs
    split at hs
    · cases hs
      exact hi.handle i
    · cases hs
      exact hi.handle i
    · cases hs

theorem inv_start (h : Start mainThread s) : Inv mainThread s := by
  have hpc : s.pc s.currentThread = .outside := by
    rw [h.currentThread, h.pc, Function.update_self]
  refine ⟨⟨.running, by rw [hpc]; rfl, ⟨?_, ?_⟩⟩, fun _ => hpc⟩
  · refine ⟨Function.update (fun _ => .absent) mainThread .running, ⟨fun _ => none, ?_, ?_⟩, ?_, ?_⟩
    · apply Placed.empty
      intro k
      cases k with
      | ready => exact h.readyList
      | queue sema => exact h.sema sema
    · intro t
      by_cases ht : t = mainThread
      · subst ht
        rw [Function.update_self]
        exact ⟨h.status, rfl⟩
      · rw [Function.update_of_ne ht]
        rfl
    · rw [h.currentThread, Function.update_self]
    · intro t ht
      rw [h.currentThread] at ht
      rw [h.pc, Function.update_of_ne ht, Function.update_of_ne ht]
      rfl
  · rw [hpc]
    refine ⟨?_, by simp [hpc], ?_, ?_, ?_⟩
    · intro t
      rw [h.pc, h.log]
      by_cases ht : t = mainThread
      · simp [ht]
      · simp [ht]
    · intro t
      rw [h.log, h.pc, h.currentThread]
      by_cases ht : t = mainThread
      · simp [ht, Pc.finishing]
      · simp [ht, Pc.finishing]
    · simp [h.threadToBeDestroyed]
    · rw [h.log]
      exact .nil

theorem inv_reach (hr : (machine mainThread).Reach (Once mainThread) s) : Inv mainThread s := by
  apply hr.invariant (Inv mainThread)
  · exact fun s h => inv_start h
  · exact fun s e s' _ hi honce hs => inv_step hi honce hs

/-! ### The places of a thread -/

inductive Place (Sid : Type) where
  | current
  | ready
  | queue (sema : Sid)
  deriving DecidableEq

/-- The status of the threads in a place. -/
def Place.status : Place Sid → ThreadStatus
  | .current => .running
  | .ready => .ready
  | .queue _ => .blocked

/-- How often a thread is in a place. -/
def State.count (s : State Tid Sid) (t : Tid) : Place Sid → ℕ
  | .current => if t = s.currentThread then 1 else 0
  | .ready => s.readyList.count t
  | .queue sema => (s.sema sema).queue.count t

/-- The thread is there once and nowhere else, and has the status for it. -/
def State.At (s : State Tid Sid) (t : Tid) (place : Place Sid) : Prop :=
  s.status t = place.status ∧ ∀ p, s.count t p = if p = place then 1 else 0

def Slot.place : Slot Sid → Place Sid
  | .ready => .ready
  | .queue sema => .queue sema

theorem State.At.unique {p q : Place Sid} (hp : s.At t p) (hq : s.At t q) : q = p := by
  have hone := hq.2 q
  rw [hp.2 q, if_pos rfl] at hone
  by_contra hne
  rw [if_neg hne] at hone
  cases hone

/-- How often a thread is in a place, by its list. -/
theorem State.count_eq {home : Tid → Option (Slot Sid)} (hp : Placed s.lists home)
    (p : Place Sid) : s.count t p = (if t = s.currentThread ∧ p = .current then 1 else 0) +
      if (home t).map Slot.place = some p then 1 else 0 := by
  cases p with
  | current =>
    have hno : (home t).map Slot.place ≠ some .current := by
      cases home t with
      | none => simp
      | some k => cases k <;> simp [Slot.place]
    simp [State.count, hno]
  | ready =>
    have hcount : s.readyList.count t = _ := hp t .ready
    rw [State.count, hcount]
    cases home t with
    | none => simp
    | some k => cases k <;> simp [Slot.place]
  | queue sema =>
    have hcount : (s.sema sema).queue.count t = _ := hp t (.queue sema)
    rw [State.count, hcount]
    cases home t with
    | none => simp
    | some k => cases k <;> simp [Slot.place]

/-- A listed thread that is not the current one is where its list is. -/
theorem State.at_of_listed {home : Tid → Option (Slot Sid)} (hp : Placed s.lists home)
    (hne : t ≠ s.currentThread) (hh : Mode.listed.Holds (s.status t) (home t)) :
    ∃ place, s.At t place := by
  rcases hh with ⟨k, hk, hstatus⟩
  refine ⟨k.place, ?_, ?_⟩
  · rw [hstatus]
    cases k <;> rfl
  · intro p
    rw [State.count_eq hp, hk, if_neg fun h => hne h.1, Nat.zero_add, Option.map_some]
    simp only [Option.some.injEq, eq_comm]

/-- A thread that is in no list is at most the current one. -/
theorem State.count_of_absent {home : Tid → Option (Slot Sid)} (hp : Placed s.lists home)
    (hh : home t = none) (p : Place Sid) :
    s.count t p = if t = s.currentThread ∧ p = .current then 1 else 0 := by
  have hno : (none : Option (Place Sid)) ≠ some p := by simp
  rw [State.count_eq hp, hh, Option.map_none, if_neg hno, Nat.add_zero]

/-- Whenever interrupts are on, each forked, unfinished thread is in exactly one place, once and
with the status for it; a finished thread is in none and is never dispatched again. -/
theorem thread_in_one_place (hr : (machine mainThread).Reach (Once mainThread) s) :
    (s.level = .on → ∀ t,
      (t = mainThread ∨ .forked t ∈ s.log → .finished t ∉ s.log → ∃! place, s.At t place) ∧
      (.finished t ∈ s.log → ∀ place, s.count t place = 0)) ∧
    EachAfter NotFinished s.log := by
  have hi := inv_reach hr
  obtain ⟨_, _, hmid⟩ := hi.here
  refine ⟨?_, hmid.record.dispatched⟩
  intro hon
  have hm : Mid mainThread .running false s := hi.mid (hi.level hon) rfl
  have hrec := hm.record
  rcases hm.among with ⟨m, ⟨home, hp, hh⟩, hcur, hothers⟩
  intro t
  by_cases ht : t = s.currentThread
  · have hrunning := hh t
    rw [ht, hcur, ← ht] at hrunning
    constructor
    · intro _ _
      refine ⟨.current, ⟨hrunning.1, ?_⟩, fun _ h => State.At.unique ⟨hrunning.1, ?_⟩ h⟩ <;>
      · intro p
        rw [State.count_of_absent hp hrunning.2]
        simp [ht]
    · intro hfinished
      rw [hrec.finished, if_pos ht] at hfinished
      cases hfinished
  · have hmode := hothers t ht
    have hht := hh t
    constructor
    · intro hforked hfinished
      have hlisted : m t = .listed := by
        rw [hrec.finished, if_neg ht] at hfinished
        cases hx : s.pc t with
        | created =>
          have hcreated := (hrec.created t).mp hx
          exact absurd hforked (not_or.mpr hcreated)
        | root =>
          rw [hx] at hmode
          exact (Option.some.inj hmode).symm
        | switched k =>
          rw [hx] at hmode hfinished
          cases k with
          | finish => exact absurd rfl hfinished
          | _ => exact (Option.some.inj hmode).symm
        | _ =>
          rw [hx] at hmode
          cases hmode
      rw [hlisted] at hht
      obtain ⟨place, hplace⟩ := State.at_of_listed hp ht hht
      exact ⟨place, hplace, fun _ h => hplace.unique h⟩
    · intro hfinished place
      rw [hrec.finished, if_neg ht] at hfinished
      have habsent : m t = .absent := by
        cases hx : s.pc t with
        | switched k =>
          rw [hx] at hmode hfinished
          cases k with
          | finish => exact (Option.some.inj hmode).symm
          | _ => cases hfinished
        | _ =>
          rw [hx] at hmode hfinished
          first | cases hfinished | cases hmode
      rw [habsent] at hht
      rw [State.count_of_absent hp hht, if_neg fun h => ht h.1]

/-- Only the main thread is there, and the value of every semaphore is zero. -/
def initialState (mainThread : Tid) : State Tid Unit where
  status := Function.update (fun _ => .justCreated) mainThread .running
  readyList := []
  sema _ := ⟨0, []⟩
  currentThread := mainThread
  threadToBeDestroyed := none
  level := .on
  yieldOnReturn := false
  pc := Function.update (fun _ => .created) mainThread .outside
  log := []

theorem start_initialState (mainThread : Tid) : Start mainThread (initialState mainThread) where
  status := by simp [initialState]
  readyList := rfl
  sema _ := rfl
  currentThread := rfl
  threadToBeDestroyed := rfl
  level := rfl
  pc := rfl
  log := rfl

/-- Thread 1 blocks and is woken by an interrupt. -/
def blockAndWake : List (Event (Fin 2) Unit) :=
  [.call (.fork t1), .step, .call .yield, .step, .step, .call (.p ()), .step, .step, .step,
    .interrupt (.v ()), .step]

theorem thread_in_one_place_woken :
    ∃ s, (machine t0).run (initialState t0) blockAndWake = some s ∧ s.level = .on ∧
      ∃! place, s.At t1 place := by
  have h0 : (machine t0).init (initialState t0) := start_initialState t0
  have hr : (machine t0).Reach (Once t0) _ :=
    Machine.Reach.run (.init h0) (show Machine.Meets _ _ _ blockAndWake by decide) rfl
  have hplace := (thread_in_one_place hr).1 rfl t1
  exact ⟨_, rfl, rfl, hplace.1 (.inr (by decide)) (by decide)⟩

end Coursework.Nachos.Scheduler
