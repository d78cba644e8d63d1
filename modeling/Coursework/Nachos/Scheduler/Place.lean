import Coursework.Nachos.Scheduler.Modes

/-!
# A thread is in one place

Where a thread stands in the code says which mode it is in. The operations of the scheduler are
followed with the current thread between two statements, and its mode is then known without its
place in the code.
-/
namespace Coursework.Nachos.Scheduler

variable {Tid Sid : Type} [DecidableEq Tid] [DecidableEq Sid]

def Caller.finishing : Caller Sid → Bool
  | .finish => true
  | _ => false

/-- The mode of a thread that has called `Sleep` or `Scheduler::Run`. -/
def Caller.mode : Caller Sid → Mode
  | .finish => .absent
  | _ => .listed

def Pc.finishing : Pc Sid → Bool
  | .sleep k | .idle k | .switched k => k.finishing
  | _ => false

/-- The mode of the current thread (`true`) or another one at a place where it can be. -/
def Pc.mode : Bool → Pc Sid → Option Mode
  | true, .root | true, .outside | true, .oneTick | true, .test _ _ => some .running
  | true, .sleep k | true, .idle k => some k.mode
  | true, .switched k => if k.finishing then none else some .running
  | false, .created => some .absent
  | false, .root => some .listed
  | false, .switched k => some k.mode
  | _, _ => none

/-- A thread that is dispatched has not finished. -/
def NotFinished (before : List (Seen Tid)) : Seen Tid → Prop
  | .started t | .resumed t => .finished t ∉ before
  | _ => True

section Pc
variable {x : Pc Sid} {k : Caller Sid}

omit [DecidableEq Sid] in
theorem Pc.ne_created {μ : Mode} (h : x.mode true = some μ) : x ≠ .created := by
  rintro rfl
  cases h

omit [DecidableEq Sid] in
theorem Caller.not_finishing (h : k.mode = .listed) : k.finishing = false := by
  cases k with
  | finish => cases h
  | _ => rfl

omit [DecidableEq Sid] in
/-- A thread in a list goes on at the start of `ThreadRoot` or behind `SWITCH`. -/
theorem Pc.mode_dispatch (h : x.mode false = some .listed) :
    x.mode true = some .running ∧ x.finishing = false := by
  cases x with
  | root => exact ⟨rfl, rfl⟩
  | switched k =>
    have hk : k.finishing = false := Caller.not_finishing (Option.some.inj h)
    exact ⟨by rw [mode, hk]; rfl, hk⟩
  | _ => cases h

end Pc

variable {mainThread t nextThread : Tid} {s s' : State Tid Sid} {μ : Mode} {fin : Bool}
  {x : Pc Sid} {k : Caller Sid} {now : IntStatus} {sema : Sid} {l : List Tid}

/-! ### The invariant between two statements of the current thread -/

/-- The record, the places in the code and the thread to be destroyed agree. -/
structure Record (mainThread : Tid) (fin : Bool) (s : State Tid Sid) : Prop where
  created : ∀ t, s.pc t = .created ↔ t ≠ mainThread ∧ .forked t ∉ s.log
  current : s.pc s.currentThread ≠ .created
  finished : ∀ t, .finished t ∈ s.log ↔
    if t = s.currentThread then fin = true else (s.pc t).finishing = true
  destroyed : ∀ t, s.threadToBeDestroyed = some t → .finished t ∈ s.log
  dispatched : EachAfter NotFinished s.log

/-- The current thread is in mode `μ`, and all others in the mode that their place says. -/
def Among (s : State Tid Sid) (μ : Mode) : Prop :=
  ∃ m, s.Modes m ∧ m s.currentThread = μ ∧
    ∀ t, t ≠ s.currentThread → (s.pc t).mode false = some (m t)

structure Mid (mainThread : Tid) (μ : Mode) (fin : Bool) (s : State Tid Sid) : Prop where
  among : Among s μ
  record : Record mainThread fin s

structure Inv (mainThread : Tid) (s : State Tid Sid) : Prop where
  here : ∃ μ, (s.pc s.currentThread).mode true = some μ ∧
    Mid mainThread μ (s.pc s.currentThread).finishing s
  level : s.level = .on → s.pc s.currentThread = .outside

theorem Inv.mid (hi : Inv mainThread s) (hpc : s.pc s.currentThread = x)
    (hx : x.mode true = some μ) : Mid mainThread μ x.finishing s := by
  obtain ⟨μ', hμ, hm⟩ := hi.here
  rw [hpc] at hμ hm
  obtain rfl : μ' = μ := Option.some.inj (hμ.symm.trans hx)
  exact hm

theorem Inv.off (hi : Inv mainThread s) (hpc : s.pc s.currentThread ≠ .outside) :
    s.level = .off := by
  cases hl : s.level with
  | off => rfl
  | on => exact absurd (hi.level hl) hpc

omit [DecidableEq Sid] in
/-- The record does not grow. -/
theorem Record.congr (hr : Record mainThread fin s) (hpc : s'.pc = s.pc)
    (hcur : s'.currentThread = s.currentThread) (hlog : s'.log = s.log)
    (hd : ∀ t, s'.threadToBeDestroyed = some t → .finished t ∈ s.log) :
    Record mainThread fin s' := by
  refine ⟨?_, ?_, ?_, ?_, ?_⟩
  · rw [hpc, hlog]
    exact hr.created
  · rw [hpc, hcur]
    exact hr.current
  · rw [hpc, hcur, hlog]
    exact hr.finished
  · rw [hlog]
    exact hd
  · rw [hlog]
    exact hr.dispatched

theorem Mid.goto (hm : Mid mainThread μ fin s) (hx : x.mode true = some μ)
    (hf : x.finishing = fin) (hl : s.level = .off ∨ x = .outside) : Inv mainThread (s.goto x) := by
  have hpc : (s.goto x).pc s.currentThread = x := Function.update_self ..
  have hother (t : Tid) (ht : t ≠ s.currentThread) : (s.goto x).pc t = s.pc t :=
    Function.update_of_ne ht ..
  refine ⟨⟨μ, by rw [← hx]; exact congrArg _ hpc, ?_, ?_⟩, ?_⟩
  · rcases hm.among with ⟨m, hmodes, hcur, hothers⟩
    refine ⟨m, hmodes, hcur, ?_⟩
    intro t ht
    rw [hother t ht]
    exact hothers t ht
  · have hr := hm.record
    have hfin : ((s.goto x).pc (s.goto x).currentThread).finishing = fin :=
      (congrArg _ hpc).trans hf
    rw [hfin]
    refine ⟨?_, fun h => Pc.ne_created hx (hpc.symm.trans h), ?_, hr.destroyed, hr.dispatched⟩
    · intro t
      by_cases ht : t = s.currentThread
      · rw [ht, hpc]
        exact iff_of_false (Pc.ne_created hx) fun h => hr.current ((hr.created _).mpr h)
      · rw [hother t ht]
        exact hr.created t
    · intro t
      by_cases ht : t = s.currentThread
      · have hfinished := hr.finished t
        rw [if_pos ht] at hfinished
        rw [if_pos (show t = (s.goto x).currentThread from ht)]
        exact hfinished
      · have hfinished := hr.finished t
        rw [if_neg ht] at hfinished
        rw [if_neg (show ¬t = (s.goto x).currentThread from ht), hother t ht]
        exact hfinished
  · intro hon
    rcases hl with hl | hl
    · have hon : s.level = .on := hon
      rw [hl] at hon
      cases hon
    · exact hpc.trans hl

theorem Mid.setInterrupts (hm : Mid mainThread μ fin s) (level : IntStatus) (y : Bool) :
    Mid mainThread μ fin { s with level := level, yieldOnReturn := y } :=
  ⟨hm.among, hm.record.congr rfl rfl rfl hm.record.destroyed⟩

theorem Mid.oneTick (hm : Mid mainThread .running false s) : Inv mainThread s.oneTick :=
  (hm.setInterrupts .off s.yieldOnReturn).goto rfl rfl (.inl rfl)

theorem Mid.setLevel (hm : Mid mainThread .running false s) (now : IntStatus) :
    Inv mainThread (s.setLevel now) := by
  rw [State.setLevel]
  split_ifs with h
  · exact hm.oneTick
  · exact (hm.setInterrupts now s.yieldOnReturn).goto rfl rfl (.inr rfl)

/-! ### Waking, blocking and forking -/

section V
variable (s) (sema)

theorem State.v_pc : (s.v sema).pc = s.pc := by
  rw [State.v]
  split <;> rfl

theorem State.v_currentThread : (s.v sema).currentThread = s.currentThread := by
  rw [State.v]
  split <;> rfl

theorem State.v_log : (s.v sema).log = s.log := by
  rw [State.v]
  split <;> rfl

theorem State.v_threadToBeDestroyed : (s.v sema).threadToBeDestroyed = s.threadToBeDestroyed := by
  rw [State.v]
  split <;> rfl

theorem State.v_level : (s.v sema).level = s.level := by
  rw [State.v]
  split <;> rfl

end V

theorem Mid.v (hm : Mid mainThread μ fin s) (sema : Sid) : Mid mainThread μ fin (s.v sema) := by
  constructor
  · rcases hm.among with ⟨m, hmodes, hcur, hothers⟩
    refine ⟨m, hmodes.v sema, ?_, ?_⟩
    · rw [State.v_currentThread]
      exact hcur
    · rw [State.v_currentThread, State.v_pc]
      exact hothers
  · apply hm.record.congr (s.v_pc sema) (s.v_currentThread sema) (s.v_log sema)
    rw [State.v_threadToBeDestroyed]
    exact hm.record.destroyed

/-- A thread that finds the value zero is in the queue when it sleeps. -/
theorem Mid.block (hm : Mid mainThread .running false s) (oldLevel : IntStatus)
    (hl : s.level = .off) (S : Semaphore Tid)
    (hS : S.queue = (s.sema sema).queue ++ [s.currentThread]) :
    Inv mainThread ({ s with sema := Function.update s.sema sema S }.sleep (.p sema oldLevel)) := by
  rw [State.sleep]
  have hmode : (Pc.sleep (.p sema oldLevel)).mode true = some .listed := rfl
  refine Mid.goto ⟨?_, ?_⟩ hmode rfl (.inl hl)
  · rcases hm.among with ⟨m, hmodes, hcur, hothers⟩
    refine ⟨Function.update m s.currentThread .listed, ?_, Function.update_self .., ?_⟩
    · refine hmodes.put (k := .queue sema) (by rw [hcur]; decide) ?_ rfl
      have hlists := State.lists_sema (s := s) sema S
      rw [hS] at hlists
      exact hlists
    · intro t ht
      rw [Function.update_of_ne ht]
      exact hothers t ht
  · exact hm.record.congr rfl rfl rfl hm.record.destroyed

theorem Mid.test (hm : Mid mainThread .running false s) (oldLevel : IntStatus)
    (hl : s.level = .off) : Inv mainThread (s.test sema oldLevel) := by
  by_cases hv : (s.sema sema).value = 0
  · have htest : s.test sema oldLevel =
        { s with
          sema := Function.update s.sema sema ((s.sema sema).P s.currentThread).1 }.sleep
            (.p sema oldLevel) := by
      simp [State.test, Semaphore.P, hv]
    rw [htest]
    apply hm.block oldLevel hl
    simp [Semaphore.P, hv]
  · have htest : s.test sema oldLevel =
        { s with
          sema := Function.update s.sema sema ((s.sema sema).P s.currentThread).1 }.setLevel
            oldLevel := by
      simp [State.test, Semaphore.P, hv]
    rw [htest]
    apply Mid.setLevel
    refine ⟨?_, hm.record.congr rfl rfl rfl hm.record.destroyed⟩
    rcases hm.among with ⟨m, hmodes, hrest⟩
    refine ⟨m, hmodes.congr ?_ rfl, hrest⟩
    have hlists := State.lists_sema (s := s) sema ((s.sema sema).P s.currentThread).1
    rw [hlists, Function.update_eq_self_iff]
    simp [Semaphore.P, hv, State.lists]

theorem Mid.fork (hm : Mid mainThread .running false s) (ht : s.pc t = .created) :
    Inv mainThread (s.fork t) := by
  have hr := hm.record
  have hne : t ≠ s.currentThread := by
    rintro rfl
    exact hr.current ht
  apply Mid.setLevel
  constructor
  · rcases hm.among with ⟨m, hmodes, hcur, hothers⟩
    have habsent : m t = .absent := by
      have hmode := hothers t hne
      rw [ht] at hmode
      exact (Option.some.inj hmode).symm
    refine ⟨Function.update m t .listed, hmodes.readyToRun (by rw [habsent]; decide), ?_, ?_⟩
    · exact (Function.update_of_ne (Ne.symm hne) ..).trans hcur
    · intro u hu
      by_cases hut : u = t
      · subst hut
        simp only [Function.update_self]
        rfl
      · simp only [Function.update_of_ne hut]
        exact hothers u hu
  · refine ⟨?_, ?_, ?_, ?_, hr.dispatched.concat trivial⟩
    · intro u
      by_cases hut : u = t
      · subst hut
        simp
      · simp [hut, hr.created u]
    · exact fun h => hr.current ((Function.update_of_ne (Ne.symm hne) ..).symm.trans h)
    · intro u
      have hfinished := hr.finished u
      by_cases hut : u = t
      · subst hut
        rw [if_neg hne, ht] at hfinished
        simpa [Pc.finishing, hne] using hfinished
      · simpa [State.readyToRun, Function.update_of_ne hut] using hfinished
    · intro u hu
      exact List.mem_append_left _ (hr.destroyed u hu)

/-- A thread that finishes is in no list when it sleeps. -/
theorem Mid.finish (hm : Mid mainThread .running false s) : Inv mainThread s.finish := by
  have hr := hm.record
  rw [State.finish, State.sleep]
  have hmode : (Pc.sleep (.finish : Caller Sid)).mode true = some .absent := rfl
  refine Mid.goto ⟨?_, ?_⟩ hmode rfl (.inl rfl)
  · rcases hm.among with ⟨m, hmodes, hcur, hothers⟩
    refine ⟨Function.update m s.currentThread .absent,
      hmodes.setStatus (by rw [hcur]; decide) rfl rfl rfl, Function.update_self .., ?_⟩
    intro t ht
    rw [Function.update_of_ne ht]
    exact hothers t ht
  · refine ⟨?_, hr.current, ?_, ?_, hr.dispatched.concat trivial⟩
    · intro t
      simpa using hr.created t
    · intro t
      have hfinished := hr.finished t
      by_cases ht : t = s.currentThread
      · simp [ht, Pc.finishing, Caller.finishing]
      · simpa [ht] using hfinished
    · intro t ht
      cases ht
      simp

end Coursework.Nachos.Scheduler
