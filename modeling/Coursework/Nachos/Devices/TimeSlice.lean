import Coursework.Nachos.Devices

/-!
# Time slices

A device that polls has one interrupt outstanding at any time, and the timer's comes within two
`TimerTicks`. No thread runs for longer without a call of `Yield`. The machine halts when it is idle
and only the timer is left. The clock is a number here, and does not overflow.
-/
namespace Coursework.Nachos.Devices
open Interrupt

variable {Other : Type} {randomize : Bool} {s s' : State Other}
  {i i' : Interrupt.State (Handler Other)} {gone new : List (PendingInterrupt (Handler Other))}
  {x y : PendingInterrupt (Handler Other)} {d : Device} {p : Poll} {random : ℕ} {e : Event Other}

/-- The longest time to the next interrupt of a device. -/
def Poll.longest (randomize : Bool) : Poll → ℤ
  | .timer => if randomize then timerTicks * 2 else timerTicks
  | .console => consoleTime
  | .network => networkTime

theorem fromNow_le : p.fromNow randomize random ≤ p.longest randomize := by
  cases p with
  | timer =>
    rw [Poll.fromNow, timeOfNextInterrupt, Poll.longest]
    split_ifs
    · rw [timerTicks]
      omega
    · exact le_rfl
  | console | network => exact le_rfl

/-! ### The interrupts of one device -/

theorem mem_mine : x ∈ mine i d ↔ x ∈ outstanding i ∧ x.handler.device? = some d := by
  rw [mine, List.mem_filter, decide_eq_true_iff]

theorem mine_moved (hm : Moved i i' gone new) (d : Device) :
    (gone.filter (fun x => x.handler.device? = some d) ++ mine i' d).Perm
      (new.filter (fun x => x.handler.device? = some d) ++ mine i d) := by
  have hperm := hm.perm.filter fun x => x.handler.device? = some d
  rwa [List.filter_append, List.filter_append] at hperm

/-- Interrupts of others come and go. -/
theorem mine_others (hm : Moved i i' gone new) (hgone : ∀ x ∈ gone, x.handler.device? ≠ some d)
    (hnew : ∀ x ∈ new, x.handler.device? ≠ some d) : (mine i' d).Perm (mine i d) := by
  have hperm := mine_moved hm d
  rwa [List.filter_eq_nil_iff.mpr fun x hx => by simpa using hgone x hx,
    List.filter_eq_nil_iff.mpr fun x hx => by simpa using hnew x hx] at hperm

theorem mine_new (hm : Moved i i' [] [x]) (hx : x.handler = .device d) :
    (mine i' d).Perm (x :: mine i d) := by
  have hperm := mine_moved hm d
  rwa [List.filter_cons_of_pos (by rw [hx]; exact decide_eq_true rfl)] at hperm

theorem mine_gone (hm : Moved i i' [y] []) (hy : y.handler = .device d) :
    (y :: mine i' d).Perm (mine i d) := by
  have hperm := mine_moved hm d
  rwa [List.filter_cons_of_pos (by rw [hy]; exact decide_eq_true rfl)] at hperm

/-- The next interrupt of a device takes the place of the one that is handled. -/
theorem mine_next {z : PendingInterrupt (Handler Other)} (hm : Moved i i' [y] [x])
    (hy : y.handler = .device d) (hx : x.handler = .device d) (hcurrent : y ∈ i.pc.current)
    (hone : mine i d = [z]) : mine i' d = [x] := by
  have hmem : y ∈ mine i d := mem_mine.mpr ⟨List.mem_append_left _ hcurrent, by rw [hy]; rfl⟩
  rw [hone, List.mem_singleton] at hmem
  have hperm := mine_moved hm d
  rw [List.filter_cons_of_pos (by rw [hy]; exact decide_eq_true rfl),
    List.filter_cons_of_pos (by rw [hx]; exact decide_eq_true rfl), hone, ← hmem] at hperm
  exact List.perm_singleton.mp ((hperm.trans (List.Perm.swap y x [])).cons_inv)

/-! ### What every step keeps -/

structure Inv (randomize : Bool) (s : State Other) : Prop where
  reach : Interrupt.machine.Reachable s.interrupt
  timer : ∀ x ∈ outstanding s.interrupt,
    x.type = .timerInt ↔ x.handler.device? = some (.poll .timer)
  unstarted : ∀ p, s.started p = false → mine s.interrupt (.poll p) = []
  started : ∀ p, s.started p = true → ∃ x, mine s.interrupt (.poll p) = [x] ∧
    x.when ≤ s.interrupt.totalTicks + p.longest randomize

/-- The interrupts of a device stay the same, and the clock goes on. -/
theorem polls_others (hi : Inv randomize s) (hm : Moved s.interrupt i gone new)
    (hgone : ∀ x ∈ gone, x.handler.device? ≠ some (.poll p))
    (hnew : ∀ x ∈ new, x.handler.device? ≠ some (.poll p)) :
    (s.started p = false → mine i (.poll p) = []) ∧
      (s.started p = true → ∃ x, mine i (.poll p) = [x] ∧
        x.when ≤ i.totalTicks + p.longest randomize) := by
  have hperm := mine_others hm hgone hnew
  constructor
  · intro hno
    rw [hi.unstarted p hno] at hperm
    exact hperm.eq_nil
  · intro hyes
    obtain ⟨x, hone, hle⟩ := hi.started p hyes
    rw [hone] at hperm
    have htotal := hm.total hi.reach
    exact ⟨x, hperm.eq_singleton, by omega⟩

theorem timer_moved (hi : Inv randomize s) (hm : Moved s.interrupt i gone new)
    (hnew : ∀ x ∈ new, x.type = .timerInt ↔ x.handler.device? = some (.poll .timer)) :
    ∀ x ∈ outstanding i, x.type = .timerInt ↔ x.handler.device? = some (.poll .timer) := by
  intro x hx
  rcases List.mem_append.mp (hm.perm.mem_iff.mp (List.mem_append_right gone hx)) with hx | hx
  · exact hnew x hx
  · exact hi.timer x hx

theorem timer_poll (hhandler : x.handler = .device (.poll p)) (htype : x.type = p.type) :
    ∀ y ∈ [x], y.type = .timerInt ↔ y.handler.device? = some (.poll .timer) := by
  intro y hy
  rw [List.mem_singleton.mp hy, hhandler, htype]
  cases p with
  | timer => exact iff_of_true rfl rfl
  | console | network => exact iff_of_false nofun nofun

theorem ne_device (h : x.handler = .device d) {d' : Device} (hne : d ≠ d') :
    ∀ y ∈ [x], y.handler.device? ≠ some d' := by
  intro y hy heq
  rw [List.mem_singleton.mp hy, h] at heq
  exact hne (Option.some.inj heq)

theorem inv_step (hi : Inv randomize s) (hs : s.step randomize e = some s') :
    Inv randomize s' := by
  cases stepped_of_step hs with
  | queue hstep hcurrent hmoved hgone hnew =>
    have hothers (p : Poll) := @polls_others _ _ _ _ _ _ p hi hmoved
      (fun x hx => ne_of_eq_of_ne (hgone x hx) (Option.some_ne_none _).symm)
      (fun x hx => ne_of_eq_of_ne (hnew x hx).1 (Option.some_ne_none _).symm)
    refine ⟨hmoved.reach hi.reach, timer_moved hi hmoved fun x hx => ?_, fun p => (hothers p).1,
      fun p => (hothers p).2⟩
    rw [(hnew x hx).1]
    exact iff_of_false (hnew x hx).2 nofun
  | @start q random i x hpc hpc' hno hhandler htype hwhen hmoved =>
    have hothers (p : Poll) (hq : q ≠ p) := polls_others hi hmoved (List.forall_mem_nil _)
      (ne_device hhandler fun h => hq (Device.poll.inj h))
    refine ⟨hmoved.reach hi.reach, timer_moved hi hmoved (timer_poll hhandler htype),
      fun p hp => ?_, fun p hp => ?_⟩
    · by_cases hq : q = p
      · subst hq
        exact absurd hp (ne_of_eq_of_ne (Function.update_self q true s.started) nofun)
      · exact (hothers p hq).1 ((Function.update_of_ne (Ne.symm hq) _ _).symm.trans hp)
    · by_cases hq : q = p
      · subst hq
        have hperm := mine_new hmoved hhandler
        rw [hi.unstarted q hno] at hperm
        have htotal := hmoved.total hi.reach
        have hle := @fromNow_le randomize q random
        exact ⟨x, hperm.eq_singleton, by dsimp only; omega⟩
      · exact (hothers p hq).2 ((Function.update_of_ne (Ne.symm hq) _ _).symm.trans hp)
  | @request sectorNumber writing i x hpc hpc' hidle hsector hhandler htype hwhen hmoved =>
    have hothers (p : Poll) := @polls_others _ _ _ _ _ _ p hi hmoved (List.forall_mem_nil _)
      (ne_device hhandler fun h => Device.noConfusion h)
    refine ⟨hmoved.reach hi.reach, timer_moved hi hmoved fun y hy => ?_, fun p => (hothers p).1,
      fun p => (hothers p).2⟩
    rw [List.mem_singleton.mp hy, hhandler, htype]
    exact iff_of_false nofun nofun
  | @poll q random i x y old k hpc hy hhandler htype hwhen hpc' hyield hmoved =>
    have hothers (p : Poll) (hq : q ≠ p) := polls_others hi hmoved
      (ne_device hy fun h => hq (Device.poll.inj h))
      (ne_device hhandler fun h => hq (Device.poll.inj h))
    have hcurrent : y ∈ s.interrupt.pc.current := by
      rw [hpc]
      exact List.mem_cons_self
    have hmem : y ∈ mine s.interrupt (.poll q) :=
      mem_mine.mpr ⟨List.mem_append_left _ hcurrent, by rw [hy]; rfl⟩
    refine ⟨hmoved.reach hi.reach, timer_moved hi hmoved (timer_poll hhandler htype),
      fun p hp => ?_, fun p hp => ?_⟩
    · by_cases hq : q = p
      · subst hq
        rw [hi.unstarted q hp] at hmem
        cases hmem
      · exact (hothers p hq).1 hp
    · by_cases hq : q = p
      · subst hq
        obtain ⟨z, hone, -⟩ := hi.started q hp
        have htotal := hmoved.total hi.reach
        have hle := @fromNow_le randomize q random
        exact ⟨x, mine_next hmoved hy hhandler hcurrent hone, by dsimp only; omega⟩
      · exact (hothers p hq).2 hp
  | disk hpc hy hpc' hyield hmoved =>
    have hothers (p : Poll) := @polls_others _ _ _ _ _ _ p hi hmoved
      (ne_device hy fun h => Device.noConfusion h) (List.forall_mem_nil _)
    exact ⟨hmoved.reach hi.reach, timer_moved hi hmoved (List.forall_mem_nil _),
      fun p => (hothers p).1, fun p => (hothers p).2⟩

theorem inv_reach (hr : (machine randomize).Reachable s) : Inv randomize s := by
  apply hr.invariant (Inv randomize)
  · intro s h
    have h : Start s := h
    have hnone : outstanding s.interrupt = [] := by
      rw [outstanding, h.interrupt.pc, h.interrupt.pending]
      rfl
    refine ⟨.init h.interrupt, ?_, fun p _ => ?_, fun p hp => ?_⟩
    · rw [hnone]
      exact List.forall_mem_nil _
    · rw [mine, hnone]
      rfl
    · rw [h.started p] at hp
      cases hp
  · intro s e s' _ hi _ hs
    exact inv_step hi hs

/-! ### Yields -/

/-- The running thread gives way: it yields at the end of `OneTick`, or no thread runs. -/
def GivesWay (s : State Other) : Event Other → Prop
  | .queue .idle => True
  | .queue .step => (∃ old, s.interrupt.pc = .checkIfDue (.oneTick old)) ∧
      s.interrupt.yieldOnReturn = true ∧ ∀ i, s.interrupt.step .step = some i → i.pc = .outside
  | _ => False

/-- In a slice: the timer's interrupt is still to come by the time `bound`, or it has asked for a
yield. -/
structure InSlice (bound : ℤ) (s : State Other) : Prop where
  started : s.started .timer = true
  pc : s.interrupt.pc = .outside ∨ s.interrupt.pc.InOneTick
  due : (∃ x, mine s.interrupt (.poll .timer) = [x] ∧ x.when ≤ bound) ∨
    s.interrupt.pc.InOneTick ∧ s.interrupt.yieldOnReturn = true

variable {bound : ℤ}

theorem inOneTick_of_handler {pc : Pc (Handler Other)} {old : MachineStatus} {k : Caller}
    (hpc : pc = .handler y old k) (h : pc = .outside ∨ pc.InOneTick) :
    (Pc.checkIfDue k.again : Pc (Handler Other)).InOneTick := by
  rw [hpc] at h
  cases k with
  | oneTick old => trivial
  | idle first => exact absurd h (not_or.mpr ⟨nofun, id⟩)

theorem InSlice.queue {e : Interrupt.Event (Handler Other)} (hin : InSlice bound s)
    (hno : ¬ GivesWay s (.queue e)) (hstep : s.interrupt.step e = some i)
    (hm : Moved s.interrupt i gone new) (hgone : ∀ x ∈ gone, x.handler.device? = none)
    (hnew : ∀ x ∈ new, x.handler.device? = none) : InSlice bound { s with interrupt := i } := by
  have hidle : e ≠ .idle := by
    rintro rfl
    exact hno trivial
  obtain ⟨hpc, hflag⟩ := oneTick_step hin.pc hidle hstep
  refine ⟨hin.started, hpc, ?_⟩
  rcases hin.due with ⟨x, hone, hle⟩ | ⟨htick, hyield⟩
  · have hperm := mine_others hm
      (fun x hx => ne_of_eq_of_ne (hgone x hx) (Option.some_ne_none (Device.poll .timer)).symm)
      (fun x hx => ne_of_eq_of_ne (hnew x hx) (Option.some_ne_none (Device.poll .timer)).symm)
    rw [hone] at hperm
    exact .inl ⟨x, hperm.eq_singleton, hle⟩
  · rcases hflag htick hyield with h | ⟨rfl, hold, hout⟩
    · exact .inr h
    · exfalso
      apply hno
      refine ⟨hold, hyield, fun j hj => ?_⟩
      cases hstep.symm.trans hj
      exact hout

/-- A slice goes on until the thread gives way. -/
theorem InSlice.step (hin : InSlice bound s) (hi : Inv randomize s) (hno : ¬ GivesWay s e)
    (hs : s.step randomize e = some s') : InSlice bound s' := by
  have hothers {i : Interrupt.State (Handler Other)}
      {gone new : List (PendingInterrupt (Handler Other))} (hm : Moved s.interrupt i gone new)
      (hgone : ∀ x ∈ gone, x.handler.device? ≠ some (.poll .timer))
      (hnew : ∀ x ∈ new, x.handler.device? ≠ some (.poll .timer))
      (hx : ∃ x, mine s.interrupt (.poll .timer) = [x] ∧ x.when ≤ bound) :
      ∃ x, mine i (.poll .timer) = [x] ∧ x.when ≤ bound := by
    obtain ⟨x, hone, hle⟩ := hx
    have hperm := mine_others hm hgone hnew
    rw [hone] at hperm
    exact ⟨x, hperm.eq_singleton, hle⟩
  have houtside (hpc : s.interrupt.pc = .outside) :
      ∃ x, mine s.interrupt (.poll .timer) = [x] ∧ x.when ≤ bound := by
    refine hin.due.resolve_right fun h => ?_
    rw [hpc] at h
    exact h.1
  cases stepped_of_step hs with
  | queue hstep hcurrent hmoved hgone hnew =>
    exact hin.queue hno hstep hmoved hgone fun x hx => (hnew x hx).1
  | @start q random i x hpc hpc' hfresh hhandler htype hwhen hmoved =>
    have hq : q ≠ .timer := by
      rintro rfl
      cases hin.started.symm.trans hfresh
    exact ⟨(Function.update_of_ne hq.symm _ _).trans hin.started, .inl hpc',
      .inl (hothers hmoved (List.forall_mem_nil _)
        (ne_device hhandler fun h => hq (Device.poll.inj h)) (houtside hpc))⟩
  | request hpc hpc' hidle hsector hhandler htype hwhen hmoved =>
    exact ⟨hin.started, .inl hpc', .inl (hothers hmoved (List.forall_mem_nil _)
      (ne_device hhandler fun h => Device.noConfusion h) (houtside hpc))⟩
  | @poll q random i x y old k hpc hy hhandler htype hwhen hpc' hyield hmoved =>
    have htick := inOneTick_of_handler hpc hin.pc
    rw [← hpc'] at htick
    refine ⟨hin.started, .inr htick, ?_⟩
    by_cases hq : q = .timer
    · -- the handler finds the machine in system mode, and asks for a yield
      have hstatus := ((timely_reach hi.reach).current y (by rw [hpc]; exact List.mem_cons_self)).2
      refine .inr ⟨htick, ?_⟩
      rw [hyield, hstatus, decide_eq_true ⟨hq, by decide⟩, Bool.or_true]
    · rcases hin.due with hx | ⟨-, hflag⟩
      · exact .inl (hothers hmoved (ne_device hy fun h => hq (Device.poll.inj h))
          (ne_device hhandler fun h => hq (Device.poll.inj h)) hx)
      · refine .inr ⟨htick, ?_⟩
        rw [hyield, hflag, Bool.true_or]
  | disk hpc hy hpc' hyield hmoved =>
    have htick := inOneTick_of_handler hpc hin.pc
    rw [← hpc'] at htick
    refine ⟨hin.started, .inr htick, ?_⟩
    rcases hin.due with hx | ⟨-, hflag⟩
    · exact .inl (hothers hmoved (ne_device hy fun h => Device.noConfusion h)
        (List.forall_mem_nil _) hx)
    · exact .inr ⟨htick, hyield.trans hflag⟩

/-- In a slice no kernel code and no user program is later than the timer. -/
theorem InSlice.le (hin : InSlice bound s) (hi : Inv randomize s)
    (hpc : s.interrupt.pc = .outside) : s.interrupt.totalTicks ≤ bound := by
  rcases hin.due with ⟨x, hone, hle⟩ | ⟨htick, -⟩
  · have hmem : x ∈ mine s.interrupt (.poll .timer) := by
      rw [hone]
      exact List.mem_cons_self
    obtain ⟨hmem, -⟩ := mem_mine.mp hmem
    rw [outstanding, hpc] at hmem
    obtain ⟨y, hy, rfl⟩ := List.mem_map.mp hmem
    have hlater := (timely_reach hi.reach).later (by rw [hpc]; exact id) y hy
    rw [(keeps_reach hi.reach).1.keys y hy] at hlater
    exact hlater.trans hle
  · rw [hpc] at htick
    cases htick

/-- With the timer, no thread runs for longer than a slice without a yield. All along the timer has
one interrupt outstanding. -/
theorem time_slice {es : List (Event Other)} (hr : (machine randomize).Reachable s)
    (hstarted : s.started .timer = true) (hpc : s.interrupt.pc = .outside)
    (hrun : (machine randomize).run s es = some s')
    (hno : (machine randomize).Meets (fun s e => ¬ GivesWay s e) s es) :
    (∃ x, mine s'.interrupt (.poll .timer) = [x]) ∧ (s'.interrupt.pc = .outside →
      s'.interrupt.totalTicks ≤ s.interrupt.totalTicks + Poll.timer.longest randomize) := by
  have hi := inv_reach hr
  obtain ⟨x, hone, hle⟩ := hi.started .timer hstarted
  obtain ⟨hi', hin⟩ : Inv randomize s' ∧
      InSlice (s.interrupt.totalTicks + Poll.timer.longest randomize) s' :=
    Machine.Meets.invariant
      (I := fun u => Inv randomize u ∧
        InSlice (s.interrupt.totalTicks + Poll.timer.longest randomize) u)
      (fun _ _ _ h hno hs => ⟨inv_step h.1 hs, h.2.step h.1 hno hs⟩) hno
      ⟨hi, hstarted, .inl hpc, .inl ⟨x, hone, hle⟩⟩ hrun
  obtain ⟨x', hone', -⟩ := hi'.started .timer hin.started
  exact ⟨⟨x', hone'⟩, hin.le hi'⟩

theorem time_slice_oneTick : ∃ s s', (machine false).run initialState [.start .timer 0] = some s ∧
    (machine false).run s [.queue .oneTick, .queue .step] = some s' ∧
      (∃ x, mine s'.interrupt (.poll .timer) = [x]) ∧ s'.interrupt.totalTicks = 10 ∧
        s'.interrupt.totalTicks ≤ s.interrupt.totalTicks + 100 := by
  have hr : (machine false).Reachable _ :=
    Machine.Reachable.run [.start .timer 0] (.init initialState_start) rfl
  have hslice := @time_slice _ _ _ _ [.queue .oneTick, .queue .step] hr rfl rfl rfl ?_
  · exact ⟨_, _, rfl, rfl, hslice.1, rfl, hslice.2 rfl⟩
  · rintro u hu
    refine ⟨id, ?_⟩
    cases hu
    rintro u hu
    refine ⟨?_, trivial⟩
    rintro ⟨-, hyield, -⟩
    cases hyield

/-! ### The end of a run -/

/-- Nothing but the timer is on the list. -/
def OnlyTimer (s : State Other) : Prop :=
  ∀ y ∈ s.interrupt.pending, y.2.handler.device? = some (.poll .timer)

theorem length_pending_le (hi : Inv randomize s) (honly : OnlyTimer s) :
    s.interrupt.pending.length ≤ 1 := by
  have hsub : (s.interrupt.pending.map Prod.snd).Sublist (mine s.interrupt (.poll .timer)) := by
    have hall : (s.interrupt.pending.map Prod.snd).filter
        (fun x => x.handler.device? = some (.poll .timer)) = s.interrupt.pending.map Prod.snd := by
      rw [List.filter_eq_self]
      intro x hx
      obtain ⟨y, hy, rfl⟩ := List.mem_map.mp hx
      exact decide_eq_true (honly y hy)
    rw [← hall, mine, outstanding, List.filter_append]
    exact List.sublist_append_right _ _
  have hle := hsub.length_le
  rw [List.length_map] at hle
  cases hstarted : s.started .timer with
  | false =>
    rw [hi.unstarted .timer hstarted] at hle
    exact hle.trans zero_le_one
  | true =>
    obtain ⟨x, hone, -⟩ := hi.started .timer hstarted
    rw [hone] at hle
    exact hle

/-- The first call of `Idle` halts the machine where only the timer is left. -/
theorem halted_iff (hi : Inv randomize s) (hpc : s.interrupt.pc = .checkIfDue (.idle true))
    (hs : s.interrupt.step .step = some i) : i.pc = .halted ↔ OnlyTimer s := by
  have hstatus := idle_status hi.reach hpc
  rw [Interrupt.State.step.eq_def, hpc] at hs
  cases found_of_checkIfDue hs with
  | nothing hp => exact iff_of_true rfl (by rw [OnlyTimer, hp]; exact List.forall_mem_nil _)
  | early u when x rest hp hpending hlt htotal hyield hadvance => cases hadvance
  | last u when x hp hpending hidle htimer htotal hadvance =>
    refine iff_of_true rfl fun y hy => ?_
    have hmem := mem_outstanding_of_pending hy
    rw [hp] at hy
    rw [List.mem_singleton.mp hy] at hmem ⊢
    exact (hi.timer x hmem).mp htimer
  | due _ when x rest hp hpending hpcu hstatusu htotal hyield hnot =>
    have hrunning : i.pc ≠ .halted := by
      rw [hpcu]
      intro h
      cases h
    refine iff_of_false hrunning fun honly => hnot ⟨hstatus, ?_, ?_⟩
    · have hx : (when, x) ∈ s.interrupt.pending := hp ▸ List.mem_cons_self
      exact (hi.timer x (mem_outstanding_of_pending hx)).mpr (honly _ hx)
    · have hle := length_pending_le hi honly
      rw [hp, List.length_cons] at hle
      exact List.length_eq_zero_iff.mp (by omega)

/-- A machine that has halted has nothing but the timer on the list. -/
theorem onlyTimer_of_halted (hr : (machine randomize).Reachable s)
    (hpc : s.interrupt.pc = .halted) : OnlyTimer s := by
  cases hr with
  | init h =>
    have h : Start s := h
    rw [h.interrupt.pc] at hpc
    cases hpc
  | @step u _ e hr hok hs =>
    have hi := inv_reach hr
    cases stepped_of_step hs with
    | @queue e i gone new hstep hcurrent hmoved hgone hnew =>
      have hbefore := (idle_step hstep).2 hpc
      cases e with
      | step =>
        have honly := (halted_iff hi hbefore hstep).mp hpc
        rw [Interrupt.State.step.eq_def, hbefore] at hstep
        have hpending := (found_of_checkIfDue hstep).pending_of_halted hpc
        exact fun y hy => honly y (hpending ▸ hy)
      | _ =>
        rw [Interrupt.State.step.eq_def, hbefore] at hstep
        cases hstep
    | start _ hpc' | request _ hpc' => cases hpc'.symm.trans hpc
    | poll _ _ _ _ _ hpc' | disk _ _ hpc' => cases hpc'.symm.trans hpc

/-- `Idle` halts the machine exactly where nothing but the timer is left, which is never the case
once the console or the network has been started. -/
theorem idle_halts_iff (hr : (machine randomize).Reachable s) :
    (s.interrupt.pc = .checkIfDue (.idle true) → ∀ s',
      (machine randomize).step s (.queue .step) = some s' →
        (s'.interrupt.pc = .halted ↔ OnlyTimer s)) ∧
      ∀ p, p ≠ .timer → s.started p = true → s.interrupt.pc ≠ .halted := by
  have hi := inv_reach hr
  constructor
  · intro hpc s' hs
    obtain ⟨-, hs⟩ := Option.ite_none_right_eq_some.mp hs
    obtain ⟨i, hstep, rfl⟩ := Option.map_eq_some_iff.mp hs
    exact halted_iff hi hpc hstep
  · intro p hp hstarted hpc
    obtain ⟨x, hone, -⟩ := hi.started p hstarted
    have hmem : x ∈ mine s.interrupt (.poll p) := by
      rw [hone]
      exact List.mem_cons_self
    obtain ⟨hmem, hx⟩ := mem_mine.mp hmem
    rw [outstanding, hpc] at hmem
    obtain ⟨y, hy, rfl⟩ := List.mem_map.mp hmem
    have honly := onlyTimer_of_halted hr hpc y hy
    exact hp (Device.poll.inj (Option.some.inj (hx.symm.trans honly)))

theorem idle_halts_iff_timer : ∃ s s',
    (machine true).run initialState [.start .timer 7, .queue .idle] = some s ∧
      (machine true).step s (.queue .step) = some s' ∧ s'.interrupt.pc = .halted := by
  have hr : (machine true).Reachable _ :=
    Machine.Reachable.run [.start .timer 7, .queue .idle] (.init initialState_start) rfl
  refine ⟨_, _, rfl, rfl, ((idle_halts_iff hr).1 rfl _ rfl).mpr ?_⟩
  intro y hy
  rw [List.mem_singleton.mp hy]
  rfl

end Coursework.Nachos.Devices
