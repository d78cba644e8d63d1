import Coursework.Nachos.Interrupt.Clock

/-!
# Interrupts that are still to be handled

An interrupt is outstanding from the call of `Schedule` until its handler returns. Outside a loop
of `OneTick` no pending interrupt is earlier than the clock.
-/
namespace Coursework.Nachos.Interrupt

variable {Handler : Type} {s s' u : State Handler} {k : Caller} {e : Event Handler}
  {x : PendingInterrupt Handler}

/-- The interrupt that is being handled. -/
def Pc.current : Pc Handler → List (PendingInterrupt Handler)
  | .handler x _ _ => [x]
  | _ => []

def outstanding (s : State Handler) : List (PendingInterrupt Handler) :=
  s.pc.current ++ s.pending.map Prod.snd

/-- The interrupt that the event schedules. -/
def issue (s : State Handler) : Event Handler → List (PendingInterrupt Handler)
  | .schedule handler arg fromNow type =>
    [⟨handler, arg, s.totalTicks + fromNow, type, s.issued⟩]
  | _ => []

/-- The interrupt whose handler returns. -/
def handled (s : State Handler) : Event Handler → List (PendingInterrupt Handler)
  | .step => s.pc.current
  | _ => []

theorem mem_outstanding_of_pending {y : ℤ × PendingInterrupt Handler} (hy : y ∈ s.pending) :
    y.2 ∈ outstanding s :=
  List.mem_append_right _ (List.mem_map_of_mem hy)

@[simp] theorem returnTo_pending (s : State Handler) (k : Caller) (result : Bool) :
    (s.returnTo k result).pending = s.pending := by
  rcases k with old | first
  · cases result with
    | true => rfl
    | false =>
      rw [State.returnTo]
      split_ifs <;> rfl
  · cases result with
    | true => rfl
    | false => cases first <;> rfl

/-- The next call in the loop. -/
def Caller.again : Caller → Caller
  | .oneTick old => .oneTick old
  | .idle _ => .idle false

/-- `CheckIfDue` does not return into a handler. -/
theorem returnTo_current (s : State Handler) (k : Caller) (result : Bool) :
    (s.returnTo k result).pc.current = [] := by
  rcases k with old | first
  · cases result with
    | true => rfl
    | false =>
      rw [State.returnTo]
      split_ifs <;> rfl
  · cases result with
    | true => rfl
    | false => cases first <;> rfl

theorem outstanding_returnTo (s : State Handler) (k : Caller) (result : Bool) :
    outstanding (s.returnTo k result) = s.pending.map Prod.snd := by
  rw [outstanding, returnTo_current, returnTo_pending, List.nil_append]

/-! ### One call of `CheckIfDue` -/

/-- What `CheckIfDue` finds on the list. -/
inductive Found (s : State Handler) (k : Caller) : State Handler → Prop where
  | nothing (hp : s.pending = []) : Found s k (s.returnTo k false)
  | early (u : State Handler) (when : ℤ) (x : PendingInterrupt Handler)
      (rest : List (ℤ × PendingInterrupt Handler)) (hp : s.pending = (when, x) :: rest)
      (hpending : u.pending = insertByKey (when, x) rest) (hlt : s.totalTicks < when)
      (htotal : u.totalTicks = s.totalTicks) (hyield : u.yieldOnReturn = s.yieldOnReturn)
      (hadvance : k.advanceClock = false) : Found s k (u.returnTo k false)
  /-- Only the timer is left. -/
  | last (u : State Handler) (when : ℤ) (x : PendingInterrupt Handler)
      (hp : s.pending = [(when, x)]) (hpending : u.pending = [(when, x)])
      (hidle : s.status = .idleMode) (htimer : x.type = .timerInt)
      (htotal : u.totalTicks = max s.totalTicks when) (hadvance : k.advanceClock = true ∨
        when ≤ s.totalTicks) : Found s k (u.returnTo k false)
  | due (u : State Handler) (when : ℤ) (x : PendingInterrupt Handler)
      (rest : List (ℤ × PendingInterrupt Handler)) (hp : s.pending = (when, x) :: rest)
      (hpending : u.pending = rest) (hpc : u.pc = .handler x s.status k)
      (hstatus : u.status = .systemMode) (htotal : u.totalTicks = max s.totalTicks when)
      (hyield : u.yieldOnReturn = s.yieldOnReturn)
      (hnot : ¬ (s.status = .idleMode ∧ x.type = .timerInt ∧ rest = [])) : Found s k u

theorem found_invoke {when : ℤ} {rest : List (ℤ × PendingInterrupt Handler)}
    (hp : s.pending = (when, x) :: rest) (hpending : u.pending = rest)
    (hstatus : u.status = s.status) (htotal : u.totalTicks = max s.totalTicks when)
    (hyield : u.yieldOnReturn = s.yieldOnReturn)
    (hadvance : k.advanceClock = true ∨ when ≤ s.totalTicks) :
    Found s k (u.invoke k when x) := by
  rw [State.invoke]
  split_ifs with h
  · obtain ⟨hidle, htimer, hnil⟩ := h
    obtain rfl : rest = [] := hpending ▸ List.isEmpty_iff.mp hnil
    refine .last _ when x hp ?_ (hstatus ▸ hidle) htimer htotal hadvance
    rw [State.putBack, hpending]
    rfl
  · refine .due _ when x rest hp hpending (by rw [hstatus]) rfl htotal hyield ?_
    rintro ⟨hidle, htimer, rfl⟩
    exact h ⟨hstatus.trans hidle, htimer, List.isEmpty_iff.mpr hpending⟩

theorem found_of_checkIfDue (hs : s.checkIfDue k = some s') : Found s k s' := by
  obtain ⟨-, hs⟩ := Option.ite_none_right_eq_some.mp hs
  cases hs
  split
  case h_1 hp => exact .nothing hp
  case h_2 when x rest hp =>
    dsimp only
    split_ifs with hadvance hearly
    · exact found_invoke hp rfl rfl (max_eq_right hadvance.2.le).symm rfl (.inl hadvance.1)
    · refine .early _ when x rest hp rfl hearly rfl rfl ?_
      exact Bool.eq_false_iff.mpr fun h => hadvance ⟨h, hearly⟩
    · exact found_invoke hp rfl rfl (max_eq_left (not_lt.mp hearly)).symm rfl
        (.inr (not_lt.mp hearly))

theorem Found.outstanding (hf : Found s k s') :
    (outstanding s').Perm (s.pending.map Prod.snd) := by
  cases hf with
  | nothing hp => rw [outstanding_returnTo]
  | early u when x rest hp hpending hlt htotal hyield hadvance =>
    rw [outstanding_returnTo, hpending, hp]
    exact insertByKey_perm.map Prod.snd
  | last u when x hp hpending hidle htimer htotal hadvance =>
    rw [outstanding_returnTo, hpending, hp]
  | due u when x rest hp hpending hpc hstatus htotal hyield hnot =>
    rw [Interrupt.outstanding, hpc, hp, hpending]
    exact .refl _

/-! ### Steps -/

theorem schedule_outstanding {handler : Handler} {arg fromNow : ℤ} {type : IntType}
    (hs : s.schedule handler arg fromNow type = some s') :
    (outstanding s').Perm
      (⟨handler, arg, s.totalTicks + fromNow, type, s.issued⟩ :: outstanding s) := by
  obtain ⟨-, hs⟩ := Option.ite_none_right_eq_some.mp hs
  cases hs
  have hperm := (@insertByKey_perm _ _ _ (s.totalTicks + fromNow,
    (⟨handler, arg, s.totalTicks + fromNow, type, s.issued⟩ : PendingInterrupt Handler))
    s.pending).map Prod.snd
  exact (hperm.append_left _).trans List.perm_middle

theorem oneTick_outstanding (s : State Handler) (hpc : s.pc = .outside) :
    outstanding s.oneTick = outstanding s := by
  rw [State.oneTick, outstanding, outstanding, hpc]
  split_ifs <;> rfl

/-- An interrupt becomes outstanding when it is scheduled, and is so until it has been handled. -/
theorem outstanding_step (hs : s.step e = some s') :
    (handled s e ++ outstanding s').Perm (issue s e ++ outstanding s) := by
  unfold State.step at hs
  split at hs
  case h_1 => exact schedule_outstanding hs
  case h_2 now hpc =>
    cases hs
    split_ifs
    · rw [oneTick_outstanding s hpc]
      exact .refl _
    · exact .refl _
  case h_3 hpc =>
    cases hs
    rw [oneTick_outstanding s hpc]
    exact .refl _
  case h_4 hpc =>
    cases hs
    rw [outstanding, outstanding, hpc]
    exact .refl _
  case h_5 status hpc =>
    obtain ⟨-, hs⟩ := Option.ite_none_left_eq_some.mp hs
    cases hs
    exact .refl _
  case h_6 old hpc =>
    obtain ⟨-, hs⟩ := Option.ite_none_right_eq_some.mp hs
    cases hs
    exact .refl _
  case h_7 k hpc =>
    have hnone : outstanding s = s.pending.map Prod.snd := by
      rw [outstanding, hpc]
      rfl
    rw [handled, hpc, hnone]
    exact (found_of_checkIfDue hs).outstanding
  case h_8 => exact schedule_outstanding hs
  case h_9 =>
    obtain ⟨-, hs⟩ := Option.ite_none_right_eq_some.mp hs
    cases hs
    exact .refl _
  case h_10 =>
    cases hs
    exact .refl _
  case h_11 x old k hpc =>
    cases hs
    rw [outstanding_returnTo]
    exact .refl _
  case h_12 => cases hs

/-- Steps from one state to another, with the interrupts that were handled and scheduled. -/
structure Moved (s s' : State Handler) (gone new : List (PendingInterrupt Handler)) : Prop where
  reach : machine.Reachable s → machine.Reachable s'
  total : machine.Reachable s → s.totalTicks ≤ s'.totalTicks
  perm : (gone ++ outstanding s').Perm (new ++ outstanding s)

theorem moved_step (hs : s.step e = some s') : Moved s s' (handled s e) (issue s e) where
  reach hr := hr.step trivial hs
  total hr := by
    obtain ⟨hk, ha⟩ := keeps_reach hr
    exact (keeps_step hk ha hs).2.2
  perm := outstanding_step hs

theorem Moved.refl (s : State Handler) : Moved s s [] [] := ⟨id, fun _ => le_rfl, .refl _⟩

theorem Moved.trans {gone new gone' new' : List (PendingInterrupt Handler)}
    (h : Moved s s' gone new) (h' : Moved s' u gone' new') :
    Moved s u (gone ++ gone') (new' ++ new) where
  reach hr := h'.reach (h.reach hr)
  total hr := (h.total hr).trans (h'.total (h.reach hr))
  perm := by
    rw [List.append_assoc, List.append_assoc]
    calc (gone ++ (gone' ++ outstanding u)).Perm (gone ++ (new' ++ outstanding s')) :=
          h'.perm.append_left _
      _ |>.Perm (new' ++ (gone ++ outstanding s')) := by
          rw [← List.append_assoc, ← List.append_assoc]
          exact List.perm_append_comm.append_right _
      _ |>.Perm (new' ++ (new ++ outstanding s)) := h.perm.append_left _

/-! ### Times -/

/-- Between the first line of `OneTick` and the end of its loop. -/
def Pc.InOneTick : Pc Handler → Prop
  | .checkIfDue (.oneTick _) | .handler _ _ (.oneTick _) => True
  | _ => False

structure Timely (s : State Handler) : Prop where
  nonneg : 0 ≤ s.totalTicks
  later : ¬ s.pc.InOneTick → ∀ y ∈ s.pending, s.totalTicks ≤ y.1
  current : ∀ x ∈ s.pc.current, x.when ≤ s.totalTicks ∧ s.status = .systemMode

theorem Timely.congr (ht : Timely s) (hpending : s'.pending = s.pending)
    (htotal : s'.totalTicks = s.totalTicks) (hpc : s'.pc.current = [])
    (hin : ¬ s'.pc.InOneTick → ¬ s.pc.InOneTick) : Timely s' where
  nonneg := htotal ▸ ht.nonneg
  later h := by
    rw [hpending, htotal]
    exact ht.later (hin h)
  current := by
    rw [hpc]
    nofun

theorem Timely.schedule {handler : Handler} {arg fromNow : ℤ} {type : IntType} (ht : Timely s)
    (hs : s.schedule handler arg fromNow type = some s') : Timely s' := by
  obtain ⟨hpos, hs⟩ := Option.ite_none_right_eq_some.mp hs
  cases hs
  refine ⟨ht.nonneg, ?_, ht.current⟩
  intro h y hy
  rcases mem_insertByKey.mp hy with rfl | hy
  · dsimp only
    omega
  · exact ht.later h y hy

theorem Timely.oneTick (ht : Timely s) : Timely s.oneTick := by
  rw [State.oneTick]
  split_ifs
  · exact ⟨Int.add_nonneg ht.nonneg (by decide), fun h => absurd trivial h,
      List.forall_mem_nil _⟩
  · exact ⟨Int.add_nonneg ht.nonneg (by decide), fun h => absurd trivial h,
      List.forall_mem_nil _⟩

theorem Found.timely (hf : Found s k s') (hpc : s.pc = .checkIfDue k) (hk : Keeps s) (ha : Awake s)
    (ht : Timely s) : Timely s' := by
  have hreturn (u : State Handler) (htotal : 0 ≤ u.totalTicks)
      (hlater : ∀ y ∈ u.pending, u.totalTicks ≤ y.1) : Timely (u.returnTo k false) := by
    refine ⟨?_, ?_, ?_⟩
    · rwa [returnTo_totalTicks]
    · intro _
      rwa [returnTo_totalTicks, returnTo_pending]
    · rw [returnTo_current]
      nofun
  have hsorted := hk.sorted
  cases hf with
  | nothing hp =>
    apply hreturn s ht.nonneg
    rw [hp]
    nofun
  | early u when x rest hp hpending hlt htotal hyield hadvance =>
    apply hreturn u (htotal ▸ ht.nonneg)
    rw [hp] at hsorted
    intro y hy
    rw [hpending] at hy
    rw [htotal]
    rcases mem_insertByKey.mp hy with rfl | hy
    · exact hlt.le
    · exact hlt.le.trans (hsorted.head_le y hy)
  | last u when x hp hpending hidle htimer htotal hadvance =>
    have hnot : ¬ s.pc.InOneTick := by
      intro hin
      have hstatus := ha.2
      rw [hpc] at hin hstatus
      cases k with
      | oneTick old => exact hstatus.1 hidle
      | idle first => exact hin
    have hle := ht.later hnot (when, x) (hp ▸ List.mem_cons_self)
    rw [max_eq_right hle] at htotal
    apply hreturn u (htotal ▸ ht.nonneg.trans hle)
    rw [hpending, htotal]
    intro y hy
    rw [List.mem_singleton.mp hy]
  | due _ when x rest hp hpending hpcu hstatus htotal hyield hnot =>
    have hwhen : when = x.when := hk.keys (when, x) (hp ▸ List.mem_cons_self)
    refine ⟨?_, ?_, ?_⟩
    · rw [htotal]
      exact ht.nonneg.trans (le_max_left _ _)
    · intro hin y hy
      have hin' : ¬ s.pc.InOneTick := by
        rw [hpc]
        rw [hpcu] at hin
        cases k with
        | oneTick old => exact hin
        | idle first => exact hin
      have hle := ht.later hin' (when, x) (hp ▸ List.mem_cons_self)
      rw [hp] at hsorted
      rw [htotal, max_eq_right hle]
      exact hsorted.head_le y (hpending ▸ hy)
    · rw [hpcu]
      intro y hy
      rw [List.mem_singleton.mp hy, htotal, ← hwhen]
      exact ⟨le_max_right _ _, hstatus⟩

theorem timely_step (hk : Keeps s) (ha : Awake s) (ht : Timely s) (hs : s.step e = some s') :
    Timely s' := by
  unfold State.step at hs
  split at hs
  case h_1 => exact ht.schedule hs
  case h_2 now hpc =>
    cases hs
    split_ifs
    · exact ht.oneTick
    · exact ht.congr rfl rfl (by rw [hpc]; rfl) id
  case h_3 =>
    cases hs
    exact ht.oneTick
  case h_4 hpc =>
    cases hs
    exact ht.congr rfl rfl rfl fun _ => by rw [hpc]; exact id
  case h_5 status hpc =>
    obtain ⟨-, hs⟩ := Option.ite_none_left_eq_some.mp hs
    cases hs
    exact ht.congr rfl rfl (by rw [hpc]; rfl) id
  case h_6 old hpc =>
    obtain ⟨-, hs⟩ := Option.ite_none_right_eq_some.mp hs
    cases hs
    exact ht.congr rfl rfl (by rw [hpc]; rfl) id
  case h_7 k hpc => exact (found_of_checkIfDue hs).timely hpc hk ha ht
  case h_8 => exact ht.schedule hs
  case h_9 =>
    obtain ⟨-, hs⟩ := Option.ite_none_right_eq_some.mp hs
    cases hs
    exact ⟨ht.nonneg, ht.later, ht.current⟩
  case h_10 =>
    cases hs
    exact ⟨ht.nonneg, ht.later, ht.current⟩
  case h_11 x old k hpc =>
    cases hs
    refine ht.congr (returnTo_pending _ k true) (returnTo_totalTicks _ k true)
      (returnTo_current _ k true) ?_
    rw [hpc]
    cases k with
    | oneTick old => exact id
    | idle first => exact id
  case h_12 => cases hs

theorem timely_reach (hr : machine.Reachable s) : Timely s := by
  apply hr.invariant Timely
  · intro s h
    have h : Start s := h
    refine ⟨h.ticks.1.ge, ?_, ?_⟩
    · rw [h.pending]
      nofun
    · rw [h.pc]
      nofun
  · intro s e s' hr ht _ hs
    obtain ⟨hk, ha⟩ := keeps_reach hr
    exact timely_step hk ha ht hs

/-! ### The loops of `OneTick` and `Idle` -/

theorem returnTo_oneTick (s : State Handler) (old : MachineStatus) :
    (s.returnTo (.oneTick old) false).pc = .outside := by
  rw [State.returnTo]
  split_ifs <;> rfl

/-- `OneTick` goes on until it returns, and the flag for a yield stays set. -/
theorem oneTick_step (hpc : s.pc = .outside ∨ s.pc.InOneTick) (he : e ≠ .idle)
    (hs : s.step e = some s') :
    (s'.pc = .outside ∨ s'.pc.InOneTick) ∧ (s.pc.InOneTick → s.yieldOnReturn = true →
      s'.pc.InOneTick ∧ s'.yieldOnReturn = true ∨
        e = .step ∧ (∃ old, s.pc = .checkIfDue (.oneTick old)) ∧ s'.pc = .outside) := by
  have houtside (h : s.pc = .outside) {q : Prop} (hin : s.pc.InOneTick) : q := by
    rw [h] at hin
    cases hin
  unfold State.step at hs
  split at hs
  case h_1 hpc =>
    obtain ⟨-, hs⟩ := Option.ite_none_right_eq_some.mp hs
    cases hs
    exact ⟨.inl hpc, houtside hpc⟩
  case h_2 now hpc =>
    cases hs
    split_ifs
    · exact ⟨.inr trivial, houtside hpc⟩
    · exact ⟨.inl hpc, houtside hpc⟩
  case h_3 hpc =>
    cases hs
    exact ⟨.inr trivial, houtside hpc⟩
  case h_4 => exact absurd rfl he
  case h_5 status hpc =>
    obtain ⟨-, hs⟩ := Option.ite_none_left_eq_some.mp hs
    cases hs
    exact ⟨.inl hpc, houtside hpc⟩
  case h_6 old hpc =>
    obtain ⟨-, hs⟩ := Option.ite_none_right_eq_some.mp hs
    cases hs
    exact ⟨.inl hpc, houtside hpc⟩
  case h_7 k hk =>
    rw [hk] at hpc ⊢
    cases k with
    | idle first => exact absurd hpc (not_or.mpr ⟨nofun, id⟩)
    | oneTick old =>
      have hreturn (u : State Handler) : (u.returnTo (.oneTick old) false).pc = .outside :=
        returnTo_oneTick u old
      cases found_of_checkIfDue hs with
      | nothing =>
        exact ⟨.inl (hreturn s), fun _ _ => .inr ⟨rfl, ⟨old, rfl⟩, hreturn s⟩⟩
      | early u =>
        exact ⟨.inl (hreturn u), fun _ _ => .inr ⟨rfl, ⟨old, rfl⟩, hreturn u⟩⟩
      | last u =>
        exact ⟨.inl (hreturn u), fun _ _ => .inr ⟨rfl, ⟨old, rfl⟩, hreturn u⟩⟩
      | due _ when x rest hp hpending hpcu hstatus htotal hyield hnot =>
        rw [hpcu, hyield]
        exact ⟨.inr trivial, fun _ hflag => .inl ⟨trivial, hflag⟩⟩
  case h_8 =>
    obtain ⟨-, hs⟩ := Option.ite_none_right_eq_some.mp hs
    cases hs
    exact ⟨hpc, fun hin hflag => .inl ⟨hin, hflag⟩⟩
  case h_9 =>
    obtain ⟨-, hs⟩ := Option.ite_none_right_eq_some.mp hs
    cases hs
    exact ⟨hpc, fun hin hflag => .inl ⟨hin, hflag⟩⟩
  case h_10 =>
    cases hs
    exact ⟨hpc, fun hin _ => .inl ⟨hin, rfl⟩⟩
  case h_11 x old k hk =>
    cases hs
    rw [hk] at hpc
    cases k with
    | oneTick old => exact ⟨.inr trivial, fun _ hflag => .inl ⟨trivial, hflag⟩⟩
    | idle first => exact absurd hpc (not_or.mpr ⟨nofun, id⟩)
  case h_12 => cases hs

theorem returnTo_halted (h : (s.returnTo k false).pc = .halted) : k = .idle true := by
  rcases k with old | first
  · rw [returnTo_oneTick] at h
    cases h
  · cases first with
    | true => rfl
    | false => cases h

/-- The list is as it was when the machine halts. -/
theorem Found.pending_of_halted (hf : Found s k s') (h : s'.pc = .halted) :
    s'.pending = s.pending := by
  cases hf with
  | nothing hp => rw [returnTo_pending]
  | early u when x rest hp hpending hlt htotal hyield hadvance =>
    rw [returnTo_halted h] at hadvance
    cases hadvance
  | last u when x hp hpending hidle htimer htotal hadvance =>
    rw [returnTo_pending, hpending, hp]
  | due _ when x rest hp hpending hpc hstatus htotal hyield hnot =>
    rw [hpc] at h
    cases h

theorem returnTo_ne_checkIfDue (s : State Handler) (k j : Caller) :
    (s.returnTo k false).pc ≠ .checkIfDue j := by
  rcases k with old | first
  · rw [returnTo_oneTick]
    nofun
  · cases first <;> nofun

/-- `Idle` sets the status before its first call, and only that call halts the machine. -/
theorem idle_step (hs : s.step e = some s') :
    (s'.pc = .checkIfDue (.idle true) → s'.status = .idleMode) ∧
      (s'.pc = .halted → s.pc = .checkIfDue (.idle true)) := by
  unfold State.step at hs
  split at hs
  case h_1 hpc =>
    obtain ⟨-, hs⟩ := Option.ite_none_right_eq_some.mp hs
    cases hs
    rw [hpc]
    exact ⟨nofun, nofun⟩
  case h_2 now hpc =>
    cases hs
    split_ifs
    · exact ⟨nofun, nofun⟩
    · rw [hpc]
      exact ⟨nofun, nofun⟩
  case h_3 =>
    cases hs
    exact ⟨nofun, nofun⟩
  case h_4 =>
    cases hs
    exact ⟨fun _ => rfl, nofun⟩
  case h_5 status hpc =>
    obtain ⟨-, hs⟩ := Option.ite_none_left_eq_some.mp hs
    cases hs
    rw [hpc]
    exact ⟨nofun, nofun⟩
  case h_6 old hpc =>
    obtain ⟨-, hs⟩ := Option.ite_none_right_eq_some.mp hs
    cases hs
    rw [hpc]
    exact ⟨nofun, nofun⟩
  case h_7 k hpc =>
    have hreturn (u : State Handler) :
        ((u.returnTo k false).pc = .checkIfDue (.idle true) →
          (u.returnTo k false).status = .idleMode) ∧
          ((u.returnTo k false).pc = .halted → s.pc = .checkIfDue (.idle true)) :=
      ⟨fun h => absurd h (returnTo_ne_checkIfDue u k _), fun h => by rw [hpc, returnTo_halted h]⟩
    cases found_of_checkIfDue hs with
    | nothing => exact hreturn s
    | early u => exact hreturn u
    | last u => exact hreturn u
    | due _ when x rest hp hpending hpcu hstatus htotal hyield hnot =>
      rw [hpcu]
      exact ⟨nofun, nofun⟩
  case h_8 hpc =>
    obtain ⟨-, hs⟩ := Option.ite_none_right_eq_some.mp hs
    cases hs
    rw [hpc]
    exact ⟨nofun, nofun⟩
  case h_9 hpc =>
    obtain ⟨-, hs⟩ := Option.ite_none_right_eq_some.mp hs
    cases hs
    rw [hpc]
    exact ⟨nofun, nofun⟩
  case h_10 hpc =>
    cases hs
    rw [hpc]
    exact ⟨nofun, nofun⟩
  case h_11 x old k hpc =>
    cases hs
    cases k <;> exact ⟨nofun, nofun⟩
  case h_12 => cases hs

theorem idle_status (hr : machine.Reachable s) (hpc : s.pc = .checkIfDue (.idle true)) :
    s.status = .idleMode := by
  cases hr with
  | init h =>
    have h : Start s := h
    rw [h.pc] at hpc
    cases hpc
  | step hr hok hs => exact (idle_step hs).1 hpc

end Coursework.Nachos.Interrupt
