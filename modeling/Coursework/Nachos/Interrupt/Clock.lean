import Coursework.Nachos.Interrupt

/-!
# The interrupt queue keeps time

Every interrupt that was scheduled has fired or is pending. Those that have fired are not later
than the clock and than those that are pending, and new ones are later than the clock.
-/
namespace Coursework.Nachos.Interrupt

variable {Handler : Type} {s s' u : State Handler} {k : Caller} {when : ℤ}
  {x : PendingInterrupt Handler} {rest : List (ℤ × PendingInterrupt Handler)}
  {log : List (Seen Handler)}

def Seen.scheduled? : Seen Handler → Option (PendingInterrupt Handler)
  | .scheduled x => some x
  | .fired _ _ => none

def Seen.fired? : Seen Handler → Option (PendingInterrupt Handler)
  | .scheduled _ => none
  | .fired x _ => some x

/-- The interrupts that were scheduled, in order. -/
def scheduled (log : List (Seen Handler)) : List (PendingInterrupt Handler) :=
  log.filterMap Seen.scheduled?

/-- The interrupts whose handlers were called, in order. -/
def fired (log : List (Seen Handler)) : List (PendingInterrupt Handler) :=
  log.filterMap Seen.fired?

@[simp] theorem scheduled_concat_scheduled :
    scheduled (log ++ [.scheduled x]) = scheduled log ++ [x] := by
  simp [scheduled, Seen.scheduled?]

@[simp] theorem scheduled_concat_fired {n : ℤ} :
    scheduled (log ++ [.fired x n]) = scheduled log := by
  simp [scheduled, Seen.scheduled?]

@[simp] theorem fired_concat_scheduled : fired (log ++ [.scheduled x]) = fired log := by
  simp [fired, Seen.fired?]

@[simp] theorem fired_concat_fired {n : ℤ} : fired (log ++ [.fired x n]) = fired log ++ [x] := by
  simp [fired, Seen.fired?]

/-! ### The queue and the clock -/

structure Keeps (s : State Handler) : Prop where
  keys : ∀ e ∈ s.pending, e.1 = e.2.when
  sorted : KeySorted s.pending
  kept : (scheduled s.log).Perm (fired s.log ++ s.pending.map Prod.snd)
  fresh : ∀ x ∈ scheduled s.log, x.serial < s.issued
  distinct : (scheduled s.log).Nodup
  due : ∀ x ∈ fired s.log, x.when ≤ s.totalTicks
  before : ∀ x ∈ fired s.log, ∀ e ∈ s.pending, x.when ≤ e.1
  ordered : (fired s.log).Pairwise fun x y => x.when ≤ y.when
  timely : ∀ x n, .fired x n ∈ s.log → x.when ≤ n
  ticks : s.totalTicks = s.idleTicks + s.systemTicks + s.userTicks

/-- The clock goes on, and the list has the same entries. -/
theorem Keeps.pass (hk : Keeps s) (hperm : s'.pending.Perm s.pending)
    (hsorted : KeySorted s'.pending) (hlog : s'.log = s.log) (hissued : s'.issued = s.issued)
    (htotal : s.totalTicks ≤ s'.totalTicks)
    (hticks : s'.totalTicks = s'.idleTicks + s'.systemTicks + s'.userTicks) : Keeps s' where
  keys e he := hk.keys e (hperm.mem_iff.mp he)
  sorted := hsorted
  kept := by
    rw [hlog]
    exact hk.kept.trans ((hperm.map Prod.snd).symm.append_left _)
  fresh := by
    rw [hlog, hissued]
    exact hk.fresh
  distinct := by
    rw [hlog]
    exact hk.distinct
  due := by
    rw [hlog]
    exact fun x hx => (hk.due x hx).trans htotal
  before := by
    rw [hlog]
    exact fun x hx e he => hk.before x hx e (hperm.mem_iff.mp he)
  ordered := by
    rw [hlog]
    exact hk.ordered
  timely := by
    rw [hlog]
    exact hk.timely
  ticks := hticks

/-- Nothing changes but the control of the simulation. -/
theorem Keeps.congr (hk : Keeps s) (hpending : s'.pending = s.pending) (hlog : s'.log = s.log)
    (hissued : s'.issued = s.issued) (htotal : s'.totalTicks = s.totalTicks)
    (hticks : s'.totalTicks = s'.idleTicks + s'.systemTicks + s'.userTicks) : Keeps s' :=
  hk.pass (hpending ▸ .refl _) (hpending ▸ hk.sorted) hlog hissued htotal.ge hticks

theorem Keeps.returnTo (hk : Keeps s) (k : Caller) (result : Bool) :
    Keeps (s.returnTo k result) := by
  rcases k with old | first
  · cases result with
    | true => exact hk.congr rfl rfl rfl rfl hk.ticks
    | false =>
      rw [State.returnTo]
      split_ifs
      · exact hk.congr rfl rfl rfl rfl hk.ticks
      · exact hk.congr rfl rfl rfl rfl hk.ticks
  · cases result with
    | true => exact hk.congr rfl rfl rfl rfl hk.ticks
    | false => cases first <;> exact hk.congr rfl rfl rfl rfl hk.ticks

/-- A new interrupt is later than the clock, and so than all that have fired. -/
theorem Keeps.schedule (hk : Keeps s) {handler : Handler} {arg fromNow : ℤ} {type : IntType}
    (hs : s.schedule handler arg fromNow type = some s') : Keeps s' := by
  obtain ⟨hpos, hs⟩ := Option.ite_none_right_eq_some.mp hs
  cases hs
  have hnew : ⟨handler, arg, s.totalTicks + fromNow, type, s.issued⟩ ∉ scheduled s.log := by
    intro hmem
    exact lt_irrefl _ (hk.fresh _ hmem)
  refine ⟨?_, hk.sorted.insert, ?_, ?_, ?_, ?_, ?_, ?_, ?_, hk.ticks⟩
  · intro e he
    rcases mem_insertByKey.mp he with rfl | he
    · rfl
    · exact hk.keys e he
  · have hperm := (insertByKey_perm (l := s.pending)
      (e := (s.totalTicks + fromNow, ⟨handler, arg, s.totalTicks + fromNow, type, s.issued⟩))).map
        Prod.snd
    rw [scheduled_concat_scheduled, fired_concat_scheduled]
    apply (hk.kept.append_right _).trans
    rw [List.append_assoc]
    exact (List.perm_append_singleton _ _).trans hperm.symm |>.append_left _
  · intro y hy
    rw [scheduled_concat_scheduled, List.mem_append, List.mem_singleton] at hy
    rcases hy with hy | rfl
    · exact (hk.fresh y hy).trans (Nat.lt_succ_self _)
    · exact Nat.lt_succ_self _
  · rw [scheduled_concat_scheduled, ← List.concat_eq_append]
    exact hk.distinct.concat hnew
  · rw [fired_concat_scheduled]
    exact hk.due
  · rw [fired_concat_scheduled]
    intro y hy e he
    rcases mem_insertByKey.mp he with rfl | he
    · have hdue := hk.due y hy
      dsimp only
      omega
    · exact hk.before y hy e he
  · rw [fired_concat_scheduled]
    exact hk.ordered
  · intro y n hy
    exact hk.timely y n (by simpa using hy)

/-- The first pending interrupt fires at a time that is not before its own. -/
theorem Keeps.fire (hk : Keeps s) (hp : s.pending = (when, x) :: rest) (hpending : s'.pending = rest)
    (hlog : s'.log = s.log ++ [.fired x s'.totalTicks]) (hissued : s'.issued = s.issued)
    (htotal : s.totalTicks ≤ s'.totalTicks) (hwhen : when ≤ s'.totalTicks)
    (hticks : s'.totalTicks = s'.idleTicks + s'.systemTicks + s'.userTicks) : Keeps s' := by
  have hx : when = x.when := hk.keys (when, x) (hp ▸ List.mem_cons_self)
  have hsorted := hk.sorted
  have hkept := hk.kept
  have hbefore := hk.before
  rw [hp] at hsorted hkept hbefore
  have hmem (e : ℤ × PendingInterrupt Handler) (he : e ∈ s'.pending) : e ∈ (when, x) :: rest :=
    List.mem_cons_of_mem _ (hpending ▸ he)
  refine ⟨?_, hpending ▸ hsorted.tail, ?_, ?_, ?_, ?_, ?_, ?_, ?_, hticks⟩
  · intro e he
    exact hk.keys e (hp ▸ hmem e he)
  · rw [hlog, scheduled_concat_fired, fired_concat_fired, hpending, List.append_assoc]
    exact hkept
  · rw [hlog, hissued, scheduled_concat_fired]
    exact hk.fresh
  · rw [hlog, scheduled_concat_fired]
    exact hk.distinct
  · rw [hlog, fired_concat_fired]
    intro y hy
    rcases List.mem_append.mp hy with hy | hy
    · exact (hk.due y hy).trans htotal
    · rw [List.mem_singleton.mp hy, ← hx]
      exact hwhen
  · rw [hlog, fired_concat_fired]
    intro y hy e he
    rcases List.mem_append.mp hy with hy | hy
    · exact hbefore y hy e (hmem e he)
    · rw [List.mem_singleton.mp hy, ← hx]
      exact hsorted.head_le e (hpending ▸ he)
  · rw [hlog, fired_concat_fired, List.pairwise_append]
    refine ⟨hk.ordered, List.pairwise_singleton _ _, ?_⟩
    intro y hy z hz
    rw [List.mem_singleton.mp hz, ← hx]
    exact hbefore y hy (when, x) List.mem_cons_self
  · rw [hlog]
    intro y n hy
    rcases List.mem_append.mp hy with hy | hy
    · exact hk.timely y n hy
    · cases List.mem_singleton.mp hy
      rw [← hx]
      exact hwhen

/-! ### `CheckIfDue` -/

/-- What one call of `CheckIfDue` does: it finds nothing, puts the first interrupt back, or calls
its handler, perhaps after the clock was advanced. -/
inductive Checked (s : State Handler) (k : Caller) : State Handler → Prop where
  | empty (hp : s.pending = []) : Checked s k (s.returnTo k false)
  | early (when : ℤ) (x : PendingInterrupt Handler) (rest : List (ℤ × PendingInterrupt Handler))
      (hp : s.pending = (when, x) :: rest) (hlt : s.totalTicks < when) :
      Checked s k (({ s with pending := rest }.putBack when x).returnTo k false)
  | lastTimer (when : ℤ) (x : PendingInterrupt Handler) (u : State Handler)
      (hidle : s.status = .idleMode) (hu : Keeps s → Keeps (u.putBack when x))
      (htotal : s.totalTicks ≤ u.totalTicks) (hy : u.yielded = s.yielded) :
      Checked s k ((u.putBack when x).returnTo k false)
  | fire (x : PendingInterrupt Handler) (u : State Handler) (hu : Keeps s → Keeps u)
      (htotal : s.totalTicks ≤ u.totalTicks) (hpc : u.pc = .handler x s.status k)
      (hy : u.yielded = s.yielded) : Checked s k u

theorem returnTo_totalTicks (s : State Handler) (k : Caller) (result : Bool) :
    (s.returnTo k result).totalTicks = s.totalTicks := by
  rcases k with old | first
  · cases result with
    | true => rfl
    | false =>
      rw [State.returnTo]
      split_ifs <;> rfl
  · cases result with
    | true => rfl
    | false => cases first <;> rfl

theorem Keeps.putBack (hk : Keeps s) (hp : s.pending = (when, x) :: rest)
    (hpending : u.pending = rest) (hlog : u.log = s.log) (hissued : u.issued = s.issued)
    (htotal : s.totalTicks ≤ u.totalTicks)
    (hticks : u.totalTicks = u.idleTicks + u.systemTicks + u.userTicks) :
    Keeps (u.putBack when x) := by
  have hsorted := hk.sorted
  rw [hp] at hsorted
  refine hk.pass ?_ (hpending ▸ hsorted.tail).insert hlog hissued htotal hticks
  rw [hp, ← hpending]
  exact insertByKey_perm

/-- After the clock has reached the first interrupt. -/
theorem checked_invoke (hp : s.pending = (when, x) :: rest) (hpending : u.pending = rest)
    (hlog : u.log = s.log) (hissued : u.issued = s.issued) (hstatus : u.status = s.status)
    (hy : u.yielded = s.yielded) (htotal : s.totalTicks ≤ u.totalTicks)
    (hwhen : when ≤ u.totalTicks)
    (hticks : Keeps s → u.totalTicks = u.idleTicks + u.systemTicks + u.userTicks) :
    Checked s k (u.invoke k when x) := by
  rw [State.invoke]
  split_ifs with h
  · obtain ⟨hidle, -, hnil⟩ := h
    obtain rfl : rest = [] := hpending ▸ List.isEmpty_iff.mp hnil
    exact .lastTimer when x u (hstatus ▸ hidle)
      (fun hk => hk.putBack hp hpending hlog hissued htotal (hticks hk)) htotal hy
  · refine .fire x _ ?_ htotal (by rw [hstatus]) hy
    intro hk
    exact hk.fire hp hpending (by rw [hlog]) hissued htotal hwhen (hticks hk)

theorem checked_of_checkIfDue (hs : s.checkIfDue k = some s') : Checked s k s' := by
  obtain ⟨-, hs⟩ := Option.ite_none_right_eq_some.mp hs
  cases hs
  split
  case h_1 hp => exact .empty hp
  case h_2 when x rest hp =>
    dsimp only
    split_ifs with hadvance hearly
    · refine checked_invoke hp rfl rfl rfl rfl rfl hadvance.2.le le_rfl ?_
      intro hk
      have hticks := hk.ticks
      dsimp only
      omega
    · exact .early when x rest hp hearly
    · exact checked_invoke hp rfl rfl rfl rfl rfl le_rfl (not_lt.mp hearly) fun hk => hk.ticks

theorem Checked.keeps (hc : Checked s k s') (hk : Keeps s) : Keeps s' := by
  cases hc with
  | empty hp => exact hk.returnTo k false
  | early when x rest hp hlt =>
    apply Keeps.returnTo
    exact hk.putBack hp rfl rfl rfl le_rfl hk.ticks
  | lastTimer when x u hidle hu htotal hy => exact (hu hk).returnTo k false
  | fire x u hu htotal hpc hy => exact hu hk

theorem Checked.totalTicks_le (hc : Checked s k s') : s.totalTicks ≤ s'.totalTicks := by
  cases hc with
  | empty hp => exact (returnTo_totalTicks s k false).ge
  | early when x rest hp hlt => exact (returnTo_totalTicks _ k false).ge
  | lastTimer when x u hidle hu htotal hy =>
    exact htotal.trans (returnTo_totalTicks _ k false).ge
  | fire x u hu htotal hpc hy => exact htotal

/-! ### Where the machine is idle -/

/-- Outside `Idle` the status is not `IdleMode`, and no loop of `OneTick` will restore that. -/
def Awake (s : State Handler) : Prop :=
  (∀ old ∈ s.yielded, old ≠ .idleMode) ∧
  match s.pc with
  | .outside => s.status ≠ .idleMode
  | .checkIfDue (.oneTick old) => s.status ≠ .idleMode ∧ old ≠ .idleMode
  | .handler _ old (.oneTick old') => old ≠ .idleMode ∧ old' ≠ .idleMode
  | _ => True

theorem awake_returnTo (hy : ∀ old ∈ s.yielded, old ≠ .idleMode)
    (hk : ∀ old, k = .oneTick old → s.status ≠ .idleMode ∧ old ≠ .idleMode) (result : Bool) :
    Awake (s.returnTo k result) := by
  rcases k with old | first
  · obtain ⟨hstatus, hold⟩ := hk old rfl
    cases result with
    | true => exact ⟨hy, hstatus, hold⟩
    | false =>
      rw [State.returnTo]
      split_ifs
      · refine ⟨?_, nofun⟩
        intro o ho
        rcases List.mem_cons.mp ho with rfl | ho
        · exact hold
        · exact hy o ho
      · exact ⟨hy, hstatus⟩
  · cases result with
    | true => exact ⟨hy, trivial⟩
    | false =>
      cases first with
      | true => exact ⟨hy, trivial⟩
      | false => exact ⟨hy, nofun⟩

theorem Awake.oneTick (ha : Awake s) (hpc : s.pc = .outside) : Awake s.oneTick := by
  obtain ⟨hy, hstatus⟩ := ha
  rw [hpc] at hstatus
  rw [State.oneTick]
  split_ifs
  · exact ⟨hy, hstatus, hstatus⟩
  · exact ⟨hy, hstatus, hstatus⟩

/-- In a loop of `OneTick` the machine is not idle. -/
theorem Checked.awake (hc : Checked s k s') (hpc : s.pc = .checkIfDue k) (ha : Awake s) :
    Awake s' := by
  obtain ⟨hy, hstatus⟩ := ha
  have hk (old : MachineStatus) (hold : k = .oneTick old) :
      s.status ≠ .idleMode ∧ old ≠ .idleMode := by
    rw [hpc, hold] at hstatus
    exact hstatus
  cases hc with
  | empty hp => exact awake_returnTo hy hk false
  | early when x rest hp hlt =>
    refine awake_returnTo ?_ ?_ false
    · exact hy
    · exact hk
  | lastTimer when x u hidle hu htotal hyu =>
    refine awake_returnTo (hyu ▸ hy) ?_ false
    intro old hold
    exact absurd hidle (hk old hold).1
  | fire x u hu htotal hpcu hyu =>
    refine ⟨hyu ▸ hy, ?_⟩
    rw [hpcu]
    rcases k with old | first
    · exact hk old rfl
    · trivial

/-- The loop of `OneTick` ends when all pending interrupts are later than the clock. -/
theorem Checked.late (hc : Checked s k s') (hpc : s.pc = .checkIfDue k) (ha : Awake s)
    (hk : Keeps s) {old : MachineStatus} (hold : k = .oneTick old) (hend : s'.pc = .outside) :
    ∀ e ∈ s'.pending, s'.totalTicks < e.2.when := by
  have hawake : s.status ≠ .idleMode := by
    have hstatus := ha.2
    rw [hpc, hold] at hstatus
    exact hstatus.1
  have hreturn (u : State Handler) : (u.returnTo k false).pending = u.pending ∧
      (u.returnTo k false).totalTicks = u.totalTicks := by
    refine ⟨?_, returnTo_totalTicks u k false⟩
    rw [hold, State.returnTo]
    split_ifs <;> rfl
  cases hc with
  | empty hp =>
    rw [(hreturn s).1, hp]
    nofun
  | early when x rest hp hlt =>
    rw [(hreturn _).1, (hreturn _).2]
    intro e he
    have hsorted := hk.sorted
    have hkeys := hk.keys
    rw [hp] at hsorted hkeys
    rcases mem_insertByKey.mp he with rfl | he
    · rw [← hkeys (when, x) List.mem_cons_self]
      exact hlt
    · rw [← hkeys e (List.mem_cons_of_mem _ he)]
      exact hlt.trans_le (hsorted.head_le e he)
  | lastTimer when x u hidle hu htotal hyu => exact absurd hidle hawake
  | fire x u hu htotal hpcu hyu =>
    rw [hpcu] at hend
    cases hend

/-! ### Steps and runs -/

theorem oneTick_keeps (hk : Keeps s) : Keeps s.oneTick ∧ s.totalTicks ≤ s.oneTick.totalTicks := by
  have hticks := hk.ticks
  rw [State.oneTick]
  split_ifs
  · have hle : s.totalTicks ≤ s.totalTicks + systemTick := by
      rw [systemTick]
      omega
    refine ⟨hk.pass (.refl _) hk.sorted rfl rfl hle ?_, hle⟩
    dsimp only
    omega
  · have hle : s.totalTicks ≤ s.totalTicks + userTick := by
      rw [userTick]
      omega
    refine ⟨hk.pass (.refl _) hk.sorted rfl rfl hle ?_, hle⟩
    dsimp only
    omega

theorem schedule_fields {handler : Handler} {arg fromNow : ℤ} {type : IntType}
    (hs : s.schedule handler arg fromNow type = some s') :
    s'.totalTicks = s.totalTicks ∧ s'.pc = s.pc ∧ s'.status = s.status ∧
      s'.yielded = s.yielded := by
  obtain ⟨-, hs⟩ := Option.ite_none_right_eq_some.mp hs
  cases hs
  exact ⟨rfl, rfl, rfl, rfl⟩

theorem Awake.schedule {handler : Handler} {arg fromNow : ℤ} {type : IntType} (ha : Awake s)
    (hs : s.schedule handler arg fromNow type = some s') : Awake s' := by
  obtain ⟨-, hpc, hstatus, hy⟩ := schedule_fields hs
  rw [Awake, hpc, hstatus, hy]
  exact ha

/-- What every step keeps, and that the clock does not go back. -/
theorem keeps_step {e : Event Handler} (hk : Keeps s) (ha : Awake s) (hs : s.step e = some s') :
    Keeps s' ∧ Awake s' ∧ s.totalTicks ≤ s'.totalTicks := by
  unfold State.step at hs
  split at hs
  case h_1 => exact ⟨hk.schedule hs, ha.schedule hs, (schedule_fields hs).1.ge⟩
  case h_2 now hpc =>
    cases hs
    split_ifs
    · exact ⟨(oneTick_keeps hk).1, ha.oneTick hpc, (oneTick_keeps hk).2⟩
    · exact ⟨hk.congr rfl rfl rfl rfl hk.ticks, ha, le_rfl⟩
  case h_3 hpc =>
    cases hs
    exact ⟨(oneTick_keeps hk).1, ha.oneTick hpc, (oneTick_keeps hk).2⟩
  case h_4 =>
    cases hs
    exact ⟨hk.congr rfl rfl rfl rfl hk.ticks, ⟨ha.1, trivial⟩, le_rfl⟩
  case h_5 status hpc =>
    obtain ⟨hstatus, hs⟩ := Option.ite_none_left_eq_some.mp hs
    cases hs
    refine ⟨hk.congr rfl rfl rfl rfl hk.ticks, ⟨ha.1, ?_⟩, le_rfl⟩
    rw [hpc]
    exact hstatus
  case h_6 old hpc =>
    obtain ⟨hmem, hs⟩ := Option.ite_none_right_eq_some.mp hs
    cases hs
    refine ⟨hk.congr rfl rfl rfl rfl hk.ticks,
      ⟨fun o ho => ha.1 o (List.mem_of_mem_erase ho), ?_⟩, le_rfl⟩
    rw [hpc]
    exact ha.1 old hmem
  case h_7 k hpc =>
    have hc := checked_of_checkIfDue hs
    exact ⟨hc.keeps hk, hc.awake hpc ha, hc.totalTicks_le⟩
  case h_8 => exact ⟨hk.schedule hs, ha.schedule hs, (schedule_fields hs).1.ge⟩
  case h_9 =>
    obtain ⟨-, hs⟩ := Option.ite_none_right_eq_some.mp hs
    cases hs
    exact ⟨hk.congr rfl rfl rfl rfl hk.ticks, ha, le_rfl⟩
  case h_10 =>
    cases hs
    exact ⟨hk.congr rfl rfl rfl rfl hk.ticks, ha, le_rfl⟩
  case h_11 x old k hpc =>
    cases hs
    obtain ⟨hy, hstatus⟩ := ha
    refine ⟨Keeps.returnTo ?_ k true, awake_returnTo ?_ ?_ true,
      (returnTo_totalTicks _ k true).ge⟩
    · exact hk.congr rfl rfl rfl rfl hk.ticks
    · exact hy
    · rintro old' rfl
      rw [hpc] at hstatus
      exact hstatus
  case h_12 => cases hs

theorem keeps_reach (hr : machine.Reachable s) : Keeps s ∧ Awake s := by
  apply hr.invariant fun s => Keeps s ∧ Awake s
  · intro s h
    have h : Start s := h
    constructor
    · constructor
      · rw [h.pending]
        nofun
      · rw [h.pending]
        exact List.Pairwise.nil
      · rw [h.log, h.pending]
        exact .refl _
      · rw [h.log]
        nofun
      · rw [h.log]
        exact List.nodup_nil
      · rw [h.log]
        nofun
      · rw [h.log]
        nofun
      · rw [h.log]
        exact List.Pairwise.nil
      · rw [h.log]
        nofun
      · obtain ⟨h₁, h₂, h₃, h₄⟩ := h.ticks
        rw [h₁, h₂, h₃, h₄]
        rfl
    · refine ⟨?_, ?_⟩
      · rw [h.yielded]
        nofun
      · rw [h.pc, h.status]
        nofun
  · intro s e s' _ hi _ hs
    obtain ⟨hk, ha, -⟩ := keeps_step hi.1 hi.2 hs
    exact ⟨hk, ha⟩

/-- What an onlooker sees of the queue and the clock. -/
structure KeepsTime (s : State Handler) : Prop where
  /-- No handler runs twice for one interrupt. -/
  once : (fired s.log).Nodup
  /-- None runs too early. -/
  timely : ∀ x n, .fired x n ∈ s.log → x.when ≤ n
  ordered : (fired s.log).Pairwise fun x y => x.when ≤ y.when
  /-- None is lost. -/
  kept : (scheduled s.log).Perm (fired s.log ++ s.pending.map Prod.snd)
  ticks : s.totalTicks = s.idleTicks + s.systemTicks + s.userTicks

/-- Interrupts fire once, in time and in order, and are not lost; the clock goes forward and is
the sum of its parts, and a loop of `OneTick` leaves no interrupt that is due. -/
theorem interrupts_keep_time (hr : machine.Reachable s) :
    KeepsTime s ∧ ∀ e s', s.step e = some s' → s.totalTicks ≤ s'.totalTicks ∧
      ∀ old, s.pc = .checkIfDue (.oneTick old) → s'.pc = .outside →
        ∀ y ∈ s'.pending, s'.totalTicks < y.2.when := by
  obtain ⟨hk, ha⟩ := keeps_reach hr
  constructor
  · have hnodup : (fired s.log ++ s.pending.map Prod.snd).Nodup :=
      hk.kept.nodup_iff.mp hk.distinct
    exact ⟨(List.nodup_append.mp hnodup).1, hk.timely, hk.ordered, hk.kept, hk.ticks⟩
  · intro e s' hs
    refine ⟨(keeps_step hk ha hs).2.2, ?_⟩
    intro old hpc hend
    unfold State.step at hs
    rw [hpc] at hs
    cases e with
    | step => exact (checked_of_checkIfDue hs).late hpc ha hk rfl hend
    | _ => cases hs

/-- After the constructors. -/
def initialState : State Unit where
  level := .off
  pending := []
  inHandler := false
  yieldOnReturn := false
  status := .systemMode
  totalTicks := 0
  idleTicks := 0
  systemTicks := 0
  userTicks := 0
  pc := .outside
  yielded := []
  log := []
  issued := 0

/-- A handler schedules the next interrupt, which is found too early. -/
def reschedule : List (Event Unit) :=
  [.schedule () 0 5 .timerInt, .oneTick, .step, .schedule () 0 3 .diskInt, .step, .step]

theorem interrupts_keep_time_reschedule :
    ∃ s, machine.run initialState reschedule = some s ∧ s.totalTicks = 10 ∧
      (fired s.log).length = 1 ∧ s.pending.length = 1 ∧ KeepsTime s := by
  have h0 : machine.init initialState := ⟨rfl, rfl, ⟨rfl, rfl, rfl, rfl⟩, rfl, rfl, rfl⟩
  have hr : machine.Reachable _ := Machine.Reachable.run reschedule (.init h0) rfl
  exact ⟨_, rfl, rfl, rfl, rfl, (interrupts_keep_time hr).1⟩

end Coursework.Nachos.Interrupt
