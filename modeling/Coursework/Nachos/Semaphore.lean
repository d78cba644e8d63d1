import Coursework.Lib.CInt
import Coursework.Lib.Machine
import Coursework.Lib.Threads
import Mathlib.Tactic.Linarith
import Mathlib.Data.Fintype.Fin

/-!
# The semaphore of `synch.cc`

`P` and `V` run with interrupts off, so a pass of the loop in `P` up to
`Thread::Sleep`, and the whole of `V`, is one step; other threads run only at the
sleep and where `SetLevel` turns interrupts back on. A thread in the queue is
asleep. A thread that `V` took off the queue is on the ready list and tests
`value` again when it is dispatched.
-/
namespace Coursework.Nachos
open Finset

variable {Tid : Type} [DecidableEq Tid]

/-- `int value` and `List *queue`. The value is a number here; `stored` is what the `int` keeps
of it. -/
structure Semaphore (Tid : Type) where
  value : ℤ
  queue : List Tid
  deriving DecidableEq

namespace Semaphore

/-- One pass of the loop in `P`: the thread goes to sleep (`false`) or takes a unit. -/
def P (S : Semaphore Tid) (t : Tid) : Semaphore Tid × Bool :=
  if S.value = 0 then ({ S with queue := S.queue ++ [t] }, false)
  else ({ S with value := S.value - 1 }, true)

/-- `V` moves the head of the queue, if there is one, to the ready list. -/
def V (S : Semaphore Tid) : Semaphore Tid :=
  { value := S.value + 1, queue := S.queue.tail }

/-- The semaphore with the 32 bits of its value, read with a sign. -/
def stored (S : Semaphore Tid) : Semaphore Tid :=
  { S with value := S.value.bmod (2 ^ 32) }

omit [DecidableEq Tid] in
theorem stored_eq_self {S : Semaphore Tid} (hlow : -intMax - 1 ≤ S.value)
    (hhigh : S.value ≤ intMax) : S.stored = S := by
  unfold intMax at *
  rw [stored, Int.bmod_eq_of_le (by omega) (by omega)]

/-- The counting invariant, for the set of threads that are inside `P`. -/
structure Ok (S : Semaphore Tid) (inside : Finset Tid) : Prop where
  nonneg : 0 ≤ S.value
  nodup : S.queue.Nodup
  asleep : ∀ t ∈ S.queue, t ∈ inside
  noLost : S.queue ≠ [] → S.value + S.queue.length ≤ inside.card

variable {S : Semaphore Tid} {inside : Finset Tid} {t : Tid}

omit [DecidableEq Tid] in
theorem ok_new {k : ℤ} (hk : 0 ≤ k) : Ok (⟨k, []⟩ : Semaphore Tid) inside :=
  ⟨hk, List.nodup_nil, by simp, by simp⟩

/-- The threads asleep are some of the threads inside. -/
theorem Ok.length_le (h : S.Ok inside) : S.queue.length ≤ inside.card := by
  rw [← List.toFinset_card_of_nodup h.nodup]
  exact card_le_card fun u hu => h.asleep u (List.mem_toFinset.mp hu)

theorem Ok.enter (h : S.Ok inside) (t : Tid) : S.Ok (insert t inside) where
  nonneg := h.nonneg
  nodup := h.nodup
  asleep u hu := mem_insert_of_mem (h.asleep u hu)
  noLost hq := by
    have hle : inside.card ≤ (insert t inside).card := card_le_card (subset_insert t inside)
    have := h.noLost hq
    omega

omit [DecidableEq Tid] in
theorem Ok.v (h : S.Ok inside) : S.V.Ok inside := by
  rcases S with ⟨value, queue⟩
  cases queue with
  | nil =>
    refine ⟨?_, by simp [V], by simp [V], by simp [V]⟩
    have := h.nonneg
    simp only [V] at *
    omega
  | cons u us =>
    have hlost := h.noLost (List.cons_ne_nil u us)
    refine ⟨?_, (List.nodup_cons.mp h.nodup).2,
      fun w hw => h.asleep w (List.mem_cons_of_mem u hw), ?_⟩
    · have := h.nonneg
      simp only [V] at *
      omega
    · intro _
      simp only [V, List.tail_cons, List.length_cons] at *
      omega

/-- A thread inside that finds the value zero goes to the tail of the queue. -/
theorem Ok.sleep (h : S.Ok inside) (ht : t ∈ inside) (hq : t ∉ S.queue) (hv : S.value = 0) :
    Ok { S with queue := S.queue ++ [t] } inside where
  nonneg := h.nonneg
  nodup := h.nodup.append (List.nodup_singleton t) (by simpa using hq)
  asleep u hu := by
    rcases List.mem_append.mp hu with hu | hu
    · exact h.asleep u hu
    · rwa [List.mem_singleton.mp hu]
  noLost _ := by
    have hsub : (insert t S.queue.toFinset).card ≤ inside.card :=
      card_le_card (insert_subset ht fun u hu => h.asleep u (List.mem_toFinset.mp hu))
    rw [card_insert_of_notMem (by simpa using hq), List.toFinset_card_of_nodup h.nodup] at hsub
    simp only [List.length_append, List.length_singleton]
    omega

/-- A thread inside that finds a unit takes it and leaves. -/
theorem Ok.pass (h : S.Ok inside) (ht : t ∈ inside) (hq : t ∉ S.queue) (hv : S.value ≠ 0) :
    Ok { S with value := S.value - 1 } (inside.erase t) where
  nonneg := by
    have := h.nonneg
    simp only
    omega
  nodup := h.nodup
  asleep u hu := mem_erase.mpr ⟨fun he => hq (he ▸ hu), h.asleep u hu⟩
  noLost hne := by
    have := h.noLost hne
    rw [card_erase_of_mem ht]
    have := card_pos.mpr ⟨t, ht⟩
    simp only
    omega

/-- What a step does to a semaphore that an onlooker can see. -/
inductive Label where
  | silent
  /-- The thread goes into `P`. -/
  | enter
  /-- The thread takes a unit and comes out of the loop of `P`. -/
  | pass
  | v
  deriving DecidableEq

/-- One step of thread `t` on a semaphore and on the set of threads inside `P`. -/
inductive Act (S : Semaphore Tid) (t : Tid) (inside : Finset Tid) :
    Label → Semaphore Tid → Finset Tid → Prop where
  | idle : Act S t inside .silent S inside
  | enter (ht : t ∉ inside) : Act S t inside .enter S (insert t inside)
  | sleep (ht : t ∈ inside) (hq : t ∉ S.queue) (hv : S.value = 0) :
      Act S t inside .silent { S with queue := S.queue ++ [t] } inside
  | pass (ht : t ∈ inside) (hq : t ∉ S.queue) (hv : S.value ≠ 0) :
      Act S t inside .pass { S with value := S.value - 1 } (inside.erase t)
  | v : Act S t inside .v S.V inside

theorem Ok.act {a : Label} {S' : Semaphore Tid} {inside' : Finset Tid} (h : S.Ok inside)
    (ha : S.Act t inside a S' inside') : S'.Ok inside' := by
  cases ha with
  | idle => exact h
  | enter => exact h.enter t
  | sleep ht hq hv => exact h.sleep ht hq hv
  | pass ht hq hv => exact h.pass ht hq hv
  | v => exact h.v

section Update
variable [Fintype Tid] {α : Type*} {p : α → Bool} {f f' : Tid → α} {x : α} {S' : Semaphore Tid}
  {a : Label}

/-! A step that updates the local state of one thread, seen from the semaphore. -/

theorem Act.of_keep (hf : f' = Function.update f t x) (hp : p x = p (f t)) (hS : S' = S)
    (ha : a = .silent) : S.Act t (having p f) a S' (having p f') := by
  rw [hf, having_update_of_eq hp, hS, ha]
  exact .idle

theorem Act.of_enter (hf : f' = Function.update f t x) (hx : p x = true) (hp : p (f t) = false)
    (hS : S' = S) (ha : a = .enter) : S.Act t (having p f) a S' (having p f') := by
  rw [hf, having_update_of_pos hx, hS, ha]
  exact .enter (by simp [hp])

theorem Act.of_sleep (hf : f' = Function.update f t x) (hx : p x = true) (hp : p (f t) = true)
    (hq : t ∉ S.queue) (hv : S.value = 0) (hS : S' = { S with queue := S.queue ++ [t] })
    (ha : a = .silent) : S.Act t (having p f) a S' (having p f') := by
  rw [hf, having_update_of_eq (hx.trans hp.symm), hS, ha]
  exact .sleep (mem_having.mpr hp) hq hv

theorem Act.of_pass (hf : f' = Function.update f t x) (hx : p x = false) (hp : p (f t) = true)
    (hq : t ∉ S.queue) (hv : S.value ≠ 0) (hS : S' = { S with value := S.value - 1 })
    (ha : a = .pass) : S.Act t (having p f) a S' (having p f') := by
  rw [hf, having_update_of_neg hx, hS, ha]
  exact .pass (mem_having.mpr hp) hq hv

theorem Act.of_v (hf : f' = Function.update f t x) (hp : p x = p (f t)) (hS : S' = S.V)
    (ha : a = .v) : S.Act t (having p f) a S' (having p f') := by
  rw [hf, having_update_of_eq hp, hS, ha]
  exact .v

end Update

end Semaphore

/-! The two threads of the runs that are written out. -/

def t0 : Fin 2 := 0

def t1 : Fin 2 := 1

/-! Threads that call `P` and `V` on one semaphore, and interrupt handlers that call `V`. -/

inductive SemPc where
  /-- Outside `P`; a call of `P` or `V` may be next. -/
  | running
  /-- In the loop of `P`, after a first sleep. -/
  | inP
  deriving DecidableEq

def SemPc.inside : SemPc → Bool
  | .running => false
  | .inP => true

structure SemState (Tid : Type) where
  sem : Semaphore Tid
  pc : Tid → SemPc

inductive SemEvent (Tid : Type) where
  | p (t : Tid)
  | v (t : Tid)
  | interruptV

inductive SemSeen where
  | completedP
  | completedV
  deriving DecidableEq

namespace SemState

/-- A new semaphore of value `k`, and no thread inside. -/
def start (k : ℤ) : SemState Tid := ⟨⟨k, []⟩, fun _ => .running⟩

/-- Threads that `V` made ready and that have not tested `value` again. -/
def woken [Fintype Tid] (s : SemState Tid) : Finset Tid :=
  having SemPc.inside s.pc \ s.sem.queue.toFinset

def step (s : SemState Tid) : SemEvent Tid → Option (SemState Tid)
  | .p t =>
    if t ∈ s.sem.queue then none
    else
      let (sem, passed) := s.sem.P t
      some ⟨sem.stored, Function.update s.pc t (if passed then .running else .inP)⟩
  | .v t => if s.pc t = .running then some { s with sem := s.sem.V.stored } else none
  | .interruptV => some { s with sem := s.sem.V.stored }

def seen (s : SemState Tid) : SemEvent Tid → List SemSeen
  | .p t => if (s.sem.P t).2 then [.completedP] else []
  | .v _ => [.completedV]
  | .interruptV => [.completedV]

def machine (k : ℤ) : Machine (SemState Tid) (SemEvent Tid) where
  init s := s = start k
  step := step

/-- The event does not run `value++` on the greatest `int`. -/
def CountsUp (s : SemState Tid) : SemEvent Tid → Prop
  | .p _ => True
  | .v _ => s.sem.value < intMax
  | .interruptV => s.sem.value < intMax

instance (s : SemState Tid) : DecidablePred s.CountsUp
  | .p _ => .isTrue trivial
  | .v _ => inferInstanceAs (Decidable (s.sem.value < intMax))
  | .interruptV => inferInstanceAs (Decidable (s.sem.value < intMax))

/-- What one event does: sleep in `P`, pass `P`, or run `V`. -/
theorem step_cases {s s' : SemState Tid} {e : SemEvent Tid} (h : s.step e = some s') :
    (∃ t, e = .p t ∧ t ∉ s.sem.queue ∧ s.sem.value = 0 ∧ s.seen e = [] ∧ s.CountsUp e ∧
      s' = ⟨Semaphore.stored { s.sem with queue := s.sem.queue ++ [t] },
        Function.update s.pc t .inP⟩) ∨
    (∃ t, e = .p t ∧ t ∉ s.sem.queue ∧ s.sem.value ≠ 0 ∧ s.seen e = [.completedP] ∧
      s.CountsUp e ∧
      s' = ⟨Semaphore.stored { s.sem with value := s.sem.value - 1 },
        Function.update s.pc t .running⟩) ∨
    (s.seen e = [.completedV] ∧ (s.CountsUp e ↔ s.sem.value < intMax) ∧
      s' = { s with sem := s.sem.V.stored }) := by
  cases e with
  | p t =>
    by_cases hq : t ∈ s.sem.queue
    · simp [step, hq] at h
    · by_cases hv : s.sem.value = 0
      · left
        exact ⟨t, rfl, hq, hv, by simp [seen, Semaphore.P, hv], trivial,
          by simpa [step, hq, Semaphore.P, hv] using h.symm⟩
      · right; left
        exact ⟨t, rfl, hq, hv, by simp [seen, Semaphore.P, hv], trivial,
          by simpa [step, hq, Semaphore.P, hv] using h.symm⟩
  | v t =>
    right; right
    simp only [step, Option.ite_none_right_eq_some, Option.some.injEq] at h
    exact ⟨rfl, Iff.rfl, h.2.symm⟩
  | interruptV =>
    right; right
    exact ⟨rfl, Iff.rfl, (Option.some.inj h).symm⟩

variable [Fintype Tid]

/-- The semaphore's invariant over the threads inside `P`, and the balance of calls. -/
structure Inv (k : ℤ) (s : SemState Tid) (h : List SemSeen) : Prop where
  ok : s.sem.Ok (having SemPc.inside s.pc)
  fits : s.sem.value ≤ intMax
  balance : s.sem.value + h.count .completedP = k + h.count .completedV

omit [DecidableEq Tid] in
theorem inv_start {k : ℤ} (hk : 0 ≤ k) (hmax : k ≤ intMax) : Inv k (start k : SemState Tid) [] :=
  ⟨Semaphore.ok_new hk, hmax, by simp [start]⟩

/-- As long as no `value++` overflows, an `int` keeps every value. -/
theorem inv_step {k : ℤ} {s s' : SemState Tid} {h : List SemSeen} {e : SemEvent Tid}
    (hi : Inv k s h) (hup : s.CountsUp e) (hs : s.step e = some s') :
    Inv k s' (h ++ s.seen e) := by
  rcases hi with ⟨ok, fits, balance⟩
  have hlow : -intMax - 1 ≤ s.sem.value := le_trans (by decide) ok.nonneg
  rcases step_cases hs with ⟨t, -, hq, hv, hseen, -, rfl⟩ | ⟨t, -, hq, hv, hseen, -, rfl⟩ |
    ⟨hseen, hlt, rfl⟩
  · rw [Semaphore.stored_eq_self (by exact hlow) (by exact fits)]
    refine ⟨?_, fits, by simpa [hseen] using balance⟩
    dsimp only
    rw [having_update_of_pos (p := SemPc.inside) rfl]
    exact (ok.enter t).sleep (mem_insert_self t _) hq hv
  · have hpos : 0 < s.sem.value := lt_of_le_of_ne ok.nonneg (Ne.symm hv)
    have hless : s.sem.value - 1 ≤ intMax := by omega
    rw [Semaphore.stored_eq_self (by simp only [intMax]; omega) (by exact hless)]
    refine ⟨?_, hless, by simp [hseen]; omega⟩
    dsimp only
    rw [having_update_of_neg (p := SemPc.inside) rfl]
    -- a newcomer passes without ever having been inside
    have hpass := (ok.enter t).pass (mem_insert_self t _) hq hv
    rwa [erase_insert_eq_erase] at hpass
  · have hfits : s.sem.V.value ≤ intMax := hlt.mp hup
    rw [Semaphore.stored_eq_self (le_trans (by decide) ok.v.nonneg) hfits]
    exact ⟨ok.v, hfits, by simp [hseen, Semaphore.V]; omega⟩

/-- From the greatest `int` the value goes to the least one. -/
theorem value_neg_of_step {k : ℤ} {s s' : SemState Tid} {h : List SemSeen} {e : SemEvent Tid}
    (hi : Inv k s h) (hup : ¬ s.CountsUp e) (hs : s.step e = some s') : s'.sem.value < 0 := by
  rcases step_cases hs with ⟨t, -, -, -, -, hcounts, -⟩ | ⟨t, -, -, -, -, hcounts, -⟩ |
    ⟨-, hlt, rfl⟩
  · exact absurd hcounts hup
  · exact absurd hcounts hup
  · have hvalue : s.sem.value = intMax := le_antisymm hi.fits (not_lt.mp (mt hlt.mpr hup))
    change (s.sem.value + 1).bmod (2 ^ 32) < 0
    rw [hvalue]
    decide

theorem card_woken {s : SemState Tid} (h : s.sem.Ok (having SemPc.inside s.pc)) :
    (s.woken.card : ℤ) = (having SemPc.inside s.pc).card - s.sem.queue.length := by
  have hsub : s.sem.queue.toFinset ⊆ having SemPc.inside s.pc :=
    fun u hu => h.asleep u (List.mem_toFinset.mp hu)
  rw [woken, card_sdiff_of_subset hsub, List.toFinset_card_of_nodup h.nodup,
    Nat.cast_sub h.length_le]

/-- The value is not negative, calls balance, nobody is queued twice, and no wakeup is lost. -/
structure Safe (k : ℤ) (s : SemState Tid) (h : List SemSeen) : Prop where
  nonneg : 0 ≤ s.sem.value
  balance : s.sem.value + h.count .completedP = k + h.count .completedV
  nodup : s.sem.queue.Nodup
  noLost : s.sem.queue ≠ [] → s.sem.value ≤ s.woken.card
  notStranded : ¬ (0 < s.sem.value ∧ s.sem.queue ≠ [] ∧ s.woken = ∅)

theorem Inv.safe {k : ℤ} {s : SemState Tid} {h : List SemSeen} (hi : Inv k s h) : Safe k s h := by
  obtain ⟨ok, -, balance⟩ := hi
  have hlost : s.sem.queue ≠ [] → s.sem.value ≤ s.woken.card := by
    intro hq
    have := ok.noLost hq
    rw [card_woken ok]
    omega
  refine ⟨ok.nonneg, balance, ok.nodup, hlost, ?_⟩
  rintro ⟨hpos, hq, hw⟩
  have := hlost hq
  rw [hw, card_empty, Nat.cast_zero] at this
  omega

/-- Every state of a run is safe exactly if no `V` of the run finds the greatest `int`. -/
theorem semaphore_safe_iff {k : ℤ} (hk : 0 ≤ k) (hmax : k ≤ intMax) (es : List (SemEvent Tid)) :
    ((machine k).observe seen).Visits (fun p => Safe k p.1 p.2) (start k, []) es ↔
      ((machine k).observe seen).Meets (fun p e => p.1.CountsUp e) (start k, []) es := by
  apply @Machine.visits_iff_meets _ _ _ _ (fun _ _ => True) (fun p => Inv k p.1 p.2)
  · exact fun p hi => hi.safe
  · intro p e p' hi _ hup hs
    obtain ⟨hstep, hseen⟩ := Machine.observe_step.mp hs
    rw [hseen]
    exact inv_step hi hup hstep
  · intro p e p' hi hup hs hsafe
    exact (value_neg_of_step hi hup (Machine.observe_step.mp hs).1).not_ge hsafe.nonneg
  · exact inv_start hk hmax
  · exact Machine.meets_true _ _

/-- Two threads sleep in `P` and an interrupt handler wakes the first of them. -/
def twoSleepers : List (SemEvent (Fin 2)) := [.p t0, .p t1, .interruptV]

theorem semaphore_safe_iff_two_sleepers :
    ((machine 0).observe seen).Visits (fun p => Safe 0 p.1 p.2) (start 0, []) twoSleepers ∧
      ∃ p, ((machine 0).observe seen).run (start 0, []) twoSleepers = some p ∧
        p.1.sem.queue = [t1] ∧ p.1.sem.value = 1 ∧ p.1.woken = {t0} :=
  ⟨(semaphore_safe_iff le_rfl (by decide) twoSleepers).mpr (by decide),
    _, rfl, rfl, rfl, by decide⟩

/-- One `V` on a semaphore that was built with the greatest `int`. -/
theorem semaphore_overflows :
    ¬ ((machine intMax).observe seen).Visits (fun p => Safe intMax p.1 p.2)
      ((start intMax, []) : SemState (Fin 2) × List SemSeen) [.v t0] := by
  intro hv
  have hneg := (hv.2 _ rfl).nonneg
  revert hneg
  decide

end SemState
end Coursework.Nachos
