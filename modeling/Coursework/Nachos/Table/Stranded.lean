import Coursework.Nachos.Table.Exclusive
import Coursework.Nachos.Monitor.Wakeup

/-!
# When a `Table` strands no releaser

All callers of `Release` wait on one condition, each for its own slot, and `Alloc` signals
once. The thread that is woken may find its slot still empty and wait again, or clear its
slot and leave; neither signals. If in a run this never uses up the last wakeup
while the slot of another waiter is full, no releaser is stranded.
-/
namespace Coursework.Nachos.Table
open Monitor

variable {Obj Tid : Type} [DecidableEq Tid] [Fintype Tid]
  {s : State Tid Cond (Loc Obj) (Table Obj)} {u : Tid} {n : ℕ}

/-- The slot that a caller of `Release` waits for is full. -/
def ready (t : Table Obj) : Loc Obj → Bool
  | .releasing index => t.isFull index
  | _ => false

/-- The wakeups of `tableEmpty` that a thread accounts for. -/
def Loc.wakes : Loc Obj → ℕ
  | .releasing _ | .clearing _ | .cleared _ | .stored _ _ | .crashed => 1
  | _ => 0

def Loc.isOutside : Loc Obj → Bool
  | .outside _ => true
  | _ => false

/-- At most one wakeup is left, and somebody waits whose slot is full. -/
def LastWanted (s : State Tid Cond (Loc Obj) (Table Obj)) : Prop :=
  s.wakeups .tableEmpty Loc.wakes ≤ 1 ∧ s.Wanted .tableEmpty ready s.data

instance (s : State Tid Cond (Loc Obj) (Table Obj)) : Decidable (LastWanted s) :=
  inferInstanceAs (Decidable (_ ∧ _))

/-- A caller of `Release` that is about to wait again, or has cleared its slot and is about
to leave, has not the last wakeup while the slot of another waiter is full. -/
def KeepsWakeups (s : State Tid Cond (Loc Obj) (Table Obj)) (e : Event Tid (Input Obj)) : Prop :=
  match (s.thread e.tid).pc with
  | .client (.releasing index) => s.data.slot index = some none → ¬ LastWanted s
  | .client (.cleared _) => ¬ LastWanted s
  | _ => True

instance [DecidableEq Obj] (s : State Tid Cond (Loc Obj) (Table Obj))
    (e : Event Tid (Input Obj)) : Decidable (KeepsWakeups s e) := by
  unfold KeepsWakeups
  split <;> infer_instance

/-! ### What the code does for its waiters -/

variable {t t' : Table Obj} {k k' : Loc Obj} {i : Input Obj} {x : Call Cond} {c : Cond}
  {e : Event Tid (Input Obj)} {index : ℤ} {object : Option Obj}

/-- What a step means for the waiters: it keeps its wakeup and fills no slot without one,
it waits for an empty slot, or it ends a `Release`. -/
inductive Gives (t : Table Obj) : Loc Obj → Call Cond → Loc Obj → Table Obj → Prop where
  | keeps {k : Loc Obj} {x : Call Cond} {k' : Loc Obj} {t' : Table Obj}
      (hwait : ∀ c, x ≠ .wait c) (hw : k.wakes ≤ x.credit .tableEmpty Loc.wakes k')
      (hready : x.credit .tableEmpty Loc.wakes k' = 0 → ready t' = ready t) : Gives t k x k' t'
  | waits {index : ℤ} (h : t.slot index = some none) :
      Gives t (.releasing index) (.wait .tableEmpty) (.releasing index) t
  | ends {index : ℤ} {k' : Loc Obj} {t' : Table Obj} (hready : ready t' = ready t) :
      Gives t (.cleared index) .pause k' t'

theorem gives (h : code k t i = some (x, k', t')) : Gives t k x k' t' := by
  unfold code at h
  split at h
  case h_1 | h_2 | h_3 | h_11 =>
    cases h
    exact .keeps (by simp) (by simp [Loc.wakes, Call.credit]) fun _ => rfl
  case h_4 =>
    split_ifs at h <;> cases h <;>
      exact .keeps (by simp) (by simp [Loc.wakes, Call.credit]) fun _ => rfl
  case h_5 =>
    split_ifs at h
    · cases h
      exact .keeps (by simp) (by simp [Loc.wakes, Call.credit]) fun _ => rfl
    · split at h <;> cases h <;>
        exact .keeps (by simp) (by simp [Loc.wakes, Call.credit]) (by simp [Loc.wakes, Call.credit])
  case h_6 =>
    split at h <;> cases h <;>
      exact .keeps (by simp) (by simp [Loc.wakes, Call.credit]) (by simp [Loc.wakes, Call.credit])
  case h_7 index =>
    split at h <;> cases h
    case h_1 hslot => exact .waits hslot
    case h_2 | h_3 => exact .keeps (by simp) (by simp [Loc.wakes, Call.credit]) fun _ => rfl
  case h_8 =>
    split at h <;> cases h <;>
      exact .keeps (by simp) (by simp [Loc.wakes, Call.credit]) (by simp [Loc.wakes, Call.credit])
  case h_9 =>
    split at h <;> cases h <;> exact .ends rfl
  case h_10 =>
    split_ifs at h
    · cases h
      exact .keeps (by simp) (by simp [Loc.wakes, Call.credit]) fun _ => rfl
    · split at h <;> cases h <;>
        exact .keeps (by simp) (by simp [Loc.wakes, Call.credit]) fun _ => rfl
  case h_12 => cases h

theorem waitsFor : WaitsFor (@code Obj) ready .tableEmpty Loc.wakes := by
  intro k t i x k' t' hcode
  cases gives hcode with
  | keeps hwait hw hready =>
    refine ⟨fun hx => absurd hx (hwait _), ?_⟩
    by_cases hcredit : x.credit .tableEmpty Loc.wakes k' = 0
    · exact .inr (.inr fun l hl => by rwa [hready hcredit] at hl)
    · exact .inr (.inl (by omega))
  | waits h => exact ⟨fun _ => ⟨by simp [ready, isFull, h], le_rfl⟩, .inl le_rfl⟩
  | ends => exact ⟨by simp, .inl le_rfl⟩

omit [DecidableEq Tid] in
theorem KeepsWakeups.keepsWakeup (h : KeepsWakeups s e) :
    s.KeepsWakeup code ready .tableEmpty Loc.wakes e := by
  intro k x k' t' hpc hcode hk hcredit hlast hwant
  rw [KeepsWakeups, hpc] at h
  cases gives hcode with
  | keeps hwait hw => omega
  | waits hslot => exact h hslot ⟨hlast, hwant⟩
  | ends hready => exact h ⟨hlast, by rwa [State.Wanted, ← hready]⟩

/-! ### Every run -/

/-- Thread 1 waits to release slot 1, and is woken when thread 0 has filled slot 0. -/
def releaseOneAllocZero : List (Event (Fin 2) (Input ℕ)) :=
  ⟨t1, .release 1⟩ :: List.replicate 5 ⟨t1, .go⟩ ++
    ⟨t0, .alloc (some 7)⟩ :: List.replicate 9 ⟨t0, .go⟩ ++ List.replicate 7 ⟨t1, .go⟩

/-- The parties of a run that strands a releaser. -/
inductive Party where
  | one
  | zero
  | allocator
  deriving DecidableEq

instance : Fintype Party := ⟨{.one, .zero, .allocator}, fun p => by cases p <;> decide⟩

/-- Two threads wait to release slot 1 and then slot 0, slot 0 is filled, and the wakeup goes
to the first of them, which waits again. -/
def waitWaitAlloc : List (Event Party (Input ℕ)) :=
  ⟨.one, .release 1⟩ :: List.replicate 5 ⟨.one, .go⟩ ++
    ⟨.zero, .release 0⟩ :: List.replicate 5 ⟨.zero, .go⟩ ++
    ⟨.allocator, .alloc (some 7)⟩ :: List.replicate 9 ⟨.allocator, .go⟩ ++
    List.replicate 7 ⟨.one, .go⟩

end Coursework.Nachos.Table
