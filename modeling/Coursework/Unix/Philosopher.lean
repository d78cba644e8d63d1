import Coursework.Lib.Machine
import Coursework.Lib.Waiting
import Mathlib.Order.Basic
import Mathlib.Data.Nat.Notation
import Mathlib.Logic.Function.Basic
import Mathlib.Logic.ExistsUnique
import Mathlib.Tactic.SplitIfs

/-!
# The philosophers of `philosopher.c`

A fork is a file: `lock` creates it, and tries again when it is there, and `unlock` deletes it.
`main` deletes what was left of an earlier dinner and then forks the philosophers. All of them,
the last one too, lock the fork with the greater number first.
-/
namespace Coursework.Unix

/-- Where a philosopher is in its loop; the calls of `lock` and `unlock` are those of `takefork`
and `putfork` in their order. -/
inductive Place where
  | thinking
  | lockFirst
  | lockSecond
  | eating
  | unlockFirst
  | unlockSecond
  deriving DecidableEq

/-- The loop of `initlock`, the loop of forks, and the loop of waits. -/
inductive Main where
  | initlock (i : ℕ)
  | fork (i : ℕ)
  | wait
  deriving DecidableEq

/-- The files, and the processes. `holds` is a record: the forks that each philosopher has locked
and not unlocked since. -/
structure Dinner where
  file : ℕ → Bool
  main : Main
  philosopher : ℕ → Option Place
  holds : ℕ → ℕ → Bool

namespace Dinner

inductive Event where
  | main
  | philosopher (i : ℕ)

/-- The forks that `takefork(i)` locks and `putfork(i)` unlocks, of `n`. -/
def first (n i : ℕ) : ℕ := if i = n - 1 then n - 1 else i + 1

def second (n i : ℕ) : ℕ := if i = n - 1 then 0 else i

/-- Philosopher `i` goes on at `p`. -/
def goto (s : Dinner) (i : ℕ) (p : Place) : Dinner :=
  { s with philosopher := Function.update s.philosopher i (some p) }

def record (s : Dinner) (i k : ℕ) (b : Bool) : Dinner :=
  { s with holds := Function.update s.holds i (Function.update (s.holds i) k b) }

/-- One round of the loop in `lock`: `open` with `O_CREAT|O_EXCL` fails on a file that exists. -/
def lock (s : Dinner) (i k : ℕ) (p : Place) : Dinner :=
  if s.file k then s
  else ({ s with file := Function.update s.file k true }.record i k true).goto i p

def unlock (s : Dinner) (i k : ℕ) (p : Place) : Dinner :=
  ({ s with file := Function.update s.file k false }.record i k false).goto i p

def step (n : ℕ) (s : Dinner) : Event → Option Dinner
  | .main =>
    match s.main with
    | .initlock i =>
      some (if i < n then { s with file := Function.update s.file i false, main := .initlock (i + 1) }
        else { s with main := .fork 0 })
    | .fork i => some (if i < n then { s.goto i .thinking with main := .fork (i + 1) }
        else { s with main := .wait })
    | .wait => none
  | .philosopher i => (s.philosopher i).map fun
    | .thinking => s.goto i .lockFirst
    | .lockFirst => s.lock i (first n i) .lockSecond
    | .lockSecond => s.lock i (second n i) .eating
    | .eating => s.goto i .unlockFirst
    | .unlockFirst => s.unlock i (first n i) .unlockSecond
    | .unlockSecond => s.unlock i (second n i) .thinking

/-- Any files may be there when the program starts. -/
def machine (n : ℕ) : Machine Dinner Event where
  init s := s.main = .initlock 0 ∧ (∀ i, s.philosopher i = none) ∧ ∀ i k, s.holds i k = false
  step := step n

/-- `initlock` has deleted the file of fork `k`. -/
def Cleared (s : Dinner) (k : ℕ) : Prop := ∀ i, s.main = .initlock i → k < i

/-- `initlock` has returned. -/
def Laid (s : Dinner) : Prop := ∀ i, s.main ≠ .initlock i

/-- Philosopher `i` is in the loop of `lock`, and the file of fork `k` is there. -/
def Retries (n : ℕ) (s : Dinner) (i k : ℕ) : Prop :=
  (s.philosopher i = some .lockFirst ∧ k = first n i ∨
    s.philosopher i = some .lockSecond ∧ k = second n i) ∧ s.file k = true

/-- Philosopher `i` is about to delete the file of fork `k`. -/
def Unlinks (n : ℕ) (s : Dinner) (i k : ℕ) : Prop :=
  s.philosopher i = some .unlockFirst ∧ k = first n i ∨
    s.philosopher i = some .unlockSecond ∧ k = second n i

/-- The forks that are held at a place. -/
def held (n i : ℕ) : Place → List ℕ
  | .thinking | .lockFirst => []
  | .lockSecond => [first n i]
  | .eating | .unlockFirst => [first n i, second n i]
  | .unlockSecond => [second n i]

structure Inv (n : ℕ) (s : Dinner) : Prop where
  unborn : ∀ j, s.main = .initlock j → ∀ i, s.philosopher i = none
  forked : ∀ j, s.main = .fork j → ∀ i, s.philosopher i ≠ none ↔ i < j
  all : s.main = .wait → ∀ i < n, s.philosopher i ≠ none
  lt : ∀ i, s.philosopher i ≠ none → i < n
  holds : ∀ i k, s.holds i k = true ↔ ∃ p, s.philosopher i = some p ∧ k ∈ held n i p
  file : ∀ k < n, s.Cleared k → (s.file k = true ↔ ∃ i, s.holds i k = true)
  alone : ∀ i j k, s.holds i k = true → s.holds j k = true → i = j

variable {n i j k : ℕ} {s s' : Dinner} {e : Event} {p q : Place}

theorem first_lt (h : i < n) : first n i < n := by
  unfold first
  split_ifs <;> omega

theorem second_lt (h : i < n) : second n i < n := by
  unfold second
  split_ifs <;> omega

/-- The second fork has the smaller number. -/
theorem second_lt_first (hn : 2 ≤ n) : second n i < first n i := by
  unfold first second
  split_ifs <;> omega

/-- Neighbours share a fork. -/
theorem shared_fork (hi : i < n) : ((i + 1) % n = first n i ∨ (i + 1) % n = second n i) ∧
    ((i + 1) % n = first n ((i + 1) % n) ∨ (i + 1) % n = second n ((i + 1) % n)) := by
  have hmod : (i + 1) % n = if i = n - 1 then 0 else i + 1 := by
    split_ifs with h
    · rw [show i + 1 = n by omega, Nat.mod_self]
    · exact Nat.mod_eq_of_lt (by omega)
  unfold first second
  rw [hmod]
  split_ifs <;> omega

/-! ### What the steps keep -/

@[simp] theorem goto_philosopher (s : Dinner) (i : ℕ) (p : Place) :
    (s.goto i p).philosopher = Function.update s.philosopher i (some p) := rfl

@[simp] theorem goto_main (s : Dinner) (i : ℕ) (p : Place) : (s.goto i p).main = s.main := rfl

@[simp] theorem goto_file (s : Dinner) (i : ℕ) (p : Place) : (s.goto i p).file = s.file := rfl

@[simp] theorem goto_holds (s : Dinner) (i : ℕ) (p : Place) : (s.goto i p).holds = s.holds := rfl

@[simp] theorem record_philosopher (s : Dinner) (i k : ℕ) (b : Bool) :
    (s.record i k b).philosopher = s.philosopher := rfl

@[simp] theorem record_main (s : Dinner) (i k : ℕ) (b : Bool) :
    (s.record i k b).main = s.main := rfl

@[simp] theorem record_file (s : Dinner) (i k : ℕ) (b : Bool) :
    (s.record i k b).file = s.file := rfl

@[simp] theorem record_holds (s : Dinner) (i k : ℕ) (b : Bool) (j l : ℕ) :
    (s.record i k b).holds j l = if j = i ∧ l = k then b else s.holds j l := by
  by_cases hj : j = i
  · subst hj
    by_cases hl : l = k <;> simp [record, hl]
  · simp [record, hj]

/-- The turn of a philosopher: it goes on with the forks that it has, fails to lock a fork, locks
one that nobody has, or unlocks one of its own. -/
theorem turn_cases (hn : 2 ≤ n) (h : step n s (.philosopher i) = some s') :
    ∃ p, s.philosopher i = some p ∧
      ((∃ q, held n i q = held n i p ∧ s' = s.goto i q) ∨
      ((∃ k, s.Retries n i k) ∧ s' = s) ∨
      (∃ q k, (i < n → k < n) ∧ s.file k = false ∧
        (∀ l, l ∈ held n i q ↔ l ∈ held n i p ∨ l = k) ∧ s' = s.lock i k q) ∨
      ∃ q k, k ∈ held n i p ∧ (∀ l, l ∈ held n i q ↔ l ∈ held n i p ∧ l ≠ k) ∧
        s' = s.unlock i k q) := by
  obtain ⟨p, hp, rfl⟩ := Option.map_eq_some_iff.mp h
  have hne : second n i ≠ first n i := (second_lt_first hn).ne
  refine ⟨p, hp, ?_⟩
  cases p with
  | thinking => exact .inl ⟨.lockFirst, rfl, rfl⟩
  | lockFirst =>
    right
    by_cases hfile : s.file (first n i) = true
    · left
      exact ⟨⟨first n i, .inl ⟨hp, rfl⟩, hfile⟩, if_pos hfile⟩
    · right; left
      refine ⟨.lockSecond, first n i, first_lt, by simpa using hfile, ?_, rfl⟩
      simp [held]
  | lockSecond =>
    right
    by_cases hfile : s.file (second n i) = true
    · left
      exact ⟨⟨second n i, .inr ⟨hp, rfl⟩, hfile⟩, if_pos hfile⟩
    · right; left
      refine ⟨.eating, second n i, second_lt, by simpa using hfile, ?_, rfl⟩
      simp [held]
  | eating => exact .inl ⟨.unlockFirst, rfl, rfl⟩
  | unlockFirst =>
    right; right; right
    refine ⟨.unlockSecond, first n i, by simp [held], fun l => ?_, rfl⟩
    simp only [held, List.mem_cons, List.not_mem_nil, or_false]
    constructor
    · rintro rfl
      exact ⟨.inr rfl, hne⟩
    · rintro ⟨hl, hlk⟩
      exact hl.resolve_left hlk
  | unlockSecond =>
    right; right; right
    refine ⟨.thinking, second n i, by simp [held], fun l => ?_, rfl⟩
    simp [held]

namespace Inv

theorem laid (hi : Inv n s) (hp : s.philosopher i ≠ none) : s.Laid :=
  fun j hj => hp (hi.unborn j hj i)

/-- A philosopher goes on, and the files and the record are those of its new place. -/
theorem move (hi : Inv n s) (hp : s.philosopher i = some p)
    (hphil : s'.philosopher = Function.update s.philosopher i (some q)) (hmain : s'.main = s.main)
    (hholds : ∀ k, s'.holds i k = true ↔ k ∈ held n i q)
    (hother : ∀ j k, j ≠ i → s'.holds j k = s.holds j k)
    (hfile : ∀ k < n, s'.file k = true ↔ ∃ j, s'.holds j k = true)
    (halone : ∀ j k, j ≠ i → s'.holds i k = true → s.holds j k = false) : Inv n s' := by
  have hsome : s.philosopher i ≠ none := by simp [hp]
  have hphil' (j : ℕ) : s'.philosopher j ≠ none ↔ s.philosopher j ≠ none := by
    by_cases hj : j = i
    · simp [hphil, hj, hsome]
    · simp [hphil, hj]
  constructor
  · intro j hj
    exact absurd (hmain ▸ hj) (hi.laid hsome j)
  · intro j hj k
    exact (hphil' k).trans (hi.forked j (hmain ▸ hj) k)
  · intro hwait k hk
    exact (hphil' k).mpr (hi.all (hmain ▸ hwait) k hk)
  · exact fun j hj => hi.lt j ((hphil' j).mp hj)
  · intro j k
    by_cases hj : j = i
    · subst hj
      simp [hphil, hholds]
    · rw [hother j k hj, hi.holds, hphil, Function.update_of_ne hj]
  · exact fun k hk _ => hfile k hk
  · intro j l k hj hl
    by_cases hji : j = i
    · by_cases hli : l = i
      · rw [hji, hli]
      · rw [hother l k hli, halone l k hli (hji ▸ hj)] at hl
        cases hl
    · by_cases hli : l = i
      · rw [hother j k hji, halone j k hji (hli ▸ hl)] at hj
        cases hj
      · rw [hother j k hji] at hj
        rw [hother l k hli] at hl
        exact hi.alone j l k hj hl

theorem holds_eq (hi : Inv n s) (hp : s.philosopher i = some p) :
    s.holds i k = true ↔ k ∈ held n i p := by
  rw [hi.holds, hp]
  simp

theorem file_eq (hi : Inv n s) (hlaid : s.Laid) (hk : k < n) :
    s.file k = true ↔ ∃ i, s.holds i k = true :=
  hi.file k hk fun i h => absurd h (hlaid i)

theorem not_holds (hi : Inv n s) (hk : s.holds i k = true) (hj : j ≠ i) : s.holds j k = false := by
  by_contra h
  exact hj (hi.alone j i k (by simpa using h) hk)

theorem turn (hn : 2 ≤ n) (hi : Inv n s) (h : step n s (.philosopher i) = some s') :
    Inv n s' := by
  obtain ⟨p, hp, hcases⟩ := turn_cases hn h
  have hlaid : s.Laid := hi.laid (i := i) (by simp [hp])
  have hlt : i < n := hi.lt i (by simp [hp])
  rcases hcases with ⟨q, hq, rfl⟩ | ⟨-, rfl⟩ | ⟨q, k, hkn, hfile, hheld, rfl⟩ | ⟨q, k, hk, hheld, rfl⟩
  · refine hi.move hp rfl rfl (fun k => ?_) (fun _ _ _ => rfl) (fun k hk => hi.file_eq hlaid hk)
      fun j k hj hk => hi.not_holds hk hj
    rw [goto_holds, hi.holds_eq hp, hq]
  · exact hi
  · -- the file was not there, so nobody held the fork
    have hnone (j : ℕ) : s.holds j k = false := by
      by_contra hj
      rw [(hi.file_eq hlaid (hkn hlt)).mpr ⟨j, by simpa using hj⟩] at hfile
      cases hfile
    rw [lock, hfile, if_neg Bool.false_ne_true]
    refine hi.move hp rfl rfl (fun l => ?_) (fun j l hj => ?_) (fun l hl => ?_) fun j l hj hl => ?_
    · rw [goto_holds, record_holds, hheld, ← hi.holds_eq hp]
      by_cases hlk : l = k <;> simp [hlk]
    · simp [hj]
    · by_cases hlk : l = k
      · subst hlk
        simp only [goto_file, record_file, Function.update_self, true_iff]
        exact ⟨i, by simp⟩
      · simp [hlk, hi.file_eq hlaid hl]
    · by_cases hlk : l = k
      · rw [hlk]
        exact hnone j
      · refine hi.not_holds (i := i) ?_ hj
        simpa [hlk] using hl
  · have hkn : s.holds i k = true := (hi.holds_eq hp).mpr hk
    rw [unlock]
    refine hi.move hp rfl rfl (fun l => ?_) (fun j l hj => ?_) (fun l hl => ?_) fun j l hj hl => ?_
    · rw [goto_holds, record_holds, hheld, ← hi.holds_eq hp]
      by_cases hlk : l = k <;> simp [hlk]
    · simp [hj]
    · by_cases hlk : l = k
      · subst hlk
        simp only [goto_file, record_file, Function.update_self, Bool.false_eq_true, false_iff,
          goto_holds, record_holds]
        rintro ⟨j, hj⟩
        by_cases hji : j = i
        · simp [hji] at hj
        · simp [hji, hi.not_holds hkn hji] at hj
      · simp [hlk, hi.file_eq hlaid hl]
    · by_cases hlk : l = k
      · simp [hlk] at hl
      · refine hi.not_holds (i := i) ?_ hj
        simpa [hlk] using hl

/-- The steps of the parent keep what is known: it deletes files, forks, or waits. -/
theorem parent (hi : Inv n s) (h : step n s .main = some s') : Inv n s' := by
  rw [step] at h
  cases hm : s.main with
  | initlock j =>
    have hnone := hi.unborn j hm
    have hholds (i k : ℕ) : s.holds i k = false := by
      have hiff := hi.holds i k
      rw [hnone i] at hiff
      simpa using hiff
    have hcleared (k : ℕ) (hk : k < n) (hkj : k < j) : s.file k = false := by
      have hiff := hi.file k hk fun i h => by
        cases hm.symm.trans h
        exact hkj
      simpa [hholds] using hiff
    simp only [hm, Option.some.injEq] at h
    subst h
    split_ifs with hj
    · refine ⟨fun _ _ => hnone, nofun, nofun, hi.lt, hi.holds, fun k hk hkj => ?_, hi.alone⟩
      have hlt := hkj (j + 1) rfl
      by_cases hkj : k = j
      · simp [hkj, hholds]
      · simp [Function.update_of_ne hkj, hholds, hcleared k hk (by omega)]
    · refine ⟨nofun, fun i h k => ?_, nofun, hi.lt, hi.holds, fun k hk _ => ?_, hi.alone⟩
      · cases h
        simp [hnone]
      · simp [hholds, hcleared k hk (by omega)]
  | fork j =>
    simp only [hm, Option.some.injEq] at h
    subst h
    have hfile (k : ℕ) (hk : k < n) := hi.file_eq (fun i h => by cases hm.symm.trans h) hk
    split_ifs with hj
    · have hnone : s.philosopher j = none := by
        by_contra h
        exact absurd ((hi.forked j hm j).mp h) (lt_irrefl j)
      refine ⟨nofun, fun i h k => ?_, nofun, fun k hk => ?_, fun i k => ?_, fun k hk _ => hfile k hk,
        hi.alone⟩
      · cases h
        by_cases hkj : k = j
        · simp [hkj]
        · simp only [goto_philosopher, Function.update_of_ne hkj, hi.forked j hm k]
          omega
      · by_cases hkj : k = j
        · rwa [hkj]
        · simp only [goto_philosopher, Function.update_of_ne hkj] at hk
          exact hi.lt k hk
      · by_cases hij : i = j
        · simp [hij, hi.holds, hnone, held]
        · simp [hij, hi.holds]
    · refine ⟨nofun, nofun, fun _ i hin => ?_, hi.lt, hi.holds, fun k hk _ => hfile k hk, hi.alone⟩
      exact (hi.forked j hm i).mpr (by omega)
  | wait =>
    simp [hm] at h

end Inv

theorem inv_reach (hn : 2 ≤ n) (hr : (machine n).Reachable s) : Inv n s := by
  apply hr.invariant
  · rintro s ⟨hmain, hnone, hholds⟩
    refine ⟨fun _ _ => hnone, fun j hj => ?_, fun hw => ?_, fun i h => ?_, fun i k => ?_,
      fun k hk hc => ?_, fun i j k h => ?_⟩
    · cases hmain.symm.trans hj
    · cases hmain.symm.trans hw
    · exact absurd (hnone i) h
    · simp [hholds, hnone]
    · exact absurd (hc 0 hmain) (Nat.not_lt_zero k)
    · simp [hholds] at h
  · intro s e s' _ hi _ hs
    cases e with
    | main => exact hi.parent hs
    | philosopher i => exact hi.turn hn hs

/-! ### The dinner is safe -/

/-- Whoever is in the loop of `lock` holds no fork below the one that it wants. -/
theorem takenInOrder (hn : 2 ≤ n) (hi : Inv n s) :
    TakenInOrder (· < ·) (s.Retries n) fun i k => s.holds i k = true := by
  rintro i k l ⟨hwants, -⟩ hl
  rcases hwants with ⟨hp, rfl⟩ | ⟨hp, rfl⟩
  · rw [hi.holds_eq hp] at hl
    simp [held] at hl
  · rw [hi.holds_eq hp] at hl
    simp only [held, List.mem_singleton] at hl
    rw [hl]
    exact second_lt_first hn

theorem Inv.unlinks (hi : Inv n s) (h : s.Unlinks n i k) : s.holds i k = true := by
  rcases h with ⟨hp, rfl⟩ | ⟨hp, rfl⟩ <;> simp [hi.holds_eq hp, held]

theorem Inv.not_both_eating (hi : Inv n s) (hn : 2 ≤ n) (hin : i < n) :
    ¬ (s.philosopher i = some .eating ∧ s.philosopher ((i + 1) % n) = some .eating) := by
  rintro ⟨hp, hq⟩
  have hne : (i + 1) % n ≠ i := by
    by_cases hlast : i + 1 = n
    · rw [hlast, Nat.mod_self]
      omega
    · rw [Nat.mod_eq_of_lt (by omega)]
      omega
  have hheld (j k : ℕ) (hj : s.philosopher j = some .eating)
      (hk : k = first n j ∨ k = second n j) : s.holds j k = true := by
    simpa [hi.holds_eq hj, held] using hk
  obtain ⟨hmine, hother⟩ := shared_fork hin
  exact hne (hi.alone _ _ _ (hheld _ _ hq hother) (hheld _ _ hp hmine))

/-- Some process can do something else than try again. -/
theorem Inv.progress (hi : Inv n s) (hn : 2 ≤ n) :
    ∃ e s', step n s e = some s' ∧ ∀ i k, e = .philosopher i → ¬ s.Retries n i k := by
  by_cases hwait : s.main = .wait
  · obtain ⟨i, hin, hfree⟩ := (takenInOrder hn hi).exists_not_held_up (S := {i | i < n}) wellFounded_lt
      ⟨0, by simp; omega⟩
    obtain ⟨p, hp⟩ := Option.ne_none_iff_exists'.mp (hi.all hwait i hin)
    refine ⟨.philosopher i, _, by rw [step, hp, Option.map_some], ?_⟩
    rintro j k ⟨⟩ hretries
    have hk : k < n := by
      rcases hretries.1 with ⟨-, rfl⟩ | ⟨-, rfl⟩
      · exact first_lt hin
      · exact second_lt hin
    have hlaid : s.Laid := fun j h => by cases hwait.symm.trans h
    obtain ⟨q, hq⟩ := (hi.file_eq hlaid hk).mp hretries.2
    have hqn : q < n := by
      apply hi.lt
      intro hnone
      obtain ⟨_, hsome, -⟩ := (hi.holds q k).mp hq
      cases hnone.symm.trans hsome
    exact hfree k hretries q hqn hq
  · have hstep : ∃ s', step n s .main = some s' := by
      rw [step]
      cases hm : s.main with
      | initlock j => exact ⟨_, rfl⟩
      | fork j => exact ⟨_, rfl⟩
      | wait => exact absurd hm hwait
    obtain ⟨s', hs'⟩ := hstep
    exact ⟨.main, s', hs', nofun⟩

/-- After `initlock` a file exists exactly when one philosopher holds the fork; neighbours do not
eat at the same time, only forks that are held are unlocked, nobody waits in a circle, and some
process always has something to do. -/
theorem philosophers_dine (hn : 2 ≤ n) (hr : (machine n).Reachable s) :
    (s.Laid → ∀ k < n, s.file k = true ↔ ∃! i, s.holds i k = true) ∧
    (∀ i < n, ¬ (s.philosopher i = some .eating ∧ s.philosopher ((i + 1) % n) = some .eating)) ∧
    (∀ i k, s.Unlinks n i k → s.holds i k = true) ∧
    (∀ S, ¬ CircularWait (s.Retries n) (fun i k => s.holds i k = true) S) ∧
    ∃ e s', step n s e = some s' ∧ ∀ i k, e = .philosopher i → ¬ s.Retries n i k := by
  have hi := inv_reach hn hr
  refine ⟨fun hlaid k hk => ?_, fun i hin => hi.not_both_eating hn hin, fun i k => hi.unlinks,
    fun S => (takenInOrder hn hi).not_circularWait wellFounded_lt, hi.progress hn⟩
  rw [hi.file_eq hlaid hk]
  constructor
  · rintro ⟨i, h⟩
    exact ⟨i, h, fun j hj => hi.alone j i k hj h⟩
  · exact fun h => h.exists

/-- A table with a fork of an earlier dinner on it. -/
def stale : Dinner := ⟨fun k => k = 1, .initlock 0, fun _ => none, fun _ _ => false⟩

/-- Of two philosophers the first eats while the other one tries. -/
def turns : List Event :=
  [.main, .main, .main, .main, .main, .philosopher 0, .philosopher 1, .philosopher 0,
    .philosopher 1, .philosopher 0]

theorem philosophers_dine_two : ∃ s, (machine 2).run stale turns = some s ∧
    s.philosopher 0 = some .eating ∧ s.Retries 2 1 1 ∧ s.Laid ∧
    ∀ k < 2, s.file k = true ↔ ∃! i, s.holds i k = true := by
  have hlaid : ∀ s, (machine 2).run stale turns = some s → s.Laid := by
    intro s hs j hj
    cases hs
    cases hj
  have hrun : ∃ s, (machine 2).run stale turns = some s ∧ s.philosopher 0 = some .eating ∧
      s.Retries 2 1 1 := ⟨_, rfl, rfl, .inl ⟨rfl, rfl⟩, rfl⟩
  obtain ⟨s, hs, heats, hretries⟩ := hrun
  have hreach : (machine 2).Reachable s :=
    Machine.Reachable.run turns (.init ⟨rfl, fun _ => rfl, fun _ _ => rfl⟩) hs
  exact ⟨s, hs, heats, hretries, hlaid s hs, (philosophers_dine le_rfl hreach).1 (hlaid s hs)⟩

end Dinner
end Coursework.Unix
