import Mathlib.Data.Finset.Card
import Mathlib.Data.Finset.SDiff

/-!
# What a condition variable is for

The abstract condition variable keeps the set of waiting threads and the set of
threads that have been granted a wakeup. A signal grants one waiting thread of its
own choice, or nothing when nobody waits; only a granted thread returns. A history
of releases, signals and returns has the stated meaning when some choices of
the signals explain it.
-/
namespace Coursework.WaitSet
open Finset

variable {ι : Type*} [DecidableEq ι]

inductive Seen (ι : Type*) where
  /-- A thread has released the lock and waits. -/
  | released (t : ι)
  | signal
  /-- A thread uses a wakeup to return. -/
  | woke (t : ι)
  deriving DecidableEq

structure State (ι : Type*) where
  waiting : Finset ι
  granted : Finset ι

inductive Step : State ι → Seen ι → State ι → Prop where
  | released {W G : Finset ι} {t : ι} (hW : t ∉ W) (hG : t ∉ G) :
      Step ⟨W, G⟩ (.released t) ⟨insert t W, G⟩
  | grant {W G : Finset ι} {t : ι} (ht : t ∈ W) : Step ⟨W, G⟩ .signal ⟨W.erase t, insert t G⟩
  | nobody {W G : Finset ι} (hW : W = ∅) : Step ⟨W, G⟩ .signal ⟨W, G⟩
  | woke {W G : Finset ι} {t : ι} (ht : t ∈ G) : Step ⟨W, G⟩ (.woke t) ⟨W, G.erase t⟩

/-- The abstract states that explain a history. -/
inductive Explains : List (Seen ι) → State ι → Prop where
  | nil : Explains [] ⟨∅, ∅⟩
  | snoc {h : List (Seen ι)} {x : Seen ι} {a b : State ι} (ha : Explains h a) (hx : Step a x b) :
      Explains (h ++ [x]) b

/-- Some choices of the signals explain the history. -/
def Meaningful (h : List (Seen ι)) : Prop := ∃ a, Explains h a

/-- The last step of an explained history. -/
theorem Explains.last {h : List (Seen ι)} {x : Seen ι} {b : State ι} (hb : Explains (h ++ [x]) b) :
    ∃ a, Explains h a ∧ Step a x b := by
  generalize hl : h ++ [x] = l at hb
  cases hb with
  | nil => simp at hl
  | snoc ha hx =>
    obtain ⟨rfl, hx'⟩ := List.append_inj' hl rfl
    cases hx'
    exact ⟨_, ha, hx⟩

/-- A thread that begins to wait and returns with no signal in between has no explanation. -/
theorem not_meaningful_of_no_signal (h : List (Seen ι)) (t : ι) :
    ¬ Meaningful (h ++ [.released t] ++ [.woke t]) := by
  rintro ⟨b, hb⟩
  obtain ⟨a, ha, hwoke⟩ := hb.last
  obtain ⟨a', ha', hrel⟩ := ha.last
  cases hrel with
  | released hW hG =>
    cases hwoke with
    | woke hmem => exact hG hmem

/-- Every choice of `n` granted threads among the threads `T` explains the history. -/
def AnyGrant (h : List (Seen ι)) (T : Finset ι) (n : ℕ) : Prop :=
  ∀ G ⊆ T, G.card = n → Explains h ⟨T \ G, G⟩

theorem AnyGrant.meaningful {h : List (Seen ι)} {T : Finset ι} {n : ℕ} (ha : AnyGrant h T n)
    (hn : n ≤ T.card) : Meaningful h := by
  obtain ⟨G, hG, hcard⟩ := exists_subset_card_eq hn
  exact ⟨_, ha G hG hcard⟩

theorem anyGrant_nil : AnyGrant ([] : List (Seen ι)) ∅ 0 := by
  intro G hG _
  rw [subset_empty.mp hG, sdiff_self]
  exact .nil

theorem AnyGrant.released {h : List (Seen ι)} {T : Finset ι} {t : ι} (ha : AnyGrant h T 0)
    (ht : t ∉ T) : AnyGrant (h ++ [.released t]) (insert t T) 0 := by
  intro G _ hcard
  obtain rfl := card_eq_zero.mp hcard
  have hnone := ha ∅ (empty_subset T) rfl
  rw [sdiff_empty] at hnone ⊢
  exact .snoc hnone (.released ht (notMem_empty t))

theorem AnyGrant.signal {h : List (Seen ι)} {T : Finset ι} {n : ℕ} (ha : AnyGrant h T n) :
    AnyGrant (h ++ [.signal]) T (n + 1) := by
  intro G hG hcard
  obtain ⟨t, ht⟩ := card_pos.mp (by omega : 0 < G.card)
  have hbefore := ha (G.erase t) ((erase_subset t G).trans hG)
    (by rw [card_erase_of_mem ht]; omega)
  have htW : t ∈ T \ G.erase t := mem_sdiff.mpr ⟨hG ht, notMem_erase t G⟩
  have hstep := hbefore.snoc (.grant htW)
  have hset : (T \ G.erase t).erase t = T \ G := by
    rw [← sdiff_insert, insert_erase ht]
  rwa [insert_erase ht, hset] at hstep

theorem AnyGrant.woke {h : List (Seen ι)} {T : Finset ι} {n : ℕ} {t : ι}
    (ha : AnyGrant h T (n + 1)) (ht : t ∈ T) : AnyGrant (h ++ [.woke t]) (T.erase t) n := by
  intro G hG hcard
  have htG : t ∉ G := fun hmem => notMem_erase t T (hG hmem)
  have hbefore := ha (insert t G) (insert_subset ht (hG.trans (erase_subset t T)))
    (by rw [card_insert_of_notMem htG, hcard])
  have hstep := hbefore.snoc (.woke (mem_insert_self t G))
  rwa [erase_insert htG, sdiff_insert, ← erase_sdiff_comm] at hstep

end Coursework.WaitSet
