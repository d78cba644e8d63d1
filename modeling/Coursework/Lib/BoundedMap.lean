import Coursework.Lib.Answers
import Mathlib.Data.Finmap
import Mathlib.Data.Finset.Card
import Mathlib.Data.Finset.Range

/-!
# Finite maps with a capacity, and tables of them

A map of bounded size takes a new key while it has room and does not replace values. It can
be saved and restored. A table of `n` slots represents a map when no key is in two slots; it
is full exactly when the map is.
-/
namespace Coursework

abbrev BoundedMap (K V : Type*) := Finmap fun _ : K => V

namespace BoundedMap
variable {K V : Type*} [DecidableEq K] {n : ℕ}

def add (n : ℕ) (m : BoundedMap K V) (k : K) (v : V) : Bool × BoundedMap K V :=
  if k ∈ m ∨ n ≤ m.keys.card then (false, m) else (true, m.insert k v)

def remove (m : BoundedMap K V) (k : K) : Bool × BoundedMap K V :=
  if k ∈ m then (true, m.erase k) else (false, m)

inductive Op (K V : Type*) where
  | add (k : K) (v : V)
  | remove (k : K)
  | find (k : K)
  | save
  | restore

inductive Result (V : Type*) where
  | bool (b : Bool)
  | value (v : Option V)
  | done

/-- The map, and the map that was saved last. -/
structure State (K V : Type*) where
  map : BoundedMap K V
  saved : Option (BoundedMap K V)

/-- There is nothing to restore until something was saved. -/
def step (n : ℕ) (s : State K V) : Op K V → Option (State K V × Result V)
  | .add k v => some ({ s with map := (add n s.map k v).2 }, .bool (add n s.map k v).1)
  | .remove k => some ({ s with map := (remove s.map k).2 }, .bool (remove s.map k).1)
  | .find k => some (s, .value (s.map.lookup k))
  | .save => some ({ s with saved := some s.map }, .done)
  | .restore => s.saved.map fun m => ({ s with map := m }, .done)

/-- Requests are answered when something is saved before anything is restored. -/
theorem answers_of_saved {s : State K V} {ops : List (Op K V)}
    (h : s.saved = none → ∀ l r, ops = l ++ .restore :: r → .save ∈ l) :
    ∃ t results, answers (step n) s ops = some (t, results) := by
  induction ops generalizing s with
  | nil => exact ⟨s, [], rfl⟩
  | cons op ops ih =>
    have hstep : ∃ u a, step n s op = some (u, a) ∧ (u.saved = none → s.saved = none ∧ op ≠ .save) := by
      cases op with
      | add k v => exact ⟨_, _, rfl, fun hu => ⟨hu, nofun⟩⟩
      | remove k => exact ⟨_, _, rfl, fun hu => ⟨hu, nofun⟩⟩
      | find k => exact ⟨_, _, rfl, fun hu => ⟨hu, nofun⟩⟩
      | save => exact ⟨_, _, rfl, nofun⟩
      | restore =>
        cases hs : s.saved with
        | none => cases h hs [] ops rfl
        | some m =>
          exact ⟨{ s with map := m }, .done, by rw [step, hs]; rfl, fun hu => nomatch hs.symm.trans hu⟩
    obtain ⟨u, a, hu, hnone⟩ := hstep
    obtain ⟨t, results, ht⟩ := ih (s := u) fun hu l r heq => by
      obtain ⟨hs, hop⟩ := hnone hu
      have hmem := h hs (op :: l) r (by rw [heq, List.cons_append])
      exact (List.mem_cons.mp hmem).resolve_left fun heq => hop heq.symm
    exact ⟨t, a :: results, answers_cons_eq_some.mpr ⟨u, a, results, hu, ht, rfl⟩⟩

/-- The table has each key at most once, and the map has what is in the slots. -/
structure Represents (n : ℕ) (slot : ℕ → Option (K × V)) (m : BoundedMap K V) : Prop where
  inj : ∀ i < n, ∀ j < n, ∀ k v w, slot i = some (k, v) → slot j = some (k, w) → i = j
  lookup : ∀ k v, m.lookup k = some v ↔ ∃ i < n, slot i = some (k, v)

namespace Represents
variable {slot slot' : ℕ → Option (K × V)} {m : BoundedMap K V} {i : ℕ} {k : K} {v : V}

theorem empty (h : ∀ i < n, slot i = none) : Represents n slot (∅ : BoundedMap K V) := by
  refine ⟨fun i hi j _ k v w hv => ?_, fun k v => ?_⟩
  · rw [h i hi] at hv
    cases hv
  · rw [Finmap.lookup_empty]
    refine iff_of_false nofun ?_
    rintro ⟨i, hi, hv⟩
    rw [h i hi] at hv
    cases hv

theorem congr (h : Represents n slot m) (heq : ∀ i < n, slot' i = slot i) :
    Represents n slot' m := by
  refine ⟨fun i hi j hj k v w hv hw => ?_, fun k v => ?_⟩
  · rw [heq i hi] at hv
    rw [heq j hj] at hw
    exact h.inj i hi j hj k v w hv hw
  · rw [h.lookup]
    refine exists_congr fun i => and_congr_right fun hi => ?_
    rw [heq i hi]

theorem lookup_of_slot (h : Represents n slot m) (hi : i < n) (hs : slot i = some (k, v)) :
    m.lookup k = some v := (h.lookup k v).mpr ⟨i, hi, hs⟩

theorem mem_of_slot (h : Represents n slot m) (hi : i < n) (hs : slot i = some (k, v)) : k ∈ m :=
  Finmap.mem_of_lookup_eq_some (h.lookup_of_slot hi hs)

theorem not_mem (h : Represents n slot m) (hs : ∀ i < n, ∀ v, slot i ≠ some (k, v)) : k ∉ m := by
  intro hk
  obtain ⟨v, hv⟩ := Finmap.mem_iff.mp hk
  obtain ⟨i, hi, hslot⟩ := (h.lookup k v).mp hv
  exact hs i hi v hslot

/-- As many slots are in use as the map has keys. -/
theorem card_keys (h : Represents n slot m) :
    m.keys.card = ((Finset.range n).filter fun i => (slot i).isSome).card := by
  symm
  apply Finset.card_bij fun i hi => ((slot i).get (Finset.mem_filter.mp hi).2).1
  · intro i hi
    obtain ⟨hn, hsome⟩ := Finset.mem_filter.mp hi
    obtain ⟨⟨k, v⟩, hs⟩ := Option.isSome_iff_exists.mp hsome
    simp only [hs, Option.get_some]
    exact Finmap.mem_keys.mpr (h.mem_of_slot (Finset.mem_range.mp hn) hs)
  · intro i hi j hj heq
    obtain ⟨hn, hsome⟩ := Finset.mem_filter.mp hi
    obtain ⟨hn', hsome'⟩ := Finset.mem_filter.mp hj
    obtain ⟨⟨k, v⟩, hs⟩ := Option.isSome_iff_exists.mp hsome
    obtain ⟨⟨k', v'⟩, hs'⟩ := Option.isSome_iff_exists.mp hsome'
    simp only [hs, hs', Option.get_some] at heq
    subst heq
    exact h.inj i (Finset.mem_range.mp hn) j (Finset.mem_range.mp hn') k v v' hs hs'
  · intro k hk
    obtain ⟨v, hv⟩ := Finmap.mem_iff.mp (Finmap.mem_keys.mp hk)
    obtain ⟨i, hi, hs⟩ := (h.lookup k v).mp hv
    have hsome : (slot i).isSome := by
      rw [hs]
      rfl
    refine ⟨i, Finset.mem_filter.mpr ⟨Finset.mem_range.mpr hi, hsome⟩, ?_⟩
    simp only [hs, Option.get_some]

/-- The map is full when no slot is free. -/
theorem full_iff (h : Represents n slot m) : n ≤ m.keys.card ↔ ∀ i < n, (slot i).isSome := by
  rw [h.card_keys]
  have hcard : (Finset.range n).card = n := Finset.card_range n
  constructor
  · intro hle i hi
    have hall := Finset.eq_of_subset_of_card_le (Finset.filter_subset _ _) (hcard.le.trans hle)
    have hmem := hall.symm.subset (Finset.mem_range.mpr hi)
    exact (Finset.mem_filter.mp hmem).2
  · intro hall
    rw [Finset.filter_true_of_mem fun i hi => hall i (Finset.mem_range.mp hi), hcard]

/-- A free slot is filled. -/
theorem insert (h : Represents n slot m) (hi : i < n) (hfree : slot i = none) (hk : k ∉ m)
    (hnew : slot' i = some (k, v)) (hother : ∀ j < n, j ≠ i → slot' j = slot j) :
    Represents n slot' (m.insert k v) := by
  have hold (j : ℕ) (hj : j < n) (k' : K) (w : V) (hs : slot' j = some (k', w)) :
      j = i ∧ k' = k ∧ w = v ∨ j ≠ i ∧ k' ≠ k ∧ slot j = some (k', w) := by
    by_cases hji : j = i
    · rw [hji, hnew] at hs
      cases hs
      exact .inl ⟨hji, rfl, rfl⟩
    · rw [hother j hj hji] at hs
      refine .inr ⟨hji, ?_, hs⟩
      rintro rfl
      exact hk (h.mem_of_slot hj hs)
  refine ⟨fun j hj l hl k' w w' hs hs' => ?_, fun k' w => ?_⟩
  · rcases hold j hj k' w hs with ⟨rfl, rfl, -⟩ | ⟨-, hne, hs⟩
    · rcases hold l hl k' w' hs' with ⟨rfl, -, -⟩ | ⟨-, hne, -⟩
      · rfl
      · exact absurd rfl hne
    · rcases hold l hl k' w' hs' with ⟨-, heq, -⟩ | ⟨-, -, hs'⟩
      · exact absurd heq hne
      · exact h.inj j hj l hl k' w w' hs hs'
  · by_cases hkk : k' = k
    · subst hkk
      rw [Finmap.lookup_insert]
      constructor
      · intro hw
        cases hw
        exact ⟨i, hi, hnew⟩
      · rintro ⟨j, hj, hs⟩
        rcases hold j hj k' w hs with ⟨-, -, rfl⟩ | ⟨-, hne, -⟩
        · rfl
        · exact absurd rfl hne
    · rw [Finmap.lookup_insert_of_ne _ hkk, h.lookup]
      refine exists_congr fun j => and_congr_right fun hj => ?_
      by_cases hji : j = i
      · rw [hji, hfree, hnew]
        refine iff_of_false nofun fun heq => hkk ?_
        cases heq
        rfl
      · rw [hother j hj hji]

/-- The slot of a key is emptied. -/
theorem erase (h : Represents n slot m) (hi : i < n) (hs : slot i = some (k, v))
    (hfree : slot' i = none) (hother : ∀ j < n, j ≠ i → slot' j = slot j) :
    Represents n slot' (m.erase k) := by
  have hold (j : ℕ) (hj : j < n) (k' : K) (w : V) :
      slot' j = some (k', w) ↔ k' ≠ k ∧ slot j = some (k', w) := by
    by_cases hji : j = i
    · rw [hji, hfree, hs]
      refine iff_of_false nofun ?_
      rintro ⟨hne, heq⟩
      cases heq
      exact hne rfl
    · rw [hother j hj hji]
      refine ⟨fun hw => ⟨?_, hw⟩, And.right⟩
      rintro rfl
      exact hji (h.inj j hj i hi k' w v hw hs)
  refine ⟨fun j hj l hl k' w w' hw hw' => ?_, fun k' w => ?_⟩
  · exact h.inj j hj l hl k' w w' ((hold j hj k' w).mp hw).2 ((hold l hl k' w').mp hw').2
  · by_cases hkk : k' = k
    · subst hkk
      rw [Finmap.lookup_erase]
      refine iff_of_false nofun ?_
      rintro ⟨j, hj, hw⟩
      exact ((hold j hj k' w).mp hw).1 rfl
    · rw [Finmap.lookup_erase_ne hkk, h.lookup]
      refine exists_congr fun j => and_congr_right fun hj => ?_
      rw [hold j hj]
      exact (and_iff_right hkk).symm

/-- The value in a slot is replaced. -/
theorem replace (h : Represents n slot m) (hi : i < n) {w : V} (hs : slot i = some (k, w))
    (hnew : slot' i = some (k, v)) (hother : ∀ j < n, j ≠ i → slot' j = slot j) :
    Represents n slot' (m.insert k v) := by
  have hold (j : ℕ) (hj : j < n) (k' : K) (w' : V) :
      slot' j = some (k', w') ↔ j = i ∧ k' = k ∧ w' = v ∨ k' ≠ k ∧ slot j = some (k', w') := by
    by_cases hji : j = i
    · subst hji
      rw [hnew, hs]
      constructor
      · intro heq
        cases heq
        exact .inl ⟨rfl, rfl, rfl⟩
      · rintro (⟨-, rfl, rfl⟩ | ⟨hne, heq⟩)
        · rfl
        · cases heq
          exact absurd rfl hne
    · rw [hother j hj hji]
      refine ⟨fun hw => .inr ⟨?_, hw⟩, ?_⟩
      · rintro rfl
        exact hji (h.inj j hj i hi k' w' w hw hs)
      · rintro (⟨heq, -, -⟩ | ⟨-, hw⟩)
        · exact absurd heq hji
        · exact hw
  refine ⟨fun j hj l hl k' w' w'' hw hw' => ?_, fun k' w' => ?_⟩
  · rcases (hold j hj k' w').mp hw with ⟨rfl, rfl, -⟩ | ⟨hne, hw⟩
    · rcases (hold l hl k' w'').mp hw' with ⟨rfl, -, -⟩ | ⟨hne, -⟩
      · rfl
      · exact absurd rfl hne
    · rcases (hold l hl k' w'').mp hw' with ⟨-, heq, -⟩ | ⟨-, hw'⟩
      · exact absurd heq hne
      · exact h.inj j hj l hl k' w' w'' hw hw'
  · by_cases hkk : k' = k
    · subst hkk
      rw [Finmap.lookup_insert]
      constructor
      · intro heq
        cases heq
        exact ⟨i, hi, hnew⟩
      · rintro ⟨j, hj, hw⟩
        rcases (hold j hj k' w').mp hw with ⟨-, -, rfl⟩ | ⟨hne, -⟩
        · rfl
        · exact absurd rfl hne
    · rw [Finmap.lookup_insert_of_ne _ hkk, h.lookup]
      refine exists_congr fun j => and_congr_right fun hj => ?_
      rw [hold j hj]
      refine ⟨fun hw => .inr ⟨hkk, hw⟩, ?_⟩
      rintro (⟨-, heq, -⟩ | ⟨-, hw⟩)
      · exact absurd heq hkk
      · exact hw

end Represents
end BoundedMap
end Coursework
