import Mathlib.Data.List.Nodup
import Mathlib.Data.List.Basic
import Mathlib.Logic.Function.Basic

/-!
# Linked cells

Cells live in a heap, a partial function from addresses to nodes. A segment is the
list of cells that a walk along `next` visits. A chain is a segment to the null
pointer whose addresses are distinct, with a pointer to its last cell. The lemmas say
what one write to a cell, or the linking of one new cell, does to a chain.
-/
namespace Coursework

variable {α ν : Type*} {next : ν → Option α} {h h' : α → Option ν} {p q : Option α}
  {l l₁ l₂ : List (α × ν)} {a b : α} {m m' n n' : ν}

/-- The walk from `p` visits the cells of the list and then is at `q`. -/
def Seg (next : ν → Option α) (h : α → Option ν) : Option α → List (α × ν) → Option α → Prop
  | p, [], q => p = q
  | p, (a, n) :: l, q => p = some a ∧ h a = some n ∧ Seg next h (next n) l q

theorem seg_append : Seg next h p (l₁ ++ l₂) q ↔
    ∃ r, Seg next h p l₁ r ∧ Seg next h r l₂ q := by
  induction l₁ generalizing p with
  | nil => simp [Seg]
  | cons c l₁ ih =>
    simp only [List.cons_append, Seg, ih]
    constructor
    · rintro ⟨hp, ha, r, h₁, h₂⟩
      exact ⟨r, ⟨hp, ha, h₁⟩, h₂⟩
    · rintro ⟨r, ⟨hp, ha, h₁⟩, h₂⟩
      exact ⟨hp, ha, r, h₁, h₂⟩

theorem Seg.mem (hs : Seg next h p l q) {c : α × ν} (hc : c ∈ l) : h c.1 = some c.2 := by
  induction l generalizing p with
  | nil => simp at hc
  | cons d l ih =>
    rcases hs with ⟨-, hd, hs⟩
    rcases List.mem_cons.mp hc with rfl | hc
    · exact hd
    · exact ih hs hc

theorem Seg.ne_of_free (hs : Seg next h p l q) (ha : h a = none) :
    a ∉ l.map Prod.fst := by
  intro hmem
  obtain ⟨c, hc, rfl⟩ := List.mem_map.mp hmem
  rw [hs.mem hc] at ha
  cases ha

theorem Seg.congr (hs : Seg next h p l q) (hh : ∀ x ∈ l.map Prod.fst, h' x = h x) :
    Seg next h' p l q := by
  induction l generalizing p with
  | nil => exact hs
  | cons c l ih =>
    rcases hs with ⟨hp, hc, hs⟩
    refine ⟨hp, (hh c.1 (by simp)).trans hc, ih hs fun x hx => hh x ?_⟩
    exact List.mem_cons_of_mem _ hx

/-- Cells from `first` to the null pointer, the last of them at `last`. -/
structure Chain (next : ν → Option α) (h : α → Option ν) (first last : Option α)
    (l : List (α × ν)) : Prop where
  seg : Seg next h first l none
  nodup : (l.map Prod.fst).Nodup
  last_eq : last = (l.map Prod.fst).getLast?

namespace Chain
variable {first last : Option α}

theorem nil : Chain next h none none [] := ⟨rfl, List.nodup_nil, rfl⟩

theorem first_eq (hc : Chain next h first last l) : first = (l.map Prod.fst).head? := by
  cases l with
  | nil => exact hc.seg
  | cons c l => exact hc.seg.1

theorem eq_nil_iff (hc : Chain next h first last l) : first = none ↔ l = [] := by
  rw [hc.first_eq]
  simp

theorem eq_nil_iff_last (hc : Chain next h first last l) : last = none ↔ l = [] := by
  rw [hc.last_eq]
  simp

/-- The first cell is the last one when nothing is behind it. -/
theorem first_eq_last_iff (hc : Chain next h first last ((a, n) :: l)) :
    first = last ↔ l = [] := by
  have hnd := (List.nodup_cons.mp hc.nodup).1
  rw [hc.first_eq, hc.last_eq]
  rcases l.eq_nil_or_concat' with rfl | ⟨l₀, c, rfl⟩
  · simp
  · rw [← List.cons_append, List.map_append, List.map_singleton, List.getLast?_concat]
    simp only [List.cons_append, List.map_cons, List.head?_cons, Option.some.injEq,
      List.append_eq_nil_iff, reduceCtorEq, and_false, iff_false]
    rintro rfl
    exact hnd (by simp)

/-- Two walks from one pointer visit the same cells. -/
theorem unique (hc : Chain next h first last l) {last' : Option α}
    (hc' : Chain next h first last' l₁) : l = l₁ := by
  have hseg := hc.seg
  have hseg' := hc'.seg
  clear hc hc'
  induction l generalizing first l₁ with
  | nil =>
    cases l₁ with
    | nil => rfl
    | cons c l₁ => cases (hseg : first = none).symm.trans hseg'.1
  | cons c l ih =>
    rcases hseg with ⟨hp, hcell, hseg⟩
    cases l₁ with
    | nil => cases hp.symm.trans hseg'
    | cons c' l₁ =>
      rcases hseg' with ⟨hp', hcell', hseg'⟩
      obtain rfl : c = c' := by
        have ha : c.1 = c'.1 := Option.some.inj (hp.symm.trans hp')
        rw [← ha] at hcell'
        exact Prod.ext ha (Option.some.inj (hcell.symm.trans hcell'))
      rw [ih hseg hseg']

theorem congr (hc : Chain next h first last l) (hh : ∀ x ∈ l.map Prod.fst, h' x = h x) :
    Chain next h' first last l :=
  ⟨hc.seg.congr hh, hc.nodup, hc.last_eq⟩

/-- A write at a free address is not seen. -/
theorem of_free (hc : Chain next h first last l) (ha : h a = none)
    (hh : ∀ x, x ≠ a → h' x = h x) : Chain next h' first last l :=
  hc.congr fun _ hx => hh _ (ne_of_mem_of_not_mem hx (hc.seg.ne_of_free ha))

theorem single (ha : h a = some n) (hn : next n = none) :
    Chain next h (some a) (some a) [(a, n)] :=
  ⟨⟨rfl, ha, hn⟩, List.nodup_singleton a, rfl⟩

/-- A write to a cell that keeps its `next` changes one entry of the list. -/
theorem touch (l₁ : List (α × ν)) (hc : Chain next h first last (l₁ ++ (a, n) :: l₂))
    (ha : h' a = some n') (hn : next n' = next n) (hh : ∀ x, x ≠ a → h' x = h x) :
    Chain next h' first last (l₁ ++ (a, n') :: l₂) := by
  have hnd := hc.nodup
  simp only [List.map_append, List.map_cons, List.nodup_append', List.nodup_cons,
    List.disjoint_cons_right] at hnd
  obtain ⟨r, h₁, hr, -, h₂⟩ := seg_append.mp hc.seg
  refine ⟨seg_append.mpr ⟨r, h₁.congr fun x hx => hh x ?_, hr, ha, ?_⟩, ?_, ?_⟩
  · exact ne_of_mem_of_not_mem hx hnd.2.2.1
  · rw [hn]
    exact h₂.congr fun x hx => hh x (ne_of_mem_of_not_mem hx hnd.2.1.1)
  · simpa using hc.nodup
  · simpa using hc.last_eq

/-- A new cell is linked behind the cell at `b`. -/
theorem insert_after (hc : Chain next h first last (l₁ ++ (b, m) :: l₂))
    (ha : a ∉ (l₁ ++ (b, m) :: l₂).map Prod.fst) (hn : h' a = some n) (hm : h' b = some m')
    (hna : next n = next m) (hmb : next m' = some a) (hh : ∀ x, x ≠ a → x ≠ b → h' x = h x) :
    Chain next h' first (if l₂ = [] then some a else last)
      (l₁ ++ (b, m') :: (a, n) :: l₂) := by
  have hnd := hc.nodup
  simp only [List.map_append, List.map_cons, List.nodup_append', List.nodup_cons,
    List.disjoint_cons_right] at hnd
  simp only [List.map_append, List.map_cons, List.mem_append, List.mem_cons, not_or] at ha
  obtain ⟨r, h₁, hr, -, h₂⟩ := seg_append.mp hc.seg
  refine ⟨seg_append.mpr ⟨r, h₁.congr fun x hx => hh x ?_ ?_, hr, hm, hmb, hn, ?_⟩, ?_, ?_⟩
  · exact ne_of_mem_of_not_mem hx ha.1
  · exact ne_of_mem_of_not_mem hx hnd.2.2.1
  · rw [hna]
    exact h₂.congr fun x hx => hh x (ne_of_mem_of_not_mem hx ha.2.2)
      (ne_of_mem_of_not_mem hx hnd.2.1.1)
  · simp only [List.map_append, List.map_cons, List.nodup_append', List.nodup_cons,
      List.disjoint_cons_right, List.mem_cons, not_or]
    exact ⟨hnd.1, ⟨⟨Ne.symm ha.2.1, hnd.2.1.1⟩, ha.2.2, hnd.2.1.2⟩, hnd.2.2.1, ha.1, hnd.2.2.2⟩
  · have hlast := hc.last_eq
    cases l₂ with
    | nil => simp
    | cons c l₂ => simpa [List.getLast?_cons_cons] using hlast

/-- A new cell is linked at the end. -/
theorem push_back (hc : Chain next h first last (l ++ [(b, m)])) (ha : h a = none)
    (hn : h' a = some n) (hm : h' b = some m') (hna : next n = none) (hmb : next m' = some a)
    (hh : ∀ x, x ≠ a → x ≠ b → h' x = h x) :
    Chain next h' first (some a) (l ++ [(b, m'), (a, n)]) := by
  have hend : next m = none := by
    obtain ⟨r, -, -, -, h₂⟩ := seg_append.mp hc.seg
    exact h₂
  simpa using hc.insert_after (hc.seg.ne_of_free ha) hn hm (hna.trans hend.symm) hmb hh

/-- A new cell is linked at the front. -/
theorem push_front (hc : Chain next h first last l) (ha : a ∉ l.map Prod.fst)
    (hn : h' a = some n) (hna : next n = first) (hh : ∀ x, x ≠ a → h' x = h x) :
    Chain next h' (some a) (if l = [] then some a else last) ((a, n) :: l) := by
  refine ⟨⟨rfl, hn, ?_⟩, ?_, ?_⟩
  · rw [hna]
    exact hc.seg.congr fun x hx => hh x (ne_of_mem_of_not_mem hx ha)
  · simpa using ⟨by simpa using ha, hc.nodup⟩
  · cases l with
    | nil => rfl
    | cons c l => simpa [List.getLast?_cons_cons] using hc.last_eq

/-- The first cell is freed. -/
theorem pop_front (hc : Chain next h first last ((a, n) :: l)) (hh : ∀ x, x ≠ a → h' x = h x) :
    Chain next h' (next n) (if l = [] then none else last) l := by
  have hnd := List.nodup_cons.mp (by simpa using hc.nodup : (a :: l.map Prod.fst).Nodup)
  refine ⟨hc.seg.2.2.congr fun x hx => hh x (ne_of_mem_of_not_mem hx hnd.1), hnd.2, ?_⟩
  cases l with
  | nil => rfl
  | cons c l => simpa [List.getLast?_cons_cons] using hc.last_eq

/-- A new cell is linked between two cells, which may be written to as well. -/
theorem insert_between {c : α} {k k' : ν}
    (hc : Chain next h first last (l₁ ++ (b, m) :: (c, k) :: l₂))
    (ha : a ∉ (l₁ ++ (b, m) :: (c, k) :: l₂).map Prod.fst) (hn : h' a = some n)
    (hm : h' b = some m') (hk : h' c = some k') (hna : next n = some c) (hmb : next m' = some a)
    (hkc : next k' = next k) (hh : ∀ x, x ≠ a → x ≠ b → x ≠ c → h' x = h x) :
    Chain next h' first last (l₁ ++ (b, m') :: (a, n) :: (c, k') :: l₂) := by
  classical
  obtain ⟨r, -, -, hb, hnext, -⟩ := seg_append.mp hc.seg
  have hbc : b ≠ c := by
    rintro rfl
    have hnd := hc.nodup
    simp [List.nodup_append'] at hnd
  -- the heap in which `c` is written to and the new cell is not there yet
  have htouch : Chain next (Function.update h c (some k')) first last
      (l₁ ++ (b, m) :: (c, k') :: l₂) := by
    have hc' : Chain next h first last ((l₁ ++ [(b, m)]) ++ (c, k) :: l₂) := by simpa using hc
    simpa using hc'.touch _ (Function.update_self ..) hkc fun x hx => Function.update_of_ne hx _ _
  have hins := htouch.insert_after (a := a) (by simpa using ha) hn hm (hna.trans hnext.symm) hmb
    fun x hxa hxb => by
      by_cases hxc : x = c
      · rw [hxc, hk, Function.update_self]
      · rw [hh x hxa hxb hxc, Function.update_of_ne hxc]
  simpa using hins

/-- The last cell is taken off. -/
theorem pop_back (hc : Chain next h first last (l ++ [(b, m), (a, n)])) (hm : h' b = some m')
    (hmb : next m' = none) (hh : ∀ x, x ≠ a → x ≠ b → h' x = h x) :
    Chain next h' first (some b) (l ++ [(b, m')]) := by
  have hnd := hc.nodup
  simp only [List.map_append, List.map_cons, List.map_nil, List.nodup_append', List.nodup_cons,
    List.disjoint_cons_right] at hnd
  obtain ⟨r, h₁, hr, -, -⟩ := seg_append.mp hc.seg
  refine ⟨seg_append.mpr ⟨r, h₁.congr fun x hx => hh x ?_ ?_, hr, hm, hmb⟩, ?_, ?_⟩
  · exact ne_of_mem_of_not_mem hx hnd.2.2.2.1
  · exact ne_of_mem_of_not_mem hx hnd.2.2.1
  · have hsub : ((l ++ [(b, m')]).map Prod.fst).Sublist ((l ++ [(b, m), (a, n)]).map Prod.fst) := by
      simp
    exact hc.nodup.sublist hsub
  · simp

/-- The list is empty, or its last cell is at `last`. -/
theorem cases_last (hc : Chain next h first last l) :
    (l = [] ∧ first = none ∧ last = none) ∨
      ∃ l₀ b m, l = l₀ ++ [(b, m)] ∧ last = some b ∧ h b = some m ∧ next m = none := by
  rcases l.eq_nil_or_concat' with rfl | ⟨l₀, ⟨b, m⟩, rfl⟩
  · exact .inl ⟨rfl, hc.seg, hc.last_eq⟩
  · obtain ⟨r, -, -, hb, hend⟩ := seg_append.mp hc.seg
    exact .inr ⟨l₀, b, m, rfl, by simpa using hc.last_eq, hb, hend⟩

end Chain
end Coursework
