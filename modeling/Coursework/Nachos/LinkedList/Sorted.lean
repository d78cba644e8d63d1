import Coursework.Lib.Agenda
import Coursework.Nachos.LinkedList

/-!
# Insertion in the order of the keys

`SortedInsert` walks to the last element whose key is not greater than the new one; the walk takes
a bound on its rounds. `SortedRemove` returns the entry with the least key that came first.
-/
namespace Coursework.Nachos.LinkedList

variable {Addr Item : Type} [DecidableEq Addr]

/-- The loop of `SortedInsert`: the element after which the item goes, or the end of the list. -/
def place (heap : Addr → Option (ListElement Addr Item)) (sortKey : ℤ) :
    ℕ → Addr → Option (Option Addr)
  | 0, _ => none
  | rounds + 1, ptr => do
    let e ← heap ptr
    match e.next with
    | none => some none
    | some next => do
      let e' ← heap next
      if sortKey < e'.key then some (some ptr) else place heap sortKey rounds next

def sortedInsert (rounds : ℕ) (l : LinkedList Addr Item) (element : Addr) (item : Option Item)
    (sortKey : ℤ) : Option (LinkedList Addr Item) :=
  let heap := Function.update l.heap element (some ⟨none, sortKey, item⟩)
  if l.isEmpty then some ⟨heap, some element, some element⟩
  else do
    let first ← l.first
    let e ← heap first
    if sortKey < e.key then
      some ⟨Function.update heap element (some ⟨some first, sortKey, item⟩), some element, l.last⟩
    else
      match ← place heap sortKey rounds first with
      | some ptr => do
        let e ← heap ptr
        let heap := Function.update heap element (some ⟨e.next, sortKey, item⟩)
        some ⟨Function.update heap ptr (some { e with next := some element }), l.first, l.last⟩
      | none => do
        let last ← l.last
        let e ← heap last
        some ⟨Function.update heap last (some { e with next := some element }), l.first,
          some element⟩

variable {l : LinkedList Addr Item} {cells l₂ : List (Addr × ListElement Addr Item)} {a b : Addr}
  {n m : ListElement Addr Item} {item : Option Item} {sortKey : ℤ} {rounds : ℕ}
  {heap : Addr → Option (ListElement Addr Item)}

omit [DecidableEq Addr] in
/-- The walk stops at the last element before the first greater key. -/
theorem place_eq (hseg : Seg ListElement.next heap (some b) ((b, m) :: cells) none)
    (hm : m.key ≤ sortKey) (hr : cells.length < rounds) :
    ∃ l₁ c l₂, (b, m) :: cells = l₁ ++ c :: l₂ ∧
      place heap sortKey rounds b = some (if l₂ = [] then none else some c.1) ∧
      (∀ x ∈ l₁ ++ [c], x.2.key ≤ sortKey) ∧ ∀ y ∈ l₂.head?, sortKey < y.2.key := by
  induction cells generalizing b m rounds with
  | nil =>
    cases rounds with
    | zero => cases hr
    | succ rounds =>
      obtain ⟨-, hb, hnext⟩ := hseg
      refine ⟨[], (b, m), [], rfl, ?_, by simpa using hm, nofun⟩
      have hnext : m.next = none := hnext
      simp [place, hb, hnext]
  | cons c cells ih =>
    rcases c with ⟨c, k⟩
    cases rounds with
    | zero => cases hr
    | succ rounds =>
      obtain ⟨-, hb, hnext, hc, hrest⟩ := hseg
      by_cases hk : sortKey < k.key
      · refine ⟨[], (b, m), (c, k) :: cells, rfl, ?_, by simpa using hm, ?_⟩
        · simp [place, hb, hnext, hc, hk]
        · rintro y ⟨⟩
          exact hk
      · obtain ⟨l₁, d, l₂, hsplit, hplace, hbefore, hafter⟩ := ih (m := k) (b := c)
          ⟨rfl, hc, hrest⟩ (not_lt.mp hk) (Nat.lt_of_succ_lt_succ hr)
        refine ⟨(b, m) :: l₁, d, l₂, by rw [hsplit, List.cons_append], ?_, ?_, hafter⟩
        · simp [place, hb, hnext, hc, hk, hplace]
        · intro x hx
          rcases List.mem_cons.mp hx with rfl | hx
          · exact hm
          · exact hbefore x hx

omit [DecidableEq Addr] in
theorem entries_append (l₁ l₂ : List (Addr × ListElement Addr Item)) :
    entries (l₁ ++ l₂) = entries l₁ ++ entries l₂ := List.map_append

theorem sortedInsert_of_empty (hfirst : l.first = none) :
    l.sortedInsert rounds a item sortKey =
      some ⟨Function.update l.heap a (some ⟨none, sortKey, item⟩), some a, some a⟩ := by
  simp [sortedInsert, isEmpty, hfirst]

theorem sortedInsert_of_front (hfirst : l.first = some b) (hne : b ≠ a) (hb : l.heap b = some m)
    (hlt : sortKey < m.key) :
    l.sortedInsert rounds a item sortKey =
      some ⟨Function.update (Function.update l.heap a (some ⟨none, sortKey, item⟩)) a
        (some ⟨some b, sortKey, item⟩), some a, l.last⟩ := by
  simp [sortedInsert, isEmpty, hfirst, hne, hb, hlt]

/-- The new element goes behind the one at `c`, which may be the last one. -/
theorem sortedInsert_of_place {c : Addr} {k : ListElement Addr Item} {last : Prop}
    [Decidable last] (hfirst : l.first = some b) (hne : b ≠ a) (hb : l.heap b = some m)
    (hle : ¬sortKey < m.key)
    (hplace : place (Function.update l.heap a (some ⟨none, sortKey, item⟩)) sortKey rounds b =
      some (if last then none else some c))
    (hlast : last → l.last = some c ∧ k.next = none) (hca : c ≠ a) (hc : l.heap c = some k) :
    ∃ heap, l.sortedInsert rounds a item sortKey =
        some ⟨heap, l.first, if last then some a else l.last⟩ ∧
      heap a = some ⟨k.next, sortKey, item⟩ ∧ heap c = some { k with next := some a } ∧
      ∀ x, x ≠ a → x ≠ c → heap x = l.heap x := by
  by_cases h : last
  · rw [if_pos h] at hplace
    obtain ⟨hend, hnext⟩ := hlast h
    refine ⟨Function.update (Function.update l.heap a (some ⟨none, sortKey, item⟩)) c
      (some { k with next := some a }), ?_, ?_, Function.update_self .., ?_⟩
    · simp [sortedInsert, isEmpty, hfirst, hne, hb, hle, hplace, hend, hca, hc, h]
    · rw [Function.update_of_ne (Ne.symm hca), Function.update_self, hnext]
    · intro x hxa hxc
      rw [Function.update_of_ne hxc, Function.update_of_ne hxa]
  · rw [if_neg h] at hplace
    refine ⟨Function.update (Function.update (Function.update l.heap a
      (some ⟨none, sortKey, item⟩)) a (some ⟨k.next, sortKey, item⟩)) c
        (some { k with next := some a }), ?_, ?_, Function.update_self .., ?_⟩
    · simp [sortedInsert, isEmpty, hfirst, hne, hb, hle, hplace, hca, hc, h]
    · rw [Function.update_of_ne (Ne.symm hca), Function.update_self]
    · intro x hxa hxc
      rw [Function.update_of_ne hxc, Function.update_of_ne hxa, Function.update_of_ne hxa]

/-- `SortedInsert` puts the item behind all items whose key is not greater. -/
theorem sortedInsert_holds (hl : l.Holds cells) (ha : l.heap a = none) (item : Option Item)
    (sortKey : ℤ) (hr : cells.length ≤ rounds) :
    ∃ l' cells', l.sortedInsert rounds a item sortKey = some l' ∧ l'.Holds cells' ∧
      entries cells' = insertByKey (sortKey, item) (entries cells) := by
  have hfree := hl.seg.ne_of_free ha
  cases cells with
  | nil => exact ⟨_, [(a, ⟨none, sortKey, item⟩)], sortedInsert_of_empty hl.seg,
      .single (by simp) rfl, rfl⟩
  | cons c cells =>
    rcases c with ⟨b, m⟩
    obtain ⟨hfirst, hb, hrest⟩ := hl.seg
    have hne : b ≠ a := by
      rintro rfl
      exact hfree (by simp)
    by_cases hlt : sortKey < m.key
    · refine ⟨_, (a, ⟨some b, sortKey, item⟩) :: (b, m) :: cells,
        sortedInsert_of_front hfirst hne hb hlt, ?_, ?_⟩
      · have hpush := hl.push_front (n := ⟨some b, sortKey, item⟩) hfree
          (Function.update_self a _ l.heap) hfirst.symm fun x hx => Function.update_of_ne hx ..
        rw [Function.update_idem]
        simpa using hpush
      · exact (insertByKey_cons_of_lt hlt).symm
    · have hwalk : Chain ListElement.next
          (Function.update l.heap a (some ⟨none, sortKey, item⟩)) (some b) l.last
          ((b, m) :: cells) :=
        hfirst ▸ hl.of_free ha fun x hx => Function.update_of_ne hx ..
      obtain ⟨l₁, ⟨c, k⟩, l₂, hsplit, hplace, hbefore, hafter⟩ :=
        place_eq hwalk.seg (not_lt.mp hlt) hr
      rw [hsplit] at hl hfree
      have hc : l.heap c = some k := hl.seg.mem (c := (c, k)) (by simp)
      have hca : c ≠ a := by
        rintro rfl
        exact hfree (by simp)
      have hlast : l₂ = [] → l.last = some c ∧ k.next = none := by
        rintro rfl
        obtain ⟨r, -, -, -, hend⟩ := seg_append.mp hl.seg
        exact ⟨by simpa using hl.last_eq, hend⟩
      obtain ⟨heap, hins, hha, hhc, hhx⟩ :=
        sortedInsert_of_place hfirst hne hb hlt hplace hlast hca hc
      refine ⟨_, l₁ ++ (c, { k with next := some a }) :: (a, ⟨k.next, sortKey, item⟩) :: l₂, hins,
        hl.insert_after hfree hha hhc rfl rfl hhx, ?_⟩
      rw [hsplit]
      have hentries : entries (l₁ ++ (c, k) :: l₂) = entries (l₁ ++ [(c, k)]) ++ entries l₂ := by
        rw [← entries_append, List.append_assoc, List.singleton_append]
      rw [hentries, insertByKey_append]
      · simp [entries]
      · intro x hx
        obtain ⟨y, hy, rfl⟩ := List.mem_map.mp hx
        exact hbefore y hy
      · intro y hy
        cases l₂ with
        | nil => cases hy
        | cons z l₂ =>
          cases hy
          exact hafter z rfl

theorem sortedRemove_nil (hl : l.Holds []) : l.sortedRemove = some (none, none, l) := by
  have hempty : l.isEmpty = true := (isEmpty_iff hl).mpr rfl
  rw [sortedRemove, hempty]
  rfl

end Coursework.Nachos.LinkedList
