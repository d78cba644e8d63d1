import Coursework.Nachos.DLList.Sequence

/-!
# Does a `DLList` stay linked both ways?

`Prepend`, `Append` and `SortedInsert` set the links of both directions. `Remove` takes the
first element off and leaves the `prev` of the next one as it is.
-/
namespace Coursework.Nachos.DLList

variable {Addr Item : Type} [DecidableEq Addr] {l l' : DLList Addr Item}
  {cells : List (Addr × DLLElement Addr Item)} {a : Addr} {item : Option Item} {sortKey : ℤ}
  {e : Operation Addr Item} {s : Option (DLList Addr Item)}

/-- A doubly linked list, by its pointers only. -/
structure Proper (l : DLList Addr Item) : Prop where
  null : l.first = none ↔ l.last = none
  first_prev : ∀ a n, l.first = some a → l.heap a = some n → n.prev = none
  last_next : ∀ a n, l.last = some a → l.heap a = some n → n.next = none
  walks : ∃ cells, Seg DLLElement.next l.heap l.first cells none ∧
    Seg DLLElement.prev l.heap l.last cells.reverse none ∧
    ∀ x n, (x, n) ∈ cells → ∀ y, n.next = some y → ∃ m, l.heap y = some m ∧ m.prev = some x

omit [DecidableEq Addr] in
theorem Linked.proper (hl : l.Linked cells) : l.Proper where
  null := by rw [hl.forward.eq_nil_iff, hl.forward.eq_nil_iff_last]
  first_prev a n hfirst ha := by
    cases cells with
    | nil => cases hfirst.symm.trans hl.forward.first_eq
    | cons c cells =>
      obtain ⟨hc, hn, -⟩ := hl.forward.seg
      cases hfirst.symm.trans hc
      cases ha.symm.trans hn
      exact hl.prev_head
  last_next a n hlast ha := by
    rcases hl.forward.cases_last with ⟨-, -, hnone⟩ | ⟨l₀, b, m, -, hb, hm, hend⟩
    · cases hlast.symm.trans hnone
    · cases hlast.symm.trans hb
      cases ha.symm.trans hm
      exact hend
  walks := by
    refine ⟨cells, hl.forward.seg, hl.backward.seg, fun x n hx y hy => ?_⟩
    obtain ⟨l₁, l₂, rfl⟩ := List.append_of_mem hx
    cases l₂ with
    | nil => cases hy.symm.trans hl.next_last
    | cons c l₂ =>
      obtain ⟨hnext, hprev⟩ := hl.links
      cases hy.symm.trans hnext
      exact ⟨c.2, hl.forward.seg.mem (by simp), hprev⟩

/-- The new element is the only one. -/
theorem linked_only (item : Option Item) (sortKey : ℤ) :
    ({ l.new a item sortKey with first := some a, last := some a } : DLList Addr Item).Linked
      [(a, ⟨none, none, sortKey, item⟩)] :=
  .single (new_heap_self item sortKey) rfl rfl

theorem prepend_linked (hl : l.Linked cells) (ha : l.heap a = none) (item : Option Item) :
    ∃ l' cells', l.prepend a item = some l' ∧ l'.Linked cells' := by
  cases cells with
  | nil => exact ⟨_, _, prepend_nil hl.forward a item, linked_only item 1⟩
  | cons c cells =>
    obtain ⟨l', hpre, hput⟩ := prepend_putFront hl.forward ha item
    exact ⟨l', _, hpre, hput.linked hl ha⟩

theorem append_linked (hl : l.Linked cells) (ha : l.heap a = none) (item : Option Item) :
    ∃ l' cells', l.append a item = some l' ∧ l'.Linked cells' := by
  rcases cells.eq_nil_or_concat' with rfl | ⟨l₀, c, rfl⟩
  · exact ⟨_, _, append_nil hl.forward a item, linked_only item 1⟩
  · obtain ⟨l', happ, hput⟩ := append_putBack hl.forward ha item
    exact ⟨l', _, happ, hput.linked hl ha⟩

theorem Inserted.linked (hi : Inserted l a item sortKey cells l') (hl : l.Linked cells)
    (ha : l.heap a = none) : ∃ cells', l'.Linked cells' := by
  cases hi with
  | empty => exact ⟨_, linked_only item sortKey⟩
  | front hm hput => exact ⟨_, hput.linked hl ha⟩
  | middle hm hk hput => exact ⟨_, hput.linked hl ha⟩
  | tail hm hput => exact ⟨_, hput.linked hl ha⟩

/-- Where a call is no `Remove` on two elements. -/
def RemovesOnly : Option (DLList Addr Item) → Operation Addr Item → Prop
  | some l, .remove => l.first = l.last
  | _, _ => True

instance : (s : Option (DLList Addr Item)) → (e : Operation Addr Item) →
    Decidable (RemovesOnly s e)
  | some l, .remove => inferInstanceAs (Decidable (l.first = l.last))
  | none, _ | some _, .prepend _ _ | some _, .append _ _ | some _, .sortedInsert _ _ _ _ =>
    inferInstanceAs (Decidable True)

/-- The list is there and is linked both ways. -/
def IsProper (s : Option (DLList Addr Item)) : Prop := ∃ l, s = some l ∧ l.Proper

theorem apply_linked (hl : l.Linked cells) (hok : RemovesOnly (some l) e)
    (h : l.apply e = some s) : ∃ l' cells', s = some l' ∧ l'.Linked cells' := by
  cases e with
  | prepend item a =>
    rw [apply, Option.ite_none_left_eq_some] at h
    obtain ⟨ha, hs⟩ := h
    obtain ⟨l', cells', hpre, hl'⟩ := prepend_linked hl (by simpa using ha) item
    exact ⟨l', cells', (Option.some.inj hs).symm.trans hpre, hl'⟩
  | append item a =>
    rw [apply, Option.ite_none_left_eq_some] at h
    obtain ⟨ha, hs⟩ := h
    obtain ⟨l', cells', happ, hl'⟩ := append_linked hl (by simpa using ha) item
    exact ⟨l', cells', (Option.some.inj hs).symm.trans happ, hl'⟩
  | sortedInsert item sortKey a rounds =>
    rw [apply, Option.ite_none_left_eq_some] at h
    obtain ⟨ha, hs⟩ := h
    have ha' : l.heap a = none := by simpa using ha
    obtain ⟨l', hl', hi⟩ := sortedInsert_inserted hl.forward ha' hs
    obtain ⟨cells', hlinked⟩ := hi.linked hl ha'
    exact ⟨l', cells', hl', hlinked⟩
  | remove =>
    rw [apply, Option.ite_none_left_eq_some] at h
    obtain ⟨hne, hs⟩ := h
    cases cells with
    | nil => exact absurd ((isEmpty_iff hl.forward).mpr rfl) hne
    | cons c cells =>
      obtain rfl : cells = [] := hl.forward.first_eq_last_iff.mp hok
      rw [remove_single hl.forward] at hs
      exact ⟨_, [], (Option.some.inj hs).symm, .nil⟩

/-- After a `Remove` on two elements the first one still has a `prev`. -/
theorem remove_not_proper (hl : l.Linked cells) (hok : ¬ RemovesOnly (some l) e)
    (h : l.apply e = some s) : ¬ IsProper s := by
  cases e with
  | remove =>
    rw [apply, Option.ite_none_left_eq_some] at h
    obtain ⟨hne, hs⟩ := h
    rintro ⟨l', rfl, hproper⟩
    cases cells with
    | nil => exact hne ((isEmpty_iff hl.forward).mpr rfl)
    | cons c cells =>
      cases cells with
      | nil => exact hok (hl.forward.first_eq_last_iff.mpr rfl)
      | cons d cells =>
        rw [remove_cons hl.forward] at hs
        cases hs
        have hd : l.heap d.1 = some d.2 := hl.forward.seg.mem (by simp)
        have hdc : d.1 ≠ c.1 := by
          have hnd := (List.nodup_cons.mp hl.forward.nodup).1
          rintro heq
          exact hnd (by simp [heq])
        have hprev := hproper.first_prev d.1 d.2 rfl ((Function.update_of_ne hdc _ _).trans hd)
        have hl' : Linked l ([] ++ (c.1, c.2) :: (d.1, d.2) :: cells) := hl
        have hlinks := (TwoWay.links hl').2
        cases hprev.symm.trans hlinks
  | prepend _ _ | append _ _ | sortedInsert _ _ _ _ => exact absurd trivial hok

/-- The list is linked both ways in every state of a run exactly when the run has no `Remove` on
a list of two or more elements. -/
theorem linked_both_ways_iff (h0 : sequence.init s) (es : List (Operation Addr Item)) :
    sequence.Visits IsProper s es ↔ sequence.Meets RemovesOnly s es := by
  obtain ⟨l, rfl, hnew⟩ := h0
  have hpre := Machine.meets_true (M := sequence) (some l) es
  refine Machine.visits_iff_meets (I := fun s => ∃ l cells, s = some l ∧ Linked l cells) ?_ ?_ ?_ ?_
    hpre
  · rintro s ⟨l, cells, rfl, hl⟩
    exact ⟨l, rfl, hl.proper⟩
  · rintro s e s' ⟨l, cells, rfl, hl⟩ - hok hs
    exact apply_linked hl hok hs
  · rintro s e s' ⟨l, cells, rfl, hl⟩ hok hs
    exact remove_not_proper hl hok hs
  · refine ⟨l, [], rfl, ?_⟩
    rw [Linked, hnew.1, hnew.2]
    exact .nil

/-- A `Remove` of the only element, then insertions at both ends, and in the middle at last. -/
theorem linked_both_ways_iff_insertions :
    let es : List (Operation ℕ ℕ) := [.append none 1, .remove, .prepend none 2, .append none 3,
      .prepend none 4, .sortedInsert none 1 5 5, .sortedInsert none 0 6 5]
    (∃ l, sequence.run (some ⟨fun _ => none, none, none⟩) es = some (some l) ∧
      l.keys 6 l.first = [0, 0, 1, 1, 1] ∧ l.first = some 4 ∧ l.last = some 5) ∧
    sequence.Visits IsProper (some ⟨fun _ => none, none, none⟩) es :=
  ⟨⟨_, rfl, by decide, rfl, rfl⟩, (linked_both_ways_iff ⟨_, rfl, rfl, rfl⟩ _).mpr (by decide)⟩

/-- Two elements and a `Remove`: the element that is left points back to the deleted one. -/
theorem remove_leaves_prev :
    ¬ ∀ (s : Option (DLList ℕ ℕ)) es, sequence.init s → sequence.Visits IsProper s es := by
  intro hall
  have hvisits := hall (some ⟨fun _ => none, none, none⟩)
    [.append none 1, .append none 2, .remove] ⟨_, rfl, rfl, rfl⟩
  obtain ⟨l, hl, hproper⟩ := hvisits.last rfl
  cases hl
  have hprev := hproper.first_prev 2 ⟨some 1, none, 1, none⟩ rfl rfl
  cases hprev

end Coursework.Nachos.DLList
