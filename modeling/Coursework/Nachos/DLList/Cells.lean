import Coursework.Nachos.DLList

/-!
# The elements of a `DLList`

What the operations do to the chain of elements from `first` to `last` along `next`.
The `prev` pointers play no part in it.
-/
namespace Coursework.Nachos.DLList

variable {Addr Item : Type} [DecidableEq Addr] {l : DLList Addr Item}
  {cells : List (Addr × DLLElement Addr Item)} {a b : Addr} {n m : DLLElement Addr Item}
  {item : Option Item} {sortKey : ℤ} {rounds : ℕ}

/-- The list holds these elements, in this order. -/
abbrev Holds (l : DLList Addr Item) (cells : List (Addr × DLLElement Addr Item)) : Prop :=
  Chain DLLElement.next l.heap l.first l.last cells

def items (cells : List (Addr × DLLElement Addr Item)) : List (Option Item) :=
  cells.map (·.2.item)

omit [DecidableEq Addr] in
theorem isEmpty_iff (hl : l.Holds cells) : l.isEmpty = true ↔ cells = [] := by
  rw [isEmpty, decide_eq_true_iff, hl.eq_nil_iff, hl.eq_nil_iff_last, and_self]

theorem write_of_some (ha : l.heap a = some n) (f : DLLElement Addr Item → DLLElement Addr Item) :
    l.write (some a) f = some { l with heap := Function.update l.heap a (some (f n)) } := by
  simp only [write, ha]

theorem holds_new (hl : l.Holds cells) (ha : l.heap a = none) (item : Option Item) (k : ℤ) :
    (l.new a item k).Holds cells :=
  hl.of_free ha fun x hx => by simp [new, hx]

theorem new_heap_self (item : Option Item) (k : ℤ) :
    (l.new a item k).heap a = some ⟨none, none, k, item⟩ := by
  simp [new]

omit [DecidableEq Addr] in
theorem ne_of_new (hl : l.Holds cells) (ha : l.heap a = none) {c : Addr × DLLElement Addr Item}
    (hc : c ∈ cells) : c.1 ≠ a := by
  rintro rfl
  exact hl.seg.ne_of_free ha (List.mem_map_of_mem hc)

omit [DecidableEq Addr] in
theorem isEmpty_eq_false (hl : l.Holds cells) (hne : cells ≠ []) : l.isEmpty = false := by
  rwa [Bool.eq_false_iff, Ne, isEmpty_iff hl]

/-! ### `Append`, `Prepend` and `Remove` -/

theorem append_of_last (hfull : l.isEmpty = false) (hlast : l.last = some b)
    (hb : l.heap b = some m) (hne : b ≠ a) :
    l.append a item = some ⟨Function.update (Function.update (l.new a item 1).heap b
      (some { m with next := some a })) a (some ⟨some b, none, 1, item⟩), l.first, some a⟩ := by
  have hfull' : (l.new a item 1).isEmpty = false := hfull
  have hb' : (l.new a item 1).heap b = some m := by simp [new, hne, hb]
  have hlast' : (l.new a item 1).last = some b := hlast
  simp only [append, hfull', Bool.false_eq_true, if_false, hlast', write_of_some hb',
    Option.bind_eq_bind, Option.bind_some]
  rw [write_of_some (n := ⟨none, none, 1, item⟩)]
  · rfl
  · simp [Ne.symm hne, new_heap_self]

theorem append_holds (hl : l.Holds cells) (ha : l.heap a = none) (item : Option Item) :
    ∃ l' cells', l.append a item = some l' ∧ l'.Holds cells' ∧
      items cells' = items cells ++ [item] := by
  rcases hl.cases_last with ⟨rfl, -, -⟩ | ⟨l₀, b, m, rfl, hlast, hb, -⟩
  · have hnil : (l.new a item 1).isEmpty = true := (isEmpty_iff hl).mpr rfl
    exact ⟨{ l.new a item 1 with first := some a, last := some a }, _,
      by simp only [append, hnil, if_true], .single (new_heap_self item 1) rfl, rfl⟩
  · have hne : b ≠ a := ne_of_new hl ha (c := (b, m)) (by simp)
    refine ⟨_, l₀ ++ [(b, { m with next := some a }), (a, ⟨some b, none, 1, item⟩)],
      append_of_last (isEmpty_eq_false hl (by simp)) hlast hb hne, ?_, by simp [items]⟩
    refine hl.push_back ha ?_ ?_ rfl rfl fun x hxa hxb => ?_
    · simp
    · simp [hne]
    · simp [hxa, hxb, new]

theorem prepend_of_first {p : Addr} (hfirst : l.first = some p) (hp : l.heap p = some n)
    (hne : p ≠ a) :
    l.prepend a item = some ⟨Function.update (Function.update (l.new a item (n.key - 1)).heap p
      (some { n with prev := some a })) a (some ⟨none, some p, n.key - 1, item⟩), some a,
      l.last⟩ := by
  have hp' : (l.new a item (n.key - 1)).heap p = some n := by simp [new, hne, hp]
  have hfirst' : (l.new a item (n.key - 1)).first = some p := hfirst
  simp only [prepend, hfirst, hp, hfirst', write_of_some hp', Option.bind_eq_bind,
    Option.bind_some]
  rw [write_of_some (n := ⟨none, none, n.key - 1, item⟩)]
  · rfl
  · simp [Ne.symm hne, new_heap_self]

theorem prepend_cons {q : Addr} (hl : l.Holds ((q, n) :: cells)) (ha : l.heap a = none)
    (item : Option Item) :
    ∃ l', l.prepend a item = some l' ∧
      l'.Holds ((a, ⟨none, some q, n.key - 1, item⟩) :: (q, { n with prev := some a }) :: cells) ∧
      ∀ x, x ≠ a → x ≠ q → l'.heap x = l.heap x := by
  obtain ⟨hfirst, hq, -⟩ := hl.seg
  have hne : q ≠ a := ne_of_new hl ha (c := (q, n)) (by simp)
  refine ⟨_, prepend_of_first hfirst hq hne, ?_, fun x hxa hxq => by simp [hxa, hxq, new]⟩
  -- the write to `first->prev`, then the new element in front
  have hprev : Chain DLLElement.next (Function.update (l.new a item (n.key - 1)).heap q
      (some { n with prev := some a })) l.first l.last ((q, { n with prev := some a }) :: cells) :=
    (holds_new hl ha item (n.key - 1)).touch [] (by simp) rfl fun x hx => by simp [hx]
  have hmem : a ∉ ((q, n) :: cells).map Prod.fst := hl.seg.ne_of_free ha
  simpa using hprev.push_front (by simpa using hmem) (by simp) hfirst.symm
    fun x hx => by simp [hx]

theorem prepend_holds (hl : l.Holds cells) (ha : l.heap a = none) (item : Option Item) :
    ∃ l' cells', l.prepend a item = some l' ∧ l'.Holds cells' ∧
      items cells' = item :: items cells := by
  cases cells with
  | nil =>
    have hfirst : l.first = none := hl.first_eq
    exact ⟨{ l.new a item 1 with first := some a, last := some a }, _,
      by simp only [prepend, hfirst], .single (new_heap_self item 1) rfl, rfl⟩
  | cons c cells =>
    obtain ⟨l', hpre, hl', -⟩ := prepend_cons hl ha item
    exact ⟨l', _, hpre, hl', rfl⟩

theorem remove_holds (hl : l.Holds ((a, n) :: cells)) :
    ∃ l', l.remove = some (n.item, n.key, l') ∧ l'.Holds cells := by
  obtain ⟨hfirst, ha, hseg⟩ := hl.seg
  have hpop : Chain DLLElement.next (Function.update l.heap a none) n.next
      (if cells = [] then none else l.last) cells := hl.pop_front fun x hx => by simp [hx]
  by_cases hone : cells = []
  · subst hone
    have hlast : l.first = l.last := hl.first_eq_last_iff.mpr rfl
    have hnext : n.next = none := hseg
    refine ⟨⟨Function.update l.heap a none, none, none⟩, ?_, .nil⟩
    simp [remove, hfirst, ha, ← hlast, hnext]
  · have hlast : ¬ (l.first = l.last ∧ n.next = none) :=
      fun h => hone (hl.first_eq_last_iff.mp h.1)
    refine ⟨⟨Function.update l.heap a none, n.next, l.last⟩, ?_, ?_⟩
    · rw [hfirst] at hlast
      simp only [remove, hfirst, ha, Option.bind_eq_bind, Option.bind_some, hlast, if_false]
    · simpa [hone] using hpop

end Coursework.Nachos.DLList
