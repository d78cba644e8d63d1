import Coursework.Nachos.DLList.Queue
import Coursework.Lib.TwoWay

/-!
# One thread and one `DLList`

A thread that is alone calls `Prepend`, `Append`, `SortedInsert` and `Remove` one after the
other. The lock is left out: a `SortedInsert` that does not reach the end of the list keeps it,
and of the calls after that one only `Prepend`, which takes no lock, comes back. What a call does
to the elements is said once for each place where an element is linked; the walks along `next` and
along `prev` follow from it.
-/
namespace Coursework.Nachos.DLList

variable {Addr Item : Type} [DecidableEq Addr]

/-- The calls; `newnode` is the address that `new` finds, and `rounds` bounds the loop. -/
inductive Operation (Addr Item : Type) where
  | prepend (item : Option Item) (newnode : Addr)
  | append (item : Option Item) (newnode : Addr)
  | sortedInsert (item : Option Item) (sortKey : ℤ) (newnode : Addr) (rounds : ℕ)
  | remove
  deriving DecidableEq

/-- `SortedInsert` of a thread that nobody interrupts; the inner `none` is a pointer to no element
that is followed. -/
def sortedInsert (l : DLList Addr Item) (newnode : Addr) (item : Option Item) (sortKey : ℤ)
    (rounds : ℕ) : Option (Option (DLList Addr Item)) :=
  let l := l.new newnode item sortKey
  (l.find sortKey rounds).map fun
    | .empty => some { l with first := some newnode, last := some newnode }
    | .place p => (l.linkNew newnode p).bind fun l => l.linkTo newnode p
    | .fault => none

/-- `none` where the call does not come back: `Remove` waits for an element. A wait for the lock
is not in it. -/
def apply (l : DLList Addr Item) : Operation Addr Item → Option (Option (DLList Addr Item))
  | .prepend item newnode => if (l.heap newnode).isSome then none else some (l.prepend newnode item)
  | .append item newnode => if (l.heap newnode).isSome then none else some (l.append newnode item)
  | .sortedInsert item sortKey newnode rounds =>
    if (l.heap newnode).isSome then none else l.sortedInsert newnode item sortKey rounds
  | .remove => if l.isEmpty then none else some (l.remove.map fun r => r.2.2)

/-- The calls on a new list; `none` is the state after a pointer to no element was followed. After
a `SortedInsert` at the front or in the middle the program has fewer runs than these: the lock is
not free. -/
def sequence : Machine (Option (DLList Addr Item)) (Operation Addr Item) where
  init s := ∃ l, s = some l ∧ New l
  step s e := s.bind fun l => l.apply e

variable {l l' : DLList Addr Item} {cells l₀ l₁ l₂ : List (Addr × DLLElement Addr Item)}
  {a b c : Addr} {k m n : DLLElement Addr Item} {item : Option Item} {sortKey : ℤ} {rounds : ℕ}

/-- The list holds these elements, and both walks find them. -/
abbrev Linked (l : DLList Addr Item) (cells : List (Addr × DLLElement Addr Item)) : Prop :=
  TwoWay DLLElement.next DLLElement.prev l.heap l.first l.last cells

/-! ### Where a new element goes -/

/-- `l'` has a new element at `a` behind the element at `b`, which was the last one. -/
structure PutBack (l : DLList Addr Item) (a : Addr) (sortKey : ℤ) (item : Option Item) (b : Addr)
    (m : DLLElement Addr Item) (l' : DLList Addr Item) : Prop where
  first : l'.first = l.first
  last : l'.last = some a
  new : l'.heap a = some ⟨some b, none, sortKey, item⟩
  old : l'.heap b = some { m with next := some a }
  frame : ∀ x, x ≠ a → x ≠ b → l'.heap x = l.heap x

/-- `l'` has a new element at `a` before the element at `b`, which was the first one. -/
structure PutFront (l : DLList Addr Item) (a : Addr) (sortKey : ℤ) (item : Option Item) (b : Addr)
    (m : DLLElement Addr Item) (l' : DLList Addr Item) : Prop where
  first : l'.first = some a
  last : l'.last = l.last
  new : l'.heap a = some ⟨none, some b, sortKey, item⟩
  old : l'.heap b = some { m with prev := some a }
  frame : ∀ x, x ≠ a → x ≠ b → l'.heap x = l.heap x

/-- `l'` has a new element at `a` between the elements at `b` and `c`. -/
structure PutBetween (l : DLList Addr Item) (a : Addr) (sortKey : ℤ) (item : Option Item)
    (b : Addr) (m : DLLElement Addr Item) (c : Addr) (k : DLLElement Addr Item)
    (l' : DLList Addr Item) : Prop where
  first : l'.first = l.first
  last : l'.last = l.last
  new : l'.heap a = some ⟨some b, some c, sortKey, item⟩
  before : l'.heap b = some { m with next := some a }
  behind : l'.heap c = some { k with prev := some a }
  frame : ∀ x, x ≠ a → x ≠ b → x ≠ c → l'.heap x = l.heap x

omit [DecidableEq Addr] in
theorem PutBack.holds (hp : PutBack l a sortKey item b m l') (hl : l.Holds (l₀ ++ [(b, m)]))
    (ha : l.heap a = none) :
    l'.Holds (l₀ ++ [(b, { m with next := some a }), (a, ⟨some b, none, sortKey, item⟩)]) := by
  rw [Holds, hp.first, hp.last]
  exact hl.push_back ha hp.new hp.old rfl rfl hp.frame

omit [DecidableEq Addr] in
theorem PutBack.linked (hp : PutBack l a sortKey item b m l') (hl : l.Linked (l₀ ++ [(b, m)]))
    (ha : l.heap a = none) :
    l'.Linked (l₀ ++ [(b, { m with next := some a }), (a, ⟨some b, none, sortKey, item⟩)]) := by
  rw [Linked, hp.first, hp.last]
  exact hl.push_back ha hp.new hp.old rfl rfl rfl rfl hp.frame

theorem PutFront.holds (hp : PutFront l a sortKey item b m l') (hl : l.Holds ((b, m) :: l₀))
    (ha : l.heap a = none) :
    l'.Holds ((a, ⟨none, some b, sortKey, item⟩) :: (b, { m with prev := some a }) :: l₀) := by
  have hmem := hl.seg.ne_of_free ha
  -- the write to `first->prev`, then the new element in front
  have htouch : Chain DLLElement.next (Function.update l.heap b (some { m with prev := some a }))
      l.first l.last ((b, { m with prev := some a }) :: l₀) :=
    hl.touch [] (Function.update_self ..) rfl fun x hx => Function.update_of_ne hx _ _
  have hpush := htouch.push_front (a := a) (by simpa using hmem) hp.new
    hl.seg.1.symm fun x hxa => by
      by_cases hxb : x = b
      · rw [hxb, hp.old, Function.update_self]
      · rw [hp.frame x hxa hxb, Function.update_of_ne hxb]
  rw [Holds, hp.first, hp.last]
  simpa using hpush

section
omit [DecidableEq Addr]

theorem PutFront.linked (hp : PutFront l a sortKey item b m l') (hl : l.Linked ((b, m) :: l₀))
    (ha : l.heap a = none) :
    l'.Linked ((a, ⟨none, some b, sortKey, item⟩) :: (b, { m with prev := some a }) :: l₀) := by
  rw [Linked, hp.first, hp.last]
  exact hl.push_front ha hp.new hp.old rfl rfl rfl rfl hp.frame

theorem PutBetween.holds (hp : PutBetween l a sortKey item b m c k l')
    (hl : l.Holds (l₁ ++ (b, m) :: (c, k) :: l₂)) (ha : l.heap a = none) :
    l'.Holds (l₁ ++ (b, { m with next := some a }) :: (a, ⟨some b, some c, sortKey, item⟩) ::
      (c, { k with prev := some a }) :: l₂) := by
  rw [Holds, hp.first, hp.last]
  exact hl.insert_between (hl.seg.ne_of_free ha) hp.new hp.before hp.behind rfl rfl rfl hp.frame

theorem PutBetween.linked (hp : PutBetween l a sortKey item b m c k l')
    (hl : l.Linked (l₁ ++ (b, m) :: (c, k) :: l₂)) (ha : l.heap a = none) :
    l'.Linked (l₁ ++ (b, { m with next := some a }) :: (a, ⟨some b, some c, sortKey, item⟩) ::
      (c, { k with prev := some a }) :: l₂) := by
  rw [Linked, hp.first, hp.last]
  exact hl.insert_between ha hp.new hp.before hp.behind rfl rfl rfl rfl rfl rfl hp.frame

end

/-! ### What the calls do -/

theorem append_nil (hl : l.Holds []) (a : Addr) (item : Option Item) :
    l.append a item = some { l.new a item 1 with first := some a, last := some a } := by
  have hempty : (l.new a item 1).isEmpty = true := (isEmpty_iff hl).mpr rfl
  simp only [append, hempty, if_true]

theorem append_putBack (hl : l.Holds (l₀ ++ [(b, m)])) (ha : l.heap a = none)
    (item : Option Item) : ∃ l', l.append a item = some l' ∧ PutBack l a 1 item b m l' := by
  rcases hl.cases_last with ⟨hnil, -, -⟩ | ⟨l₁, b', m', hcells, hlast, hb, -⟩
  · simp at hnil
  · obtain ⟨-, heq⟩ := List.append_inj' hcells rfl
    cases heq
    have hne : b ≠ a := ne_of_new hl ha (c := (b, m)) (by simp)
    refine ⟨_, append_of_last (isEmpty_eq_false hl (by simp)) hlast hb hne, rfl, rfl, ?_, ?_, ?_⟩
    · simp
    · simp [hne]
    · intro x hxa hxb
      simp [hxa, hxb, DLList.new]

theorem prepend_nil (hl : l.Holds []) (a : Addr) (item : Option Item) :
    l.prepend a item = some { l.new a item 1 with first := some a, last := some a } := by
  have hfirst : l.first = none := hl.first_eq
  simp only [prepend, hfirst]

theorem prepend_putFront (hl : l.Holds ((b, m) :: l₀)) (ha : l.heap a = none)
    (item : Option Item) :
    ∃ l', l.prepend a item = some l' ∧ PutFront l a (m.key - 1) item b m l' := by
  obtain ⟨hfirst, hb, -⟩ := hl.seg
  have hne : b ≠ a := ne_of_new hl ha (c := (b, m)) (by simp)
  refine ⟨_, prepend_of_first hfirst hb hne, rfl, rfl, ?_, ?_, ?_⟩
  · simp
  · simp [hne]
  · intro x hxa hxb
    simp [hxa, hxb, DLList.new]

/-- Where the loop of `SortedInsert` ends, when it has passed no key above `sortKey`. -/
inductive Stop (sortKey : ℤ) : List (Addr × DLLElement Addr Item) → Found Addr → Prop where
  | middle (l₁ l₂ : List (Addr × DLLElement Addr Item)) {b c : Addr} {m k : DLLElement Addr Item}
      (hm : m.key ≤ sortKey) (hk : sortKey < k.key) :
      Stop sortKey (l₁ ++ (b, m) :: (c, k) :: l₂) (.place (.middle b))
  | tail (l₁ : List (Addr × DLLElement Addr Item)) {b : Addr} {m : DLLElement Addr Item}
      (hm : m.key ≤ sortKey) : Stop sortKey (l₁ ++ [(b, m)]) (.place .tail)

section
omit [DecidableEq Addr]

/-- The loop passes the elements before the first key above `sortKey`. -/
theorem search_first (l₁ : List (Addr × DLLElement Addr Item)) {f : Found Addr}
    (hl : l.Holds (l₁ ++ (a, n) :: l₂)) (hn : n.key ≤ sortKey)
    (h : l.search sortKey rounds a = some f) :
    ∃ l₃ b m l₄, (a, n) :: l₂ = l₃ ++ (b, m) :: l₄ ∧ (∀ x ∈ l₃ ++ [(b, m)], x.2.key ≤ sortKey) ∧
      (∀ y ∈ l₄.head?, sortKey < y.2.key) ∧
      f = .place (if l₄ = [] then .tail else .middle b) := by
  induction rounds generalizing a n l₁ l₂ with
  | zero => cases h
  | succ rounds ih =>
    have ha : l.heap a = some n := hl.seg.mem (c := (a, n)) (by simp)
    obtain ⟨r, -, -, -, hseg⟩ := seg_append.mp hl.seg
    simp only [search, ha] at h
    cases l₂ with
    | nil =>
      have hend : n.next = none := hseg
      rw [hend] at h
      cases h
      exact ⟨[], a, n, [], rfl, by simpa using hn, nofun, rfl⟩
    | cons c l₂ =>
      rcases c with ⟨q, m⟩
      rcases hseg with ⟨hq, hm, -⟩
      simp only [hq, hm] at h
      split_ifs at h with hk
      · cases h
        refine ⟨[], a, n, (q, m) :: l₂, rfl, by simpa using hn, ?_, rfl⟩
        rintro y ⟨⟩
        exact hk
      · have hl' : l.Holds ((l₁ ++ [(a, n)]) ++ (q, m) :: l₂) := by simpa using hl
        obtain ⟨l₃, b, k, l₄, hsplit, hbefore, hafter, hf⟩ := ih _ hl' (not_lt.mp hk) h
        refine ⟨(a, n) :: l₃, b, k, l₄, by rw [hsplit, List.cons_append], ?_, hafter, hf⟩
        intro x hx
        rcases List.mem_cons.mp hx with rfl | hx
        · exact hn
        · exact hbefore x hx

theorem search_stop (l₁ : List (Addr × DLLElement Addr Item)) {f : Found Addr}
    (hl : l.Holds (l₁ ++ (a, n) :: l₂)) (hn : n.key ≤ sortKey)
    (h : l.search sortKey rounds a = some f) : Stop sortKey (l₁ ++ (a, n) :: l₂) f := by
  obtain ⟨l₃, b, m, l₄, hsplit, hbefore, hafter, rfl⟩ := search_first l₁ hl hn h
  have hm : m.key ≤ sortKey := hbefore (b, m) (by simp)
  rw [hsplit, ← List.append_assoc]
  cases l₄ with
  | nil => exact .tail (l₁ ++ l₃) hm
  | cons c l₄ => exact .middle (l₁ ++ l₃) l₄ hm (hafter c rfl)

theorem find_nil (hl : l.Holds []) : l.find sortKey rounds = some .empty := by
  rw [find, if_pos ((isEmpty_iff hl).mpr rfl)]

theorem find_cons (hl : l.Holds ((a, n) :: cells)) :
    l.find sortKey rounds =
      if sortKey < n.key then some (.place .front) else l.search sortKey rounds a := by
  obtain ⟨hfirst, ha, -⟩ := hl.seg
  simp only [find, isEmpty_eq_false hl (by simp), hfirst, ha, Bool.false_eq_true, if_false]

/-- The loop comes to an end within one round for each element. -/
theorem search_isSome (l₁ : List (Addr × DLLElement Addr Item))
    (hl : l.Holds (l₁ ++ (a, n) :: l₂)) (hrounds : l₂.length < rounds) :
    (l.search sortKey rounds a).isSome := by
  induction rounds generalizing a n l₁ l₂ with
  | zero => exact absurd hrounds (Nat.not_lt_zero _)
  | succ rounds ih =>
    have ha : l.heap a = some n := hl.seg.mem (c := (a, n)) (by simp)
    obtain ⟨r, -, -, -, hseg⟩ := seg_append.mp hl.seg
    simp only [search, ha]
    cases l₂ with
    | nil =>
      have hend : n.next = none := hseg
      rw [hend]
      rfl
    | cons c l₂ =>
      rcases c with ⟨q, m⟩
      rcases hseg with ⟨hq, hm, -⟩
      simp only [hq, hm]
      split_ifs with hk
      · rfl
      · have hl' : l.Holds ((l₁ ++ [(a, n)]) ++ (q, m) :: l₂) := by simpa using hl
        exact ih _ hl' (Nat.lt_of_succ_lt_succ hrounds)

end

/-- The list with the element at `a` replaced. -/
def set (l : DLList Addr Item) (a : Addr) (n : DLLElement Addr Item) : DLList Addr Item :=
  { l with heap := Function.update l.heap a (some n) }

@[simp] theorem set_first : (l.set a n).first = l.first := rfl

@[simp] theorem set_last : (l.set a n).last = l.last := rfl

@[simp] theorem set_heap_self : (l.set a n).heap a = some n := Function.update_self ..

theorem set_heap_of_ne (h : b ≠ a) : (l.set a n).heap b = l.heap b := Function.update_of_ne h _ _

theorem write_eq_set (ha : l.heap a = some n) (f : DLLElement Addr Item → DLLElement Addr Item) :
    l.write (some a) f = some (l.set a (f n)) := write_of_some ha f

theorem new_eq_set (a : Addr) (item : Option Item) (sortKey : ℤ) :
    l.new a item sortKey = l.set a ⟨none, none, sortKey, item⟩ := rfl

theorem link_front (hl : l.Holds ((b, m) :: l₀)) (ha : l.heap a = none) (item : Option Item)
    (sortKey : ℤ) :
    ∃ l', (((l.new a item sortKey).linkNew a .front).bind fun l => l.linkTo a .front) = some l' ∧
      PutFront l a sortKey item b m l' := by
  obtain ⟨hfirst, hb, -⟩ := hl.seg
  have hne : b ≠ a := ne_of_new hl ha (c := (b, m)) (by simp)
  rw [linkNew, new_eq_set, write_eq_set set_heap_self, Option.bind_some, linkTo]
  simp only [set_first, hfirst]
  rw [write_eq_set (n := m) (by rw [set_heap_of_ne hne, set_heap_of_ne hne, hb])]
  refine ⟨_, rfl, rfl, rfl, ?_, ?_, fun x hxa hxb => ?_⟩
  · simp [set_heap_of_ne (Ne.symm hne)]
  · simp
  · simp [set_heap_of_ne, hxa, hxb]

theorem link_middle (hl : l.Holds (l₁ ++ (b, m) :: (c, k) :: l₂)) (ha : l.heap a = none)
    (item : Option Item) (sortKey : ℤ) :
    ∃ l', (((l.new a item sortKey).linkNew a (.middle b)).bind fun l => l.linkTo a (.middle b)) =
      some l' ∧ PutBetween l a sortKey item b m c k l' := by
  obtain ⟨r, -, -, hb, hnext, hc, -⟩ := seg_append.mp hl.seg
  have hba : b ≠ a := ne_of_new hl ha (c := (b, m)) (by simp)
  have hca : c ≠ a := ne_of_new hl ha (c := (c, k)) (by simp)
  have hbc : b ≠ c := by
    rintro rfl
    have hnd := hl.nodup
    simp [List.nodup_append'] at hnd
  have hb₁ : (l.set a ⟨none, none, sortKey, item⟩).heap b = some m := by
    rw [set_heap_of_ne hba, hb]
  rw [linkNew, new_eq_set, hb₁]
  simp only [hnext]
  rw [write_eq_set set_heap_self, Option.bind_some, linkTo, set_heap_of_ne hba, hb₁]
  simp only [Option.bind_eq_bind, Option.bind_some, hnext]
  rw [write_eq_set (n := k) (by rw [set_heap_of_ne hca, set_heap_of_ne hca, hc]), Option.bind_some,
    write_eq_set (n := m) (by rw [set_heap_of_ne hbc, set_heap_of_ne hba, hb₁])]
  refine ⟨_, rfl, rfl, rfl, ?_, ?_, ?_, fun x hxa hxb hxc => ?_⟩
  · simp [set_heap_of_ne, Ne.symm hba, Ne.symm hca]
  · simp
  · simp [set_heap_of_ne (Ne.symm hbc)]
  · simp [set_heap_of_ne, hxa, hxb, hxc]

theorem link_tail (hl : l.Holds (l₀ ++ [(b, m)])) (ha : l.heap a = none) (item : Option Item)
    (sortKey : ℤ) :
    ∃ l', (((l.new a item sortKey).linkNew a .tail).bind fun l => l.linkTo a .tail) = some l' ∧
      PutBack l a sortKey item b m l' := by
  have hba : b ≠ a := ne_of_new hl ha (c := (b, m)) (by simp)
  have hb : l.heap b = some m := hl.seg.mem (c := (b, m)) (by simp)
  have hlast : l.last = some b := by simpa using hl.last_eq
  rw [linkNew, new_eq_set, write_eq_set set_heap_self, Option.bind_some, linkTo]
  simp only [set_last, hlast]
  rw [write_eq_set (n := m) (by rw [set_heap_of_ne hba, set_heap_of_ne hba, hb])]
  refine ⟨_, rfl, rfl, rfl, ?_, ?_, fun x hxa hxb => ?_⟩
  · simp [set_heap_of_ne (Ne.symm hba)]
  · simp
  · simp [set_heap_of_ne, hxa, hxb]

/-- What `SortedInsert` does to a list that holds `cells`. -/
inductive Inserted (l : DLList Addr Item) (a : Addr) (item : Option Item) (sortKey : ℤ) :
    List (Addr × DLLElement Addr Item) → DLList Addr Item → Prop where
  | empty : Inserted l a item sortKey []
      { l.new a item sortKey with first := some a, last := some a }
  | front {b : Addr} {m : DLLElement Addr Item} {l₀ : List (Addr × DLLElement Addr Item)}
      {l' : DLList Addr Item} (hm : sortKey < m.key)
      (hput : PutFront l a sortKey item b m l') : Inserted l a item sortKey ((b, m) :: l₀) l'
  | middle {l₁ l₂ : List (Addr × DLLElement Addr Item)} {b c : Addr} {m k : DLLElement Addr Item}
      {l' : DLList Addr Item} (hm : m.key ≤ sortKey) (hk : sortKey < k.key)
      (hput : PutBetween l a sortKey item b m c k l') :
      Inserted l a item sortKey (l₁ ++ (b, m) :: (c, k) :: l₂) l'
  | tail {l₁ : List (Addr × DLLElement Addr Item)} {b : Addr} {m : DLLElement Addr Item}
      {l' : DLList Addr Item} (hm : m.key ≤ sortKey)
      (hput : PutBack l a sortKey item b m l') : Inserted l a item sortKey (l₁ ++ [(b, m)]) l'

theorem sortedInsert_inserted (hl : l.Holds cells) (ha : l.heap a = none)
    {r : Option (DLList Addr Item)} (h : l.sortedInsert a item sortKey rounds = some r) :
    ∃ l', r = some l' ∧ Inserted l a item sortKey cells l' := by
  rw [sortedInsert] at h
  obtain ⟨f, hfind, hf⟩ := Option.map_eq_some_iff.mp h
  have hl' := holds_new hl ha item sortKey
  cases cells with
  | nil =>
    rw [find_nil hl'] at hfind
    cases hfind
    exact ⟨_, hf.symm, .empty⟩
  | cons d cells =>
    rcases d with ⟨q, m⟩
    rw [find_cons hl'] at hfind
    split_ifs at hfind with hk
    · cases hfind
      obtain ⟨l'', hlink, hput⟩ := link_front hl ha item sortKey
      exact ⟨l'', hf.symm.trans hlink, .front hk hput⟩
    · have hstop := search_stop [] hl' (not_lt.mp hk) hfind
      rw [List.nil_append] at hstop
      generalize (q, m) :: cells = cs at hl hstop
      cases hstop with
      | middle l₁ l₂ hm hk =>
        obtain ⟨l'', hlink, hput⟩ := link_middle hl ha item sortKey
        exact ⟨l'', hf.symm.trans hlink, .middle hm hk hput⟩
      | tail l₁ hm =>
        obtain ⟨l'', hlink, hput⟩ := link_tail hl ha item sortKey
        exact ⟨l'', hf.symm.trans hlink, .tail hm hput⟩

theorem sortedInsert_isSome (hl : l.Holds cells) (ha : l.heap a = none) (item : Option Item)
    (sortKey : ℤ) (hrounds : cells.length ≤ rounds) :
    (l.sortedInsert a item sortKey rounds).isSome := by
  have hl' := holds_new hl ha item sortKey
  rw [sortedInsert, Option.isSome_map]
  cases cells with
  | nil =>
    rw [find_nil hl']
    rfl
  | cons d cells =>
    rcases d with ⟨q, m⟩
    rw [find_cons hl']
    split_ifs with hk
    · rfl
    · exact search_isSome [] hl' hrounds

theorem remove_single (hl : l.Holds [(a, n)]) :
    l.remove = some (n.item, n.key, ⟨Function.update l.heap a none, none, none⟩) := by
  obtain ⟨hfirst, ha, hnext⟩ := hl.seg
  have hlast : l.first = l.last := hl.first_eq_last_iff.mpr rfl
  have hend : n.next = none := hnext
  simp [remove, hfirst, ha, ← hlast, hend]

theorem remove_cons (hl : l.Holds ((a, n) :: (b, m) :: cells)) :
    l.remove = some (n.item, n.key, ⟨Function.update l.heap a none, some b, l.last⟩) := by
  obtain ⟨hfirst, ha, hnext, -⟩ := hl.seg
  simp [remove, hfirst, ha, hnext]

/-- Every call that gets the lock comes back, when `Remove` finds an element and a loop has a round
for each. -/
theorem apply_comes_back (hl : l.Holds cells) :
    (∀ item a, l.heap a = none → (l.apply (.prepend item a)).isSome ∧
      (l.apply (.append item a)).isSome ∧ ∀ sortKey rounds, cells.length ≤ rounds →
        (l.apply (.sortedInsert item sortKey a rounds)).isSome) ∧
    (cells ≠ [] → (l.apply .remove).isSome) := by
  refine ⟨fun item a ha => ?_, fun hne => ?_⟩
  · simp only [apply, ha, Option.isSome_none, Bool.false_eq_true, if_false, Option.isSome_some,
      true_and]
    intro sortKey rounds hrounds
    exact sortedInsert_isSome hl ha item sortKey hrounds
  · simp [apply, isEmpty_eq_false hl hne]

end Coursework.Nachos.DLList
