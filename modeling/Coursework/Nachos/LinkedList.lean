import Coursework.Lib.Chain
import Mathlib.Data.Option.Basic
import Mathlib.Data.Int.Notation

/-!
# The kernel's list of `list.cc`

The elements live in a heap and the list is its `first` and `last` pointers. An
operation is `none` when it follows a pointer to no element. `new` takes an address
that the caller of the model supplies; it must be free.
-/
namespace Coursework.Nachos

variable {Addr Item : Type} [DecidableEq Addr]

/-- `class ListElement`; the item is a `void *`, with `none` for `NULL`. -/
structure ListElement (Addr Item : Type) where
  next : Option Addr
  key : ℤ
  item : Option Item
  deriving DecidableEq

/-- `class List`. -/
structure LinkedList (Addr Item : Type) where
  heap : Addr → Option (ListElement Addr Item)
  first : Option Addr
  last : Option Addr

namespace LinkedList

def isEmpty (l : LinkedList Addr Item) : Bool := l.first = none

def append (l : LinkedList Addr Item) (element : Addr) (item : Option Item) :
    Option (LinkedList Addr Item) :=
  let heap := Function.update l.heap element (some ⟨none, 0, item⟩)
  if l.isEmpty then some ⟨heap, some element, some element⟩
  else do
    let last ← l.last
    let e ← heap last
    some ⟨Function.update heap last (some { e with next := some element }), l.first, some element⟩

def prepend (l : LinkedList Addr Item) (element : Addr) (item : Option Item) :
    LinkedList Addr Item :=
  let heap := Function.update l.heap element (some ⟨none, 0, item⟩)
  if l.isEmpty then ⟨heap, some element, some element⟩
  else ⟨Function.update heap element (some ⟨l.first, 0, item⟩), some element, l.last⟩

/-- The removed item, the key stored through `keyPtr`, and the list. -/
def sortedRemove (l : LinkedList Addr Item) :
    Option (Option Item × Option ℤ × LinkedList Addr Item) :=
  if l.isEmpty then some (none, none, l)
  else do
    let element ← l.first
    let e ← l.heap element
    let heap := Function.update l.heap element none
    some (e.item, some e.key,
      if l.first = l.last then ⟨heap, none, none⟩ else ⟨heap, e.next, l.last⟩)

def remove (l : LinkedList Addr Item) : Option (Option Item × LinkedList Addr Item) :=
  l.sortedRemove.map fun (thing, _, l') => (thing, l')

/-- The list holds these cells, in this order. -/
abbrev Holds (l : LinkedList Addr Item) (cells : List (Addr × ListElement Addr Item)) : Prop :=
  Chain ListElement.next l.heap l.first l.last cells

def items (cells : List (Addr × ListElement Addr Item)) : List (Option Item) :=
  cells.map (·.2.item)

/-- The items with their keys. -/
def entries (cells : List (Addr × ListElement Addr Item)) : List (ℤ × Option Item) :=
  cells.map fun c => (c.2.key, c.2.item)

variable {l : LinkedList Addr Item} {cells : List (Addr × ListElement Addr Item)} {a : Addr}
  {n : ListElement Addr Item} {item : Option Item}

omit [DecidableEq Addr] in
theorem isEmpty_iff (hl : l.Holds cells) : l.isEmpty = true ↔ cells = [] := by
  rw [isEmpty, decide_eq_true_iff]
  exact hl.eq_nil_iff

theorem append_of_empty (hfirst : l.first = none) :
    l.append a item =
      some ⟨Function.update l.heap a (some ⟨none, 0, item⟩), some a, some a⟩ := by
  simp [append, isEmpty, hfirst]

theorem append_of_last {b : Addr} (hfull : l.isEmpty = false) (hlast : l.last = some b)
    (hb : l.heap b = some n) (hne : b ≠ a) :
    l.append a item =
      some ⟨Function.update (Function.update l.heap a (some ⟨none, 0, item⟩)) b
        (some { n with next := some a }), l.first, some a⟩ := by
  simp [append, hfull, hlast, hne, hb]

omit [DecidableEq Addr] in
theorem items_eq (cells : List (Addr × ListElement Addr Item)) :
    items cells = (entries cells).map Prod.snd := by
  rw [entries, List.map_map]
  rfl

theorem append_entries (hl : l.Holds cells) (ha : l.heap a = none) (item : Option Item) :
    ∃ l' cells', l.append a item = some l' ∧ l'.Holds cells' ∧
      entries cells' = entries cells ++ [(0, item)] := by
  rcases hl.cases_last with ⟨rfl, hfirst, hlast⟩ | ⟨l₀, b, m, rfl, hlast, hb, -⟩
  · exact ⟨_, [(a, ⟨none, 0, item⟩)], append_of_empty hfirst, .single (by simp) rfl, rfl⟩
  · have hne : b ≠ a := by
      rintro rfl
      rw [hb] at ha
      cases ha
    have hfull : l.isEmpty = false := by
      rw [Bool.eq_false_iff, Ne, isEmpty_iff hl]
      simp
    refine ⟨_, l₀ ++ [(b, { m with next := some a }), (a, ⟨none, 0, item⟩)],
      append_of_last hfull hlast hb hne, ?_, by simp [entries]⟩
    refine hl.push_back ha ?_ ?_ rfl rfl fun x hxa hxb => ?_
    · simp [Ne.symm hne]
    · simp
    · simp [hxa, hxb]

theorem append_holds (hl : l.Holds cells) (ha : l.heap a = none) (item : Option Item) :
    ∃ l' cells', l.append a item = some l' ∧ l'.Holds cells' ∧
      items cells' = items cells ++ [item] := by
  obtain ⟨l', cells', happ, hl', hentries⟩ := append_entries hl ha item
  refine ⟨l', cells', happ, hl', ?_⟩
  rw [items_eq, items_eq, hentries, List.map_append]
  rfl

theorem prepend_holds (hl : l.Holds cells) (ha : l.heap a = none) (item : Option Item) :
    ∃ cells', (l.prepend a item).Holds cells' ∧ entries cells' = (0, item) :: entries cells := by
  cases cells with
  | nil =>
    rw [prepend, if_pos ((isEmpty_iff hl).mpr rfl)]
    exact ⟨[(a, ⟨none, 0, item⟩)], .single (by simp) rfl, rfl⟩
  | cons c cells =>
    have hfull : l.isEmpty = false := by
      rw [Bool.eq_false_iff, Ne, isEmpty_iff hl]
      simp
    have hpush := hl.push_front (n := ⟨l.first, 0, item⟩) (hl.seg.ne_of_free ha)
      (Function.update_self a _ l.heap) rfl fun x hx => Function.update_of_ne hx ..
    refine ⟨(a, ⟨l.first, 0, item⟩) :: c :: cells, ?_, rfl⟩
    simpa [prepend, hfull] using hpush

theorem sortedRemove_cons (hl : l.Holds ((a, n) :: cells)) :
    ∃ l', l.sortedRemove = some (n.item, some n.key, l') ∧ l'.Holds cells := by
  have hfull : l.isEmpty = false := by
    rw [Bool.eq_false_iff, Ne, isEmpty_iff hl]
    simp
  have hpop : Chain ListElement.next (Function.update l.heap a none) n.next
      (if cells = [] then none else l.last) cells := hl.pop_front fun x hx => by simp [hx]
  obtain ⟨hfirst, ha, hseg⟩ := hl.seg
  by_cases hlast : l.first = l.last
  · refine ⟨⟨Function.update l.heap a none, none, none⟩, ?_, ?_⟩
    · simp [sortedRemove, hfull, hfirst, ha, ← hlast]
    · obtain rfl := hl.first_eq_last_iff.mp hlast
      exact .nil
  · refine ⟨⟨Function.update l.heap a none, n.next, l.last⟩, ?_, ?_⟩
    · simp [sortedRemove, hfull, hfirst ▸ hlast, hfirst, ha]
    · have hne : cells ≠ [] := fun h => hlast (hl.first_eq_last_iff.mpr h)
      simpa [hne] using hpop

theorem remove_cons (hl : l.Holds ((a, n) :: cells)) :
    ∃ l', l.remove = some (n.item, l') ∧ l'.Holds cells := by
  obtain ⟨l', hremove, hl'⟩ := sortedRemove_cons hl
  exact ⟨l', by rw [remove, hremove]; rfl, hl'⟩

end LinkedList
end Coursework.Nachos
