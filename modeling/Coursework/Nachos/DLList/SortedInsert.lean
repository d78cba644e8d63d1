import Coursework.Lib.Agenda
import Coursework.Nachos.DLList.Insert
import Coursework.Nachos.DLList.Links
import Coursework.Nachos.LinkedList.Sorted

/-!
# `SortedInsert` of a `DLList` and of a `List`

Both walk to the first key that is greater than the new one, and leave the same sequence.
-/
namespace Coursework.Nachos.DLList

variable {Addr Addr' Item : Type} [DecidableEq Addr] [DecidableEq Addr'] {l l' : DLList Addr Item}
  {cells : List (Addr × DLLElement Addr Item)} {a b : Addr} {item : Option Item} {sortKey : ℤ}
  {rounds : ℕ}

/-- The items with their keys. -/
def entries (cells : List (Addr × DLLElement Addr Item)) : List (ℤ × Option Item) :=
  cells.map fun c => (c.2.key, c.2.item)

omit [DecidableEq Addr] in
theorem entries_append (l₁ l₂ : List (Addr × DLLElement Addr Item)) :
    entries (l₁ ++ l₂) = entries l₁ ++ entries l₂ := List.map_append

omit [DecidableEq Addr] in
/-- The new entry is behind the elements whose keys are not greater. -/
theorem insertByKey_entries {l₁ l₂ : List (Addr × DLLElement Addr Item)} (item : Option Item)
    (hbefore : ∀ x ∈ l₁, x.2.key ≤ sortKey) (hafter : ∀ y ∈ l₂.head?, sortKey < y.2.key) :
    insertByKey (sortKey, item) (entries (l₁ ++ l₂)) =
      entries l₁ ++ (sortKey, item) :: entries l₂ := by
  rw [entries_append]
  apply insertByKey_append
  · intro x hx
    obtain ⟨y, hy, rfl⟩ := List.mem_map.mp hx
    exact hbefore y hy
  · intro y hy
    cases l₂ with
    | nil => cases hy
    | cons z l₂ =>
      cases hy
      exact hafter z rfl

theorem sortedInsert_linked (hl : l.Linked cells) (ha : l.heap a = none) (item : Option Item)
    (sortKey : ℤ) (hr : cells.length ≤ rounds) :
    ∃ l' cells', l.sortedInsert a item sortKey rounds = some (some l') ∧ l'.Linked cells' ∧
      entries cells' = insertByKey (sortKey, item) (entries cells) := by
  obtain ⟨f, hfind⟩ :=
    Option.isSome_iff_exists.mp (sortedInsert_isSome hl.forward ha item sortKey hr)
  rw [sortedInsert] at hfind ⊢
  obtain ⟨f, hf, -⟩ := Option.map_eq_some_iff.mp hfind
  have hl' := holds_new hl.forward ha item sortKey
  rw [hf, Option.map_some]
  cases cells with
  | nil =>
    rw [find_nil hl'] at hf
    cases hf
    exact ⟨_, _, rfl, linked_only item sortKey, rfl⟩
  | cons d cells =>
    rcases d with ⟨q, n⟩
    rw [find_cons hl'] at hf
    split_ifs at hf with hk
    · cases hf
      obtain ⟨l', hlink, hput⟩ := link_front hl.forward ha item sortKey
      refine ⟨l', _, congrArg some hlink, hput.linked hl ha, ?_⟩
      exact (insertByKey_cons_of_lt hk).symm
    · obtain ⟨l₁, b, m, l₂, hsplit, hbefore, hafter, rfl⟩ := search_first [] hl' (not_lt.mp hk) hf
      rw [hsplit] at hl ⊢
      have hentries := insertByKey_entries item hbefore hafter
      rw [List.append_assoc, List.singleton_append] at hentries
      cases l₂ with
      | nil =>
        obtain ⟨l', hlink, hput⟩ := link_tail hl.forward ha item sortKey
        refine ⟨l', _, congrArg some hlink, hput.linked hl ha, ?_⟩
        rw [hentries]
        simp [entries]
      | cons c l₂ =>
        obtain ⟨l', hlink, hput⟩ := link_middle hl.forward ha item sortKey
        refine ⟨l', _, congrArg some hlink, hput.linked hl ha, ?_⟩
        rw [hentries]
        simp [entries]

/-! ### The code that threads run -/

/-- A thread that is alone at its `Yield` goes on with the list that it left. -/
theorem code_sortedInsert {l' : DLList Addr Item} (calls : Op → Bool) (yields : Bool)
    (ha : l.heap a = none) (h : l.sortedInsert a item sortKey rounds = some (some l')) :
    (∃ x k, code calls yields (.inserting item sortKey) l (.new a rounds) = some (x, k, l')) ∨
      ∃ x p l₁, code calls yields (.inserting item sortKey) l (.new a rounds) =
          some (x, .yielded item a p, l₁) ∧
        ∀ n garbage, ∃ x' k, code calls yields (.yielded item a p) l₁ (.go n garbage) =
          some (x', k, l') := by
  have hnone : ¬ (l.heap a).isSome := by simp [ha]
  rw [sortedInsert] at h
  obtain ⟨f, hfind, hf⟩ := Option.map_eq_some_iff.mp h
  simp only [code, if_neg hnone, hfind, Option.map_some]
  cases f with
  | empty =>
    cases hf
    exact .inl ⟨_, _, rfl⟩
  | fault => cases hf
  | place p =>
    obtain ⟨l₁, hnew, hto⟩ := Option.bind_eq_some_iff.mp hf
    have hfinish : ∃ x k, finish l₁ a p = (x, k, l') := by
      rw [linkTo_of_finish hto]
      split_ifs
      · exact ⟨_, _, rfl⟩
      · exact ⟨_, _, rfl⟩
    cases yields with
    | false =>
      left
      obtain ⟨x, k, hx⟩ := hfinish
      exact ⟨x, k, by simp only [insert, hnew, hx, Bool.false_eq_true, if_false]⟩
    | true =>
      right
      refine ⟨.pause, p, l₁, by simp only [insert, hnew, if_true], fun _ _ => ?_⟩
      obtain ⟨x, k, hx⟩ := hfinish
      exact ⟨x, k, congrArg some hx⟩

/-! ### Both lists -/

/-- On lists with the same sequence, sorted or not, both versions leave the same sequence, and the
`DLList` stays linked both ways; where the sequence is sorted it stays so, with the new item behind
all items with its key. -/
theorem sortedInserts_agree {m : LinkedList Addr' Item}
    {cells₀ : List (Addr' × ListElement Addr' Item)} (item : Option Item) (sortKey : ℤ)
    (hl : l.Linked cells) (hm : m.Holds cells₀) (hsame : LinkedList.entries cells₀ = entries cells)
    (ha : l.heap a = none) {b : Addr'} (hb : m.heap b = none) (hr : cells.length ≤ rounds) :
    ∃ l' cells' m' cells₁, l.sortedInsert a item sortKey rounds = some (some l') ∧
      m.sortedInsert rounds b item sortKey = some m' ∧ l'.Linked cells' ∧ m'.Holds cells₁ ∧
      entries cells' = LinkedList.entries cells₁ ∧ l'.Proper ∧
      l'.first = (cells'.map Prod.fst).head? ∧ l'.last = (cells'.map Prod.fst).getLast? ∧
      (KeySorted (entries cells) → KeySorted (entries cells') ∧
        ∃ l₁ l₂, entries cells = l₁ ++ l₂ ∧ entries cells' = l₁ ++ (sortKey, item) :: l₂ ∧
          (∀ x ∈ l₁, x.1 ≤ sortKey) ∧ ∀ y ∈ l₂, sortKey < y.1) := by
  obtain ⟨l', cells', hins, hl', hentries⟩ := sortedInsert_linked hl ha item sortKey hr
  have hlen : cells₀.length ≤ rounds := by
    have hlen := congrArg List.length hsame
    rw [LinkedList.entries, entries, List.length_map, List.length_map] at hlen
    omega
  obtain ⟨m', cells₁, hins', hm', hentries'⟩ :=
    LinkedList.sortedInsert_holds hm hb item sortKey hlen
  refine ⟨l', cells', m', cells₁, hins, hins', hl', hm', ?_, hl'.proper, hl'.forward.first_eq,
    hl'.forward.last_eq, fun hsorted => ?_⟩
  · rw [hentries, hentries', hsame]
  · rw [hentries]
    exact ⟨hsorted.insert, hsorted.insert_split (sortKey, item)⟩

/-- Two elements with the key 3, in both kinds of list. -/
def twoAlike : DLList ℕ ℕ where
  heap x := if x = 1 then some ⟨none, some 2, 3, some 7⟩
    else if x = 2 then some ⟨some 1, none, 3, some 8⟩ else none
  first := some 1
  last := some 2

def twoAlikeList : LinkedList ℕ ℕ where
  heap x := if x = 1 then some ⟨some 2, 3, some 7⟩
    else if x = 2 then some ⟨none, 3, some 8⟩ else none
  first := some 1
  last := some 2

theorem sortedInserts_agree_twoAlike :
    ∃ l' cells' m', twoAlike.sortedInsert 5 (some 9) 3 2 = some (some l') ∧
      twoAlikeList.sortedInsert 2 5 (some 9) 3 = some m' ∧ l'.Linked cells' ∧
      KeySorted (entries cells') := by
  have hl : twoAlike.Linked [(1, ⟨none, some 2, 3, some 7⟩), (2, ⟨some 1, none, 3, some 8⟩)] :=
    ⟨⟨⟨rfl, rfl, rfl, rfl, rfl⟩, by decide, rfl⟩, ⟨⟨rfl, rfl, rfl, rfl, rfl⟩, by decide, rfl⟩⟩
  have hm : twoAlikeList.Holds [(1, ⟨some 2, 3, some 7⟩), (2, ⟨none, 3, some 8⟩)] :=
    ⟨⟨rfl, rfl, rfl, rfl, rfl⟩, by decide, rfl⟩
  obtain ⟨l', cells', m', -, hins, hins', hl', -, -, -, -, -, hsorted⟩ :=
    sortedInserts_agree (a := 5) (b := 5) (some 9) 3 hl hm rfl rfl rfl (le_refl 2)
  exact ⟨l', cells', m', hins, hins', hl', (hsorted (by simp [KeySorted, entries])).1⟩

end Coursework.Nachos.DLList
