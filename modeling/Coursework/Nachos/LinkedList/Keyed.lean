import Coursework.Lib.Machine
import Coursework.Nachos.LinkedList.Sorted

/-!
# A `List` is a sequence of items with keys

`Append` and `Prepend` give the key 0. `SortedInsert` puts an item before the first one with a
greater key, wherever that is in a list that need not be sorted. The removals take the first item.
-/
namespace Coursework.Nachos.LinkedList

variable {Addr Item : Type} [DecidableEq Addr]

/-- The calls; `element` is the address that `new` finds. -/
inductive Operation (Addr Item : Type) where
  | append (item : Option Item) (element : Addr)
  | prepend (item : Option Item) (element : Addr)
  | sortedInsert (item : Option Item) (sortKey : ℤ) (element : Addr)
  | sortedRemove
  | remove
  deriving DecidableEq

/-- What a call gives back; `key` is what is stored through `keyPtr`. -/
inductive Answer (Item : Type) where
  | done
  | removed (thing : Option Item) (key : Option ℤ)
  deriving DecidableEq

/-- A call; `none` where a pointer to no element is followed or the loop has too few rounds. -/
def call (rounds : ℕ) (l : LinkedList Addr Item) :
    Operation Addr Item → Option (LinkedList Addr Item × Answer Item)
  | .append item element => (l.append element item).map fun l => (l, .done)
  | .prepend item element => some (l.prepend element item, .done)
  | .sortedInsert item sortKey element =>
    (sortedInsert rounds l element item sortKey).map fun l => (l, .done)
  | .sortedRemove => l.sortedRemove.map fun (thing, key, l) => (l, .removed thing key)
  | .remove => l.remove.map fun (thing, l) => (l, .removed thing none)

/-- The element that `new` gives is not in use. -/
def Free (l : LinkedList Addr Item) : Operation Addr Item → Bool
  | .append _ element | .prepend _ element | .sortedInsert _ _ element => (l.heap element).isNone
  | .sortedRemove | .remove => true

/-- Calls one after the other on a new list, with their answers; `none` is the state after a
call that goes wrong. -/
def calls (rounds : ℕ) :
    Machine (Option (LinkedList Addr Item × List (Answer Item))) (Operation Addr Item) where
  init s := ∃ l, s = some (l, []) ∧ l.first = none ∧ l.last = none
  step s e := s.bind fun (l, answers) =>
    if Free l e then some ((call rounds l e).map fun (l, answer) => (l, answers ++ [answer]))
    else none

/-! ### The sequence -/

/-- What a call means. -/
def Operation.onSequence (es : List (ℤ × Option Item)) :
    Operation Addr Item → List (ℤ × Option Item) × Answer Item
  | .append item _ => (es ++ [(0, item)], .done)
  | .prepend item _ => ((0, item) :: es, .done)
  | .sortedInsert item sortKey _ => (insertByKey (sortKey, item) es, .done)
  | .sortedRemove =>
    match es with
    | [] => ([], .removed none none)
    | (key, thing) :: es => (es, .removed thing (some key))
  | .remove =>
    match es with
    | [] => ([], .removed none none)
    | (_, thing) :: es => (es, .removed thing none)

/-- The sequence and the answers after these calls. -/
def onSequence (es : List (ℤ × Option Item)) :
    List (Operation Addr Item) → List (ℤ × Option Item) × List (Answer Item)
  | [] => (es, [])
  | e :: ops =>
    let (es, answer) := e.onSequence es
    let (es, answers) := onSequence es ops
    (es, answer :: answers)

variable {l : LinkedList Addr Item} {cells : List (Addr × ListElement Addr Item)} {rounds : ℕ}
  {e : Operation Addr Item}

theorem remove_nil (hl : l.Holds []) : l.remove = some (none, l) := by
  rw [remove, sortedRemove_nil hl]
  rfl

/-- A call does to the elements what it means, and gives the answer that it means. -/
theorem call_eq (hl : l.Holds cells) (hfree : Free l e = true) (hr : cells.length ≤ rounds) :
    ∃ l' cells', call rounds l e = some (l', (e.onSequence (entries cells)).2) ∧ l'.Holds cells' ∧
      entries cells' = (e.onSequence (entries cells)).1 := by
  cases e with
  | append item a =>
    obtain ⟨l', cells', happ, hl', hentries⟩ :=
      append_entries hl (Option.isNone_iff_eq_none.mp hfree) item
    exact ⟨l', cells', by rw [call, happ]; rfl, hl', hentries⟩
  | prepend item a =>
    obtain ⟨cells', hl', hentries⟩ := prepend_holds hl (Option.isNone_iff_eq_none.mp hfree) item
    exact ⟨_, cells', rfl, hl', hentries⟩
  | sortedInsert item sortKey a =>
    obtain ⟨l', cells', hins, hl', hentries⟩ :=
      sortedInsert_holds hl (Option.isNone_iff_eq_none.mp hfree) item sortKey hr
    exact ⟨l', cells', by rw [call, hins]; rfl, hl', hentries⟩
  | sortedRemove =>
    cases cells with
    | nil => exact ⟨l, [], by rw [call, sortedRemove_nil hl]; rfl, hl, rfl⟩
    | cons c cells =>
      obtain ⟨l', hremove, hl'⟩ := sortedRemove_cons hl
      exact ⟨l', cells, by rw [call, hremove]; rfl, hl', rfl⟩
  | remove =>
    cases cells with
    | nil => exact ⟨l, [], by rw [call, remove_nil hl]; rfl, hl, rfl⟩
    | cons c cells =>
      obtain ⟨l', hremove, hl'⟩ := remove_cons hl
      exact ⟨l', cells, by rw [call, hremove]; rfl, hl', rfl⟩

/-! ### Every run -/

omit [DecidableEq Addr] in
theorem length_onSequence_le (es : List (ℤ × Option Item)) (e : Operation Addr Item) :
    (e.onSequence es).1.length ≤ es.length + 1 := by
  cases e with
  | append item a => simp [Operation.onSequence]
  | prepend item a => simp [Operation.onSequence]
  | sortedInsert item sortKey a => exact insertByKey_perm.length_eq.le
  | sortedRemove | remove =>
    cases es with
    | nil => exact Nat.zero_le _
    | cons x es => exact Nat.le_add_right_of_le (Nat.le_succ _)

theorem calls_eq {answers : List (Answer Item)} {es : List (Operation Addr Item)}
    {s : Option (LinkedList Addr Item × List (Answer Item))} (hl : l.Holds cells)
    (hr : cells.length + es.length ≤ rounds)
    (hrun : (calls rounds).run (some (l, answers)) es = some s) :
    ∃ l' cells', s = some (l', answers ++ (onSequence (entries cells) es).2) ∧ l'.Holds cells' ∧
      entries cells' = (onSequence (entries cells) es).1 ∧ cells'.length ≤ rounds := by
  induction es generalizing l cells answers with
  | nil =>
    cases hrun
    exact ⟨l, cells, by rw [onSequence, List.append_nil], hl, rfl, hr⟩
  | cons e es ih =>
    rw [List.length_cons] at hr
    obtain ⟨u, hu, hrun⟩ := Option.bind_eq_some_iff.mp hrun
    have hstep : (if Free l e then some ((call rounds l e).map fun (l, answer) =>
      (l, answers ++ [answer])) else none) = some u := hu
    obtain ⟨hfree, hu⟩ := Option.ite_none_right_eq_some.mp hstep
    obtain ⟨l₁, cells₁, hcall, hl₁, hentries⟩ := call_eq hl hfree (by omega : cells.length ≤ rounds)
    rw [hcall] at hu
    obtain rfl := Option.some.inj hu
    have hlen : cells₁.length ≤ cells.length + 1 := by
      have hle := length_onSequence_le (entries cells) e
      rw [← hentries] at hle
      simpa [entries] using hle
    obtain ⟨l', cells', hs, hl', hentries', hle⟩ := ih hl₁ (by omega) hrun
    rw [hentries] at hs hentries'
    refine ⟨l', cells', ?_, hl', hentries', hle⟩
    rw [hs, List.append_assoc]
    rfl

/-- Every sequence of calls on a new list leaves the elements that it means, gives the answers that
it means, and keeps both pointers right; in a list that is sorted `SortedInsert` puts an item behind
all items with its key. -/
theorem list_refines_sequence {s s' : Option (LinkedList Addr Item × List (Answer Item))}
    {es : List (Operation Addr Item)} (hr : es.length ≤ rounds) (h0 : (calls rounds).init s)
    (hrun : (calls rounds).run s es = some s') :
    ∃ l cells, s' = some (l, (onSequence [] es).2) ∧ l.Holds cells ∧
      entries cells = (onSequence [] es).1 ∧
      (cells = [] → l.first = none ∧ l.last = none) ∧
      (∀ cells₀ a n, cells = cells₀ ++ [(a, n)] → l.last = some a ∧
        (l.first = l.last ↔ cells₀ = [])) ∧
      ∀ a item sortKey, l.heap a = none → ∃ l' cells',
        l.sortedInsert rounds a item sortKey = some l' ∧ l'.Holds cells' ∧
        entries cells' = insertByKey (sortKey, item) (entries cells) ∧
        (KeySorted (entries cells) → KeySorted (entries cells') ∧
          ∃ l₁ l₂, entries cells = l₁ ++ l₂ ∧ entries cells' = l₁ ++ (sortKey, item) :: l₂ ∧
            (∀ x ∈ l₁, x.1 ≤ sortKey) ∧ ∀ y ∈ l₂, sortKey < y.1) := by
  obtain ⟨l₀, rfl, hfirst, hlast⟩ := h0
  have hl₀ : l₀.Holds [] := ⟨hfirst, List.nodup_nil, hlast⟩
  obtain ⟨l, cells, hs, hl, hentries, hle⟩ := calls_eq hl₀ (by simpa using hr) hrun
  refine ⟨l, cells, hs, hl, hentries, ?_, ?_, fun a item sortKey ha => ?_⟩
  · rintro rfl
    exact ⟨hl.first_eq, hl.last_eq⟩
  · rintro cells₀ a n rfl
    refine ⟨by simpa using hl.last_eq, ?_⟩
    cases cells₀ with
    | nil =>
      refine iff_of_true ?_ rfl
      exact hl.first_eq_last_iff.mpr rfl
    | cons c cells₀ =>
      have hiff := hl.first_eq_last_iff
      simpa using hiff
  · obtain ⟨l', cells', hins, hl', hentries'⟩ := sortedInsert_holds hl ha item sortKey hle
    refine ⟨l', cells', hins, hl', hentries', fun hsorted => ?_⟩
    rw [hentries']
    exact ⟨hsorted.insert, hsorted.insert_split (sortKey, item)⟩

/-- The keys 5, 0, 3 and 3 again, and a removal. -/
theorem list_refines_sequence_five :
    ∃ (l : LinkedList ℕ ℕ) (cells : List (ℕ × ListElement ℕ ℕ)),
      (calls 5).run (some (⟨fun _ => none, none, none⟩, []))
        [.sortedInsert (some 7) 5 1, .prepend (some 8) 2, .sortedInsert (some 9) 3 3,
          .sortedInsert none 3 4, .sortedRemove] =
        some (some (l, [.done, .done, .done, .done, .removed (some 8) (some 0)])) ∧
      l.Holds cells ∧ entries cells = [(3, some 9), (3, none), (5, some 7)] := by
  have hr : ([.sortedInsert (some 7) 5 1, .prepend (some 8) 2, .sortedInsert (some 9) 3 3,
      .sortedInsert none 3 4, .sortedRemove] : List (Operation ℕ ℕ)).length ≤ 5 := le_refl 5
  obtain ⟨l, cells, hs, hl, hentries, -⟩ :=
    list_refines_sequence hr ⟨⟨fun _ : ℕ => none, none, none⟩, rfl, rfl, rfl⟩ rfl
  exact ⟨l, cells, congrArg some hs, hl, hentries⟩

end Coursework.Nachos.LinkedList
