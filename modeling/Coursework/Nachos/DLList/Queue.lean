import Coursework.Nachos.DLList.Cells
import Coursework.Nachos.Monitor.QueueClient

/-!
# A `DLList` as a shared queue

Threads call `Append` and `Remove` only. The items are the pointers that `Append` is given,
`NULL` among them.
-/
namespace Coursework.Nachos.DLList
open Monitor

variable {Tid Addr Item : Type} [DecidableEq Tid] [DecidableEq Addr] {l : DLList Addr Item}
  {xs : List (Option Item)} {a : Addr} {x : Option Item}

def Op.isQueue : Op → Bool
  | .append | .remove => true
  | _ => false

/-- A list as the constructor leaves it; whatever else is in the heap. -/
def New (l : DLList Addr Item) : Prop := l.first = none ∧ l.last = none

/-- Threads that call `Append` and `Remove` on a new list. -/
def queueMachine (yields : Bool) :
    Machine (State Tid Cond (Loc Addr Item) (DLList Addr Item)) (Event Tid (Input Addr Item)) :=
  Monitor.machine (code Op.isQueue yields) New (.outside none)

/-- The locations of `Append` and `Remove`. -/
def Loc.InQueue : Loc Addr Item → Prop
  | .outside _ | .appending _ | .removing | .signalled => True
  | _ => False

omit [DecidableEq Addr] in
theorem Loc.inQueue_start : Loc.InQueue (.outside none : Loc Addr Item) := trivial

def Loc.puts : Loc Addr Item → Option (Option Item)
  | .appending item => some item
  | _ => none

def Loc.ret : Loc Addr Item → Option (Option Item)
  | .outside ret => ret
  | _ => none

/-- `Remove` is going to test again. -/
def Loc.credit : Loc Addr Item → ℕ
  | .removing => 1
  | _ => 0

/-- The items from `first` along `next`. -/
def Contents (l : DLList Addr Item) (xs : List (Option Item)) : Prop :=
  ∃ cells, l.Holds cells ∧ items cells = xs

omit [DecidableEq Addr] in
theorem Holds.nil (h : New l) : l.Holds [] := by
  rw [Holds, h.1, h.2]
  exact .nil

omit [DecidableEq Addr] in
theorem Contents.isEmpty_iff (h : Contents l xs) : l.isEmpty = true ↔ xs = [] := by
  rcases h with ⟨cells, hl, rfl⟩
  rw [DLList.isEmpty_iff hl, items, List.map_eq_nil_iff]

theorem Contents.append (h : Contents l xs) (ha : l.heap a = none) (item : Option Item) :
    ∃ l', l.append a item = some l' ∧ Contents l' (xs ++ [item]) := by
  rcases h with ⟨cells, hl, rfl⟩
  obtain ⟨l', cells', happ, hl', hitems⟩ := append_holds hl ha item
  exact ⟨l', happ, cells', hl', hitems⟩

theorem Contents.remove (h : Contents l (x :: xs)) :
    ∃ k l', l.remove = some (x, k, l') ∧ Contents l' xs := by
  rcases h with ⟨cells, hl, hitems⟩
  cases cells with
  | nil => cases hitems
  | cons c cells =>
    obtain ⟨rfl, hxs⟩ := List.cons.inj hitems
    obtain ⟨l', hrem, hl'⟩ := remove_holds hl
    exact ⟨_, l', hrem, cells, hl', hxs⟩

/-- Every step of `Append` and `Remove` keeps to the law of a blocking queue. -/
theorem queueClient (yields : Bool) :
    QueueClient (code Op.isQueue yields :
        Code Cond (Loc Addr Item) (DLList Addr Item) (Input Addr Item))
      Loc.InQueue Contents Loc.puts Loc.ret .dllistEmpty Loc.credit := by
  intro k d i x k' d' xs hk hcode hxs
  unfold code at hcode
  split at hcode
  case h_2 | h_3 =>
    cases hcode
    exact ⟨trivial, by rintro ⟨⟩, xs, hxs, List.append_nil _, .inr (Nat.zero_le _)⟩
  case h_6 item newnode _ =>
    by_cases ha : (d.heap newnode).isSome
    · simp [ha] at hcode
    · obtain ⟨l', happ, hxs'⟩ := hxs.append (by simpa using ha) item
      simp only [ha, happ] at hcode
      cases hcode
      exact ⟨trivial, by rintro ⟨⟩, _, hxs', rfl, .inr le_rfl⟩
  case h_7 =>
    cases hcode
    exact ⟨trivial, by rintro ⟨⟩, xs, hxs, List.append_nil _, .inr le_rfl⟩
  case h_8 =>
    cases xs with
    | nil =>
      rw [if_pos (hxs.isEmpty_iff.mpr rfl)] at hcode
      cases hcode
      exact ⟨trivial, fun _ => le_rfl, [], hxs, rfl, .inl rfl⟩
    | cons x xs =>
      obtain ⟨key, l', hrem, hxs'⟩ := hxs.remove
      rw [if_neg (by simp [hxs.isEmpty_iff]), hrem] at hcode
      cases hcode
      exact ⟨trivial, by rintro ⟨⟩, xs, hxs', List.append_nil _, .inr le_rfl⟩
  case h_9 | h_10 | h_11 => exact hk.elim
  case h_1 | h_4 | h_5 | h_12 => cases hcode

variable [Fintype Tid]

/-- Thread 1 waits in `Remove`; thread 0 appends `NULL`, and thread 1 returns it. -/
def appendRemove : List (Event (Fin 2) (Input ℕ ℕ)) :=
  [⟨t1, .remove⟩, ⟨t1, .go 0 none⟩, ⟨t1, .go 0 none⟩, ⟨t1, .go 0 none⟩, ⟨t1, .go 0 none⟩,
    ⟨t1, .go 0 none⟩, ⟨t0, .append none⟩, ⟨t0, .go 0 none⟩, ⟨t0, .go 0 none⟩, ⟨t0, .new 5 0⟩,
    ⟨t0, .go 0 none⟩, ⟨t0, .go 0 none⟩, ⟨t0, .go 0 none⟩, ⟨t0, .go 0 none⟩, ⟨t1, .go 0 none⟩,
    ⟨t1, .go 0 none⟩, ⟨t1, .go 0 none⟩, ⟨t1, .go 0 none⟩, ⟨t1, .go 0 none⟩, ⟨t1, .go 0 none⟩]

end Coursework.Nachos.DLList
