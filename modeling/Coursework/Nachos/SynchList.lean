import Coursework.Nachos.LinkedList
import Coursework.Nachos.Monitor.QueueClient

/-!
# The synchronized list of `synchlist.cc`

Threads call `Append` and `Remove` in any order and any number of times. A location is
the place in the code where a call into the kernel returns; `outside` carries what the
last call returned.
-/
namespace Coursework.Nachos.SynchList
open Monitor

variable {Tid Addr Item : Type} [DecidableEq Tid] [DecidableEq Addr]

inductive Cond where
  | listEmpty
  deriving DecidableEq

instance : Subsingleton Cond := ⟨fun .listEmpty .listEmpty => rfl⟩

inductive Loc (Item : Type) where
  | outside (ret : Option Item)
  /-- `Append` has acquired the lock. -/
  | appending (item : Item)
  /-- `Append` comes back from `Yield`. -/
  | yielded
  | signalled
  /-- `Remove` is about to test `IsEmpty`. -/
  | removing
  /-- `ASSERT(item != NULL)` has failed. -/
  | assertFailed
  /-- A pointer to no element has been followed. -/
  | crashed
  deriving DecidableEq

/-- Which call a thread makes next, and the address that `new` finds. -/
inductive Input (Addr Item : Type) where
  | append (item : Item)
  | remove
  | new (a : Addr)
  | go

def code : Code Cond (Loc Item) (LinkedList Addr Item) (Input Addr Item)
  | .outside _, list, .append item => some (.acquire, .appending item, list)
  | .outside _, list, .remove => some (.acquire, .removing, list)
  | .appending item, list, .new a =>
    if (list.heap a).isSome then none
    else
      match list.append a (some item) with
      | some list' => some (.pause, .yielded, list')
      | none => some (.pause, .crashed, list)
  | .yielded, list, .go => some (.signal .listEmpty, .signalled, list)
  | .signalled, list, .go => some (.release, .outside none, list)
  | .removing, list, .go =>
    if list.isEmpty then some (.wait .listEmpty, .removing, list)
    else
      match list.remove with
      | some (some item, list') => some (.release, .outside (some item), list')
      | some (none, list') => some (.pause, .assertFailed, list')
      | none => some (.pause, .crashed, list)
  | _, _, _ => none

/-- A new list; whatever else is in the heap. -/
def New (list : LinkedList Addr Item) : Prop := list.first = none ∧ list.last = none

def machine : Machine (State Tid Cond (Loc Item) (LinkedList Addr Item))
    (Event Tid (Input Addr Item)) :=
  Monitor.machine code New (.outside none)

def Loc.puts : Loc Item → Option Item
  | .appending item => some item
  | _ => none

def Loc.ret : Loc Item → Option Item
  | .outside ret => ret
  | _ => none

def Loc.isOutside : Loc Item → Bool
  | .outside _ => true
  | _ => false

/-- The code has not run into an error. -/
def Loc.Fine : Loc Item → Prop
  | .assertFailed | .crashed => False
  | _ => True

theorem Loc.fine_start : Loc.Fine (.outside none : Loc Item) := trivial

/-- `Append` owes a signal for the item that it linked; `Remove` is going to test again. -/
def Loc.credit : Loc Item → ℕ
  | .yielded | .removing => 1
  | _ => 0

/-- The items of the list from `first` along `next`; none of them is `NULL`. -/
def Contents (list : LinkedList Addr Item) (xs : List Item) : Prop :=
  ∃ cells, list.Holds cells ∧ LinkedList.items cells = xs.map some

omit [DecidableEq Addr] in
theorem Contents.nil {list : LinkedList Addr Item} (h : New list) : Contents list [] := by
  rcases h with ⟨first, last⟩
  refine ⟨[], ?_, rfl⟩
  rw [LinkedList.Holds, first, last]
  exact .nil

omit [DecidableEq Addr] in
theorem Contents.isEmpty_iff {list : LinkedList Addr Item} {xs : List Item}
    (h : Contents list xs) : list.isEmpty = true ↔ xs = [] := by
  rcases h with ⟨cells, hl, hitems⟩
  have hlen : cells.length = xs.length := by
    simpa [LinkedList.items] using congrArg List.length hitems
  rw [LinkedList.isEmpty_iff hl, ← List.length_eq_zero_iff, hlen, List.length_eq_zero_iff]

theorem Contents.append {list : LinkedList Addr Item} {xs : List Item} {a : Addr} (item : Item)
    (h : Contents list xs) (ha : list.heap a = none) :
    ∃ list', list.append a (some item) = some list' ∧ Contents list' (xs ++ [item]) := by
  rcases h with ⟨cells, hl, hitems⟩
  obtain ⟨list', cells', happ, hl', hitems'⟩ :=
    LinkedList.append_holds hl ha (some item)
  exact ⟨list', happ, cells', hl', by rw [hitems', hitems]; simp⟩

theorem Contents.remove {list : LinkedList Addr Item} {x : Item} {xs : List Item}
    (h : Contents list (x :: xs)) :
    ∃ list', list.remove = some (some x, list') ∧ Contents list' xs := by
  rcases h with ⟨cells, hl, hitems⟩
  cases cells with
  | nil => cases hitems
  | cons c cells =>
    obtain ⟨hx, hxs⟩ := List.cons.inj hitems
    obtain ⟨list', hrem, hl'⟩ := LinkedList.remove_cons hl
    exact ⟨list', hx ▸ hrem, cells, hl', hxs⟩

/-- Every step of the code keeps to the law of a blocking queue. -/
theorem queueClient :
    QueueClient (code : Code Cond (Loc Item) (LinkedList Addr Item) (Input Addr Item)) Loc.Fine
      Contents Loc.puts Loc.ret .listEmpty Loc.credit := by
  intro k d i x k' d' xs hk hcode hxs
  unfold code at hcode
  split at hcode
  case h_3 item a =>
    by_cases ha : (d.heap a).isSome
    · simp [ha] at hcode
    · obtain ⟨list', happ, hxs'⟩ := hxs.append item (by simpa using ha)
      simp only [ha, happ] at hcode
      cases hcode
      exact ⟨trivial, by rintro ⟨⟩, _, hxs', rfl, .inr le_rfl⟩
  case h_6 =>
    cases xs with
    | nil =>
      rw [if_pos (hxs.isEmpty_iff.mpr rfl)] at hcode
      cases hcode
      exact ⟨trivial, fun _ => le_rfl, [], hxs, rfl, .inl rfl⟩
    | cons x xs =>
      obtain ⟨list', hrem, hxs'⟩ := hxs.remove
      rw [if_neg (by simp [hxs.isEmpty_iff]), hrem] at hcode
      cases hcode
      exact ⟨trivial, by rintro ⟨⟩, xs, hxs', List.append_nil _, .inr le_rfl⟩
  case h_7 => cases hcode
  all_goals
    cases hcode
    refine ⟨trivial, by rintro ⟨⟩, xs, hxs, List.append_nil _, .inr ?_⟩
    simp [Loc.puts, Loc.ret, Loc.credit, Call.takes, Call.credit]

/-! ### The calls of one thread -/

section Calls
variable {s s' : State Tid Cond (Loc Item) (LinkedList Addr Item)} {t : Tid} {item : Item}

/-- The thread is in neither `Append` nor `Remove`. -/
def Outside (s : State Tid Cond (Loc Item) (LinkedList Addr Item)) (t : Tid) : Prop :=
  ∃ ret, (s.thread t).pc = .client (.outside ret)

theorem puts_of_code {k k' : Loc Item} {list list' : LinkedList Addr Item} {x : Call Cond}
    {i : Input Addr Item} (h : code k list i = some (x, k', list'))
    (hi : ∀ item, i ≠ .append item) : k'.puts = none := by
  unfold code at h
  split at h
  case h_1 item => exact absurd rfl (hi item)
  case h_3 item a =>
    obtain ⟨-, h⟩ := Option.ite_none_left_eq_some.mp h
    split at h
    all_goals
      cases h
      rfl
  case h_6 =>
    split at h
    · cases h
      rfl
    · split at h
      all_goals
        cases h
        rfl
  case h_7 => cases h
  all_goals
    cases h
    rfl

/-- A thread that calls `Append` comes with its item and has not put it in yet. -/
theorem append_call (ht : Outside s t) (hs : s.step code ⟨t, .append item⟩ = some s') :
    s.moved code Loc.puts Loc.ret ⟨t, .append item⟩ = [] ∧ s'.locs t = .appending item := by
  obtain ⟨ret, hpc⟩ := ht
  have hcode : code (.outside ret) s.data (.append item) =
      some (.acquire, .appending item, s.data) := rfl
  constructor
  · exact moved_client (e := ⟨t, Input.append item⟩) hpc hcode
  · simp only [State.step, hpc, hcode, Option.map_some] at hs
    cases hs
    rw [State.locs_call, Function.update_self]

theorem outside_of_release {e : Event Tid (Input Addr Item)} {ret : Option Item}
    (hpc : (s.thread e.tid).pc = .releaseV (.client (.outside ret)))
    (hs : s.step code e = some s') : Outside s' e.tid := by
  refine ⟨ret, ?_⟩
  simp only [State.step, hpc] at hs
  cases hs
  simp only [State.goto, Function.update_self, After.pc]

end Calls

variable [Fintype Tid]

/-- Thread 1 waits in `Remove`; thread 0 appends an item at address 5, and thread 1
returns it. -/
def appendRemove : List (Event (Fin 2) (Input ℕ ℕ)) :=
  [⟨t1, .remove⟩, ⟨t1, .go⟩, ⟨t1, .go⟩, ⟨t1, .go⟩, ⟨t1, .go⟩, ⟨t1, .go⟩,
    ⟨t0, .append 7⟩, ⟨t0, .go⟩, ⟨t0, .go⟩, ⟨t0, .new 5⟩, ⟨t0, .go⟩, ⟨t0, .go⟩, ⟨t0, .go⟩, ⟨t0, .go⟩,
    ⟨t0, .go⟩, ⟨t1, .go⟩, ⟨t1, .go⟩, ⟨t1, .go⟩, ⟨t1, .go⟩, ⟨t1, .go⟩, ⟨t1, .go⟩]

end Coursework.Nachos.SynchList
