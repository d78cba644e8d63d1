import Coursework.Lib.CInt
import Coursework.Lib.Slots
import Coursework.Nachos.Monitor.Critical

/-!
# The table of slots of `Table.cc`

`Alloc` scans for the first slot that is `NULL`, `Release` waits until its slot is not.
Other threads may run between two passes of the scan and between the writes to a slot and
to `cnt`. An operation on the fields is `none` where its behaviour is undefined.
-/
namespace Coursework.Nachos

/-- `class Table` without its lock and condition; a slot that is `NULL` is `none`. -/
structure Table (Obj : Type) where
  tableSize : ℤ
  cnt : ℤ
  tableBase : List (Option Obj)
  deriving DecidableEq

namespace Table
open Monitor

variable {Obj : Type}

def new (size : ℕ) : Table Obj := ⟨size, 0, List.replicate size none⟩

/-- `tableBase[index]` -/
def slot (t : Table Obj) (index : ℤ) : Option (Option Obj) :=
  if 0 ≤ index then t.tableBase[index.toNat]? else none

/-- `tableBase[index] = object` -/
def setSlot (t : Table Obj) (index : ℤ) (object : Option Obj) : Option (Table Obj) :=
  if 0 ≤ index ∧ index < t.tableBase.length then
    some { t with tableBase := t.tableBase.set index.toNat object }
  else none

/-- `tableBase[index] != NULL` -/
def isFull (t : Table Obj) (index : ℤ) : Bool :=
  match t.slot index with
  | some (some _) => true
  | _ => false

/-! ### The threads -/

inductive Cond where
  | tableEmpty
  deriving DecidableEq

/-- A call that is done, with its arguments and its result. -/
abbrev Done (Obj : Type) := SlotAct ℤ Obj

inductive Loc (Obj : Type) where
  | outside (ret : Option (Done Obj))
  /-- `Alloc` is about to test slot `index`. -/
  | scanning (object : Option Obj) (index : ℕ)
  /-- The scan of `Alloc` has stopped at `index`. -/
  | storing (object : Option Obj) (index : ℕ)
  | stored (object : Option Obj) (ret : ℤ)
  /-- `Release` is about to test its slot. -/
  | releasing (index : ℤ)
  | clearing (index : ℤ)
  | cleared (index : ℤ)
  | getting (index : ℤ)
  /-- All that is left is `lock->Release()`. -/
  | leaving (done : Done Obj)
  /-- `ASSERT(ret != -1)` has failed. -/
  | assertFailed
  /-- The behaviour is undefined from here on. -/
  | crashed
  deriving DecidableEq

inductive Input (Obj : Type) where
  | alloc (object : Option Obj)
  | release (index : ℤ)
  | get (index : ℤ)
  | go
  deriving DecidableEq

def code : Code Cond (Loc Obj) (Table Obj) (Input Obj)
  | .outside _, t, .alloc object => some (.acquire, .scanning object 0, t)
  | .outside _, t, .release index => some (.acquire, .releasing index, t)
  | .outside _, t, .get index => some (.acquire, .getting index, t)
  | .scanning object index, t, .go =>
    -- past the last slot the first test reads what is there, and the second one fails anyway
    if t.isFull index ∧ index < t.tableSize then some (.pause, .scanning object (index + 1), t)
    else some (.pause, .storing object index, t)
  | .storing object index, t, .go =>
    if index ≥ t.tableSize then some (.pause, .assertFailed, t)
    else
      match t.setSlot index object with
      | some t' => some (.pause, .stored object index, t')
      | none => some (.pause, .crashed, t)
  | .stored object ret, t, .go =>
    match int (t.cnt + 1) with
    | some cnt => some (.signal .tableEmpty, .leaving (.alloc object ret), { t with cnt := cnt })
    | none => some (.pause, .crashed, t)
  | .releasing index, t, .go =>
    match t.slot index with
    | some none => some (.wait .tableEmpty, .releasing index, t)
    | some (some _) => some (.pause, .clearing index, t)
    | none => some (.pause, .crashed, t)
  | .clearing index, t, .go =>
    match t.setSlot index none with
    | some t' => some (.pause, .cleared index, t')
    | none => some (.pause, .crashed, t)
  | .cleared index, t, .go =>
    match int (t.cnt - 1) with
    | some cnt => some (.pause, .leaving (.release index), { t with cnt := cnt })
    | none => some (.pause, .crashed, t)
  | .getting index, t, .go =>
    if index ≥ t.tableSize then some (.pause, .leaving (.get index none), t)
    else
      match t.slot index with
      | some ret => some (.pause, .leaving (.get index ret), t)
      | none => some (.pause, .crashed, t)
  | .leaving done, t, .go => some (.release, .outside (some done), t)
  | _, _, _ => none

def New (size : ℕ) (t : Table Obj) : Prop := t = new size

def machine {Tid : Type} [DecidableEq Tid] (size : ℕ) :
    Machine (State Tid Cond (Loc Obj) (Table Obj)) (Event Tid (Input Obj)) :=
  Monitor.machine code (New size) (.outside none)

/-! ### The lock -/

def Loc.inside : Loc Obj → Bool
  | .outside _ => false
  | _ => true

/-- Past the loops, where the lock is not given up before the end. -/
def Loc.held : Loc Obj → Bool
  | .outside _ | .scanning _ _ | .releasing _ | .getting _ => false
  | _ => true

variable {t t' : Table Obj} {k k' : Loc Obj} {i : Input Obj} {x : Call Cond}

theorem keeps_code (h : code k t i = some (x, k', t')) :
    Keeps Loc.inside k x k' ∧ (k'.held = true → x.stays = true) := by
  unfold code at h
  split at h
  case h_1 | h_2 | h_3 | h_11 =>
    cases h
    simp [Keeps, Loc.inside, Loc.held]
  case h_4 =>
    split_ifs at h <;> cases h <;> simp [Keeps, Loc.inside, Loc.held, Call.stays]
  case h_5 | h_10 =>
    split_ifs at h
    · cases h
      simp [Keeps, Loc.inside, Call.stays]
    · split at h <;> cases h <;> simp [Keeps, Loc.inside, Call.stays]
  case h_6 | h_7 | h_8 | h_9 =>
    split at h <;> cases h <;> simp [Keeps, Loc.inside, Loc.held, Call.stays]
  case h_12 => cases h

theorem lockedAt : LockedAt (@code Obj) Loc.inside Loc.held where
  disciplined _ _ _ _ _ _ h := (keeps_code h).1
  inside k hk := by cases k <;> first | rfl | cases hk
  stays _ _ _ _ _ _ h := (keeps_code h).2

end Table
end Coursework.Nachos
