import Coursework.Lib.CInt
import Coursework.Lib.Ring
import Coursework.Nachos.Monitor

/-!
# The byte buffer of `BoundedBuffer.cc`

`Write` and `Read` copy one byte at each step, and other threads may run between two
bytes. An operation on the fields is `none` where its behaviour is undefined: an `int`
overflows, or a position outside the allocated bytes is used.
-/
namespace Coursework.Nachos

/-- `class BoundedBuffer` without its lock and conditions. -/
structure BoundedBuffer where
  maxSize : ℤ
  head : ℤ
  tail : ℤ
  usedSize : ℤ
  buffer : List UInt8
  deriving DecidableEq

namespace BoundedBuffer
open Monitor

/-- `new uchar[maxSize]` leaves the bytes as the memory was. -/
def new (maxSize : ℤ) (garbage : List UInt8) : BoundedBuffer := ⟨maxSize, 0, 0, 0, garbage⟩

/-- `maxSize - usedSize < size` -/
def lacksRoom (b : BoundedBuffer) (size : ℤ) : Option Bool := do
  let remain ← int (b.maxSize - b.usedSize)
  some (remain < size)

/-- `usedSize - size < 0` -/
def lacksBytes (b : BoundedBuffer) (size : ℤ) : Option Bool := do
  let rest ← int (b.usedSize - size)
  some (rest < 0)

/-- `(start + i) % maxSize` -/
def around (b : BoundedBuffer) (start i : ℤ) : Option ℤ := do
  let sum ← int (start + i)
  intMod sum b.maxSize

/-- `*((uchar*)buffer + (tail + i) % maxSize) = byte` -/
def put (b : BoundedBuffer) (i : ℤ) (byte : UInt8) : Option BoundedBuffer := do
  let p ← b.around b.tail i
  if 0 ≤ p ∧ p < b.buffer.length then some { b with buffer := b.buffer.set p.toNat byte }
  else none

/-- `*((uchar*)buffer + (head + i) % maxSize)` -/
def get (b : BoundedBuffer) (i : ℤ) : Option UInt8 := do
  let p ← b.around b.head i
  if 0 ≤ p then b.buffer[p.toNat]? else none

/-- What `Write` does after its loop. -/
def advanceTail (b : BoundedBuffer) (size : ℤ) : Option BoundedBuffer := do
  let tail ← b.around b.tail size
  let usedSize ← int (b.usedSize + size)
  some { b with tail := tail, usedSize := usedSize }

/-- What `Read` does after its loop. -/
def advanceHead (b : BoundedBuffer) (size : ℤ) : Option BoundedBuffer := do
  let head ← b.around b.head size
  let usedSize ← int (b.usedSize - size)
  some { b with head := head, usedSize := usedSize }

/-! ### The threads -/

inductive Cond where
  | full
  | empty
  deriving DecidableEq

/-- A call of `Write` or `Read` that is done, and the bytes that it moved. -/
inductive Done where
  | write (data : List UInt8)
  | read (data : List UInt8)
  deriving DecidableEq

inductive Loc where
  | outside (ret : Option Done)
  /-- `Write` is about to test for room. -/
  | writing (data : List UInt8) (size : ℤ)
  /-- `Write` is about to copy byte `i`. -/
  | copyingIn (data : List UInt8) (size : ℤ) (i : ℕ)
  /-- `Read` is about to test for bytes. -/
  | reading (size : ℤ)
  /-- `Read` has copied the bytes `got`. -/
  | copyingOut (size : ℤ) (got : List UInt8)
  | signalled (done : Done)
  /-- `ASSERT(size <= maxSize)` has failed. -/
  | assertFailed
  /-- The behaviour is undefined from here on. -/
  | crashed
  deriving DecidableEq

/-- Which call a thread makes next; `data` is the memory from the pointer onward. -/
inductive Input where
  | write (data : List UInt8) (size : ℤ)
  | read (size : ℤ)
  | go

def code : Code Cond Loc BoundedBuffer Input
  | .outside _, b, .write data size =>
    if size ≤ b.maxSize then some (.acquire, .writing data size, b)
    else some (.pause, .assertFailed, b)
  | .outside _, b, .read size => some (.acquire, .reading size, b)
  | .writing data size, b, .go =>
    match b.lacksRoom size with
    | some true => some (.wait .full, .writing data size, b)
    | some false => some (.pause, .copyingIn data size 0, b)
    | none => some (.pause, .crashed, b)
  | .copyingIn data size i, b, .go =>
    if i < size then
      match data[i]?.bind fun byte => b.put i byte with
      | some b' => some (.pause, .copyingIn data size (i + 1), b')
      | none => some (.pause, .crashed, b)
    else
      match b.advanceTail size with
      | some b' => some (.signal .empty, .signalled (.write (data.take size.toNat)), b')
      | none => some (.pause, .crashed, b)
  | .reading size, b, .go =>
    match b.lacksBytes size with
    | some true => some (.wait .empty, .reading size, b)
    | some false => some (.pause, .copyingOut size [], b)
    | none => some (.pause, .crashed, b)
  | .copyingOut size got, b, .go =>
    if got.length < size then
      match b.get got.length with
      | some byte => some (.pause, .copyingOut size (got ++ [byte]), b)
      | none => some (.pause, .crashed, b)
    else
      match b.advanceHead size with
      | some b' => some (.signal .full, .signalled (.read got), b')
      | none => some (.pause, .crashed, b)
  | .signalled done, b, .go => some (.release, .outside (some done), b)
  | _, _, _ => none

/-- The constructor has run; the allocated bytes are any. -/
def New (maxSize : ℕ) (b : BoundedBuffer) : Prop :=
  ∃ garbage : List UInt8, garbage.length = maxSize ∧ b = new maxSize garbage

/-! ### The fields as a ring -/

/-- `u` bytes of the ring of `N` bytes are used, from position `hd` onward. -/
structure Ring (b : BoundedBuffer) (N hd u : ℕ) : Prop where
  maxSize : b.maxSize = N
  head : b.head = hd
  tail : b.tail = ((hd + u) % N : ℕ)
  usedSize : b.usedSize = u
  length : b.buffer.length = N
  head_lt : hd < N
  used_le : u ≤ N
  /-- Two positions, or a position and a size, have a sum of type `int`. -/
  small : 2 * (N : ℤ) ≤ intMax + 1

/-- The bytes stored from `head` onward around the ring. -/
def stored (b : BoundedBuffer) : List UInt8 := window b.buffer b.head.toNat b.usedSize.toNat

variable {b : BoundedBuffer} {N hd u i k : ℕ} {size : ℤ} {byte : UInt8}

theorem Ring.stored_eq (hr : b.Ring N hd u) : b.stored = window b.buffer hd u := by
  rw [stored, hr.head, hr.usedSize, Int.toNat_natCast, Int.toNat_natCast]

theorem Ring.lacksRoom_eq (hr : b.Ring N hd u) :
    b.lacksRoom size = some (decide ((N : ℤ) - u < size)) := by
  have hused := hr.used_le
  have hsmall := hr.small
  have hint : int ((N : ℤ) - u) = some ((N : ℤ) - u) :=
    int_eq_some (by unfold intMax at *; omega) (by unfold intMax at *; omega)
  simp [lacksRoom, hr.maxSize, hr.usedSize, hint]

theorem Ring.lacksBytes_eq (hr : b.Ring N hd u) (hk : (k : ℤ) ≤ intMax) :
    b.lacksBytes k = some (decide (u < k)) := by
  have hused := hr.used_le
  have hsmall := hr.small
  have hint : int ((u : ℤ) - k) = some ((u : ℤ) - k) :=
    int_eq_some (by omega) (by unfold intMax at *; omega)
  simp [lacksBytes, hr.usedSize, hint]

theorem Ring.around_eq (hr : b.Ring N hd u) (hi : i < N) (hk : k ≤ N) :
    b.around i k = some (((i + k) % N : ℕ) : ℤ) := by
  have hsmall := hr.small
  have hsum : int ((i : ℤ) + k) = some ((i + k : ℕ) : ℤ) := by
    rw [← Nat.cast_add]
    exact int_eq_some (by unfold intMax at *; omega) (by omega)
  rw [around, hr.maxSize, hsum, Option.bind_eq_bind, Option.bind_some,
    intMod_natCast (by omega) (by omega)]

/-- Byte `i` after the used ones is written. -/
theorem Ring.put_eq (hr : b.Ring N hd u) (hi : u + i < N) (byte : UInt8) :
    b.put i byte = some { b with buffer := b.buffer.set ((hd + (u + i)) % N) byte } := by
  have hlt : (hd + (u + i)) % N < N := Nat.mod_lt _ (by omega)
  have hpos : b.around b.tail i = some (((hd + (u + i)) % N : ℕ) : ℤ) := by
    rw [hr.tail, hr.around_eq (Nat.mod_lt _ (by omega)) (by omega), Nat.mod_add_mod, Nat.add_assoc]
  rw [put, hpos, Option.bind_eq_bind, Option.bind_some, if_pos, Int.toNat_natCast]
  rw [hr.length]
  omega

/-- Byte `i` of the ring from `head` onward is read. -/
theorem Ring.get_eq (hr : b.Ring N hd u) (hi : i < N) :
    b.get i = b.buffer[(hd + i) % N]? := by
  rw [get, hr.head, hr.around_eq hr.head_lt (by omega), Option.bind_eq_bind, Option.bind_some,
    if_pos (by omega), Int.toNat_natCast]

theorem Ring.put (hr : b.Ring N hd u) (p : ℕ) (byte : UInt8) :
    Ring { b with buffer := b.buffer.set p byte } N hd u :=
  { hr with length := (List.length_set ..).trans hr.length }

theorem Ring.advanceTail (hr : b.Ring N hd u) (hk : u + k ≤ N) :
    ∃ b', b.advanceTail k = some b' ∧ b'.Ring N hd (u + k) ∧ b'.buffer = b.buffer := by
  have hlt := hr.head_lt
  have hsmall := hr.small
  have htail : b.around b.tail k = some (((hd + (u + k)) % N : ℕ) : ℤ) := by
    rw [hr.tail, hr.around_eq (Nat.mod_lt _ (by omega)) (by omega), Nat.mod_add_mod, Nat.add_assoc]
  have hused : int (b.usedSize + k) = some ((u + k : ℕ) : ℤ) := by
    rw [hr.usedSize, ← Nat.cast_add]
    exact int_eq_some (by unfold intMax at *; omega) (by unfold intMax at *; omega)
  have hring : Ring { b with tail := ((hd + (u + k)) % N : ℕ), usedSize := (u + k : ℕ) }
      N hd (u + k) :=
    { hr with tail := rfl, usedSize := rfl, used_le := hk }
  refine ⟨_, ?_, hring, rfl⟩
  simp only [BoundedBuffer.advanceTail, htail, hused, Option.bind_eq_bind, Option.bind_some]

theorem Ring.advanceHead (hr : b.Ring N hd u) (hk : k ≤ u) :
    ∃ b', b.advanceHead k = some b' ∧ b'.Ring N ((hd + k) % N) (u - k) ∧ b'.buffer = b.buffer := by
  have hlt := hr.head_lt
  have hsmall := hr.small
  have hle := hr.used_le
  have hhead : b.around b.head k = some (((hd + k) % N : ℕ) : ℤ) := by
    rw [hr.head, hr.around_eq hlt (by omega)]
  have hused : int (b.usedSize - k) = some ((u - k : ℕ) : ℤ) := by
    rw [hr.usedSize, ← Nat.cast_sub hk]
    exact int_eq_some (by unfold intMax at *; omega) (by unfold intMax at *; omega)
  have htail : b.tail = (((hd + k) % N + (u - k)) % N : ℕ) := by
    rw [hr.tail, Nat.mod_add_mod, Nat.add_assoc, Nat.add_sub_cancel' hk]
  have hring : Ring { b with head := ((hd + k) % N : ℕ), usedSize := (u - k : ℕ) }
      N ((hd + k) % N) (u - k) :=
    { hr with
      head := rfl
      tail := htail
      usedSize := rfl
      head_lt := Nat.mod_lt _ (by omega)
      used_le := by omega }
  refine ⟨_, ?_, hring, rfl⟩
  simp only [BoundedBuffer.advanceHead, hhead, hused, Option.bind_eq_bind, Option.bind_some]

end BoundedBuffer
end Coursework.Nachos
