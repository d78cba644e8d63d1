import Coursework.Nachos.BoundedBuffer.Fifo
import Coursework.Nachos.Monitor.Wakeup

/-!
# When a `BoundedBuffer` strands nobody

`Write` and `Read` signal once, and the thread that the signal wakes need not be one
whose request fits. A reader that waits again, and a reader that leaves bytes
behind, pass no wakeup on to the other readers. If in a run this never happens while some
other reader could go on, and likewise for writers, nobody is stranded.
-/
namespace Coursework.Nachos.BoundedBuffer
open Monitor

variable {Tid : Type} [DecidableEq Tid] [Fintype Tid] {s : State Tid Cond Loc BoundedBuffer}
  {t : Tid} {maxSize : ℕ}

/-- The request of a thread in its waiting loop fits. -/
def fits (b : BoundedBuffer) : Loc → Bool
  | .reading size => size ≤ b.usedSize
  | .writing _ size => size ≤ b.maxSize - b.usedSize
  | _ => false

/-- Threads past the loop have a wakeup of both conditions, until they are done. -/
def Loc.wakes (c : Cond) : Loc → ℕ
  | .reading _ => if c = .empty then 1 else 0
  | .writing _ _ => if c = .full then 1 else 0
  | .copyingIn _ _ _ | .copyingOut _ _ | .crashed => 1
  | .outside _ | .signalled _ | .assertFailed => 0

/-- The sizes that a caller may ask for. -/
def Input.InRange (maxSize : ℕ) : Input → Prop
  | .write data size => 0 ≤ size ∧ size ≤ maxSize ∧ size ≤ data.length
  | .read size => 0 ≤ size ∧ size ≤ maxSize
  | .go => True

instance (maxSize : ℕ) : (i : Input) → Decidable (i.InRange maxSize)
  | .write data size =>
    inferInstanceAs (Decidable (0 ≤ size ∧ size ≤ maxSize ∧ size ≤ data.length))
  | .read size => inferInstanceAs (Decidable (0 ≤ size ∧ size ≤ maxSize))
  | .go => inferInstanceAs (Decidable True)

def Loc.isOutside : Loc → Bool
  | .outside _ => true
  | _ => false

/-- At most one wakeup of `c` is left, and somebody waits on `c` whose request fits into `b`. -/
def LastWanted (s : State Tid Cond Loc BoundedBuffer) (c : Cond) (b : BoundedBuffer) : Prop :=
  s.wakeups c (Loc.wakes c) ≤ 1 ∧ s.Wanted c fits b

/-- A thread that is about to wait again, or to end its call, has not the last wakeup of
a condition on which somebody waits whose request will fit then. -/
def KeepsWakeups (s : State Tid Cond Loc BoundedBuffer) (e : Event Tid Input) : Prop :=
  match (s.thread e.tid).pc with
  | .client (.reading size) => s.data.usedSize < size → ¬ LastWanted s .empty s.data
  | .client (.copyingOut size got) => size ≤ got.length →
      ¬ LastWanted s .empty { s.data with usedSize := s.data.usedSize - size }
  | .client (.writing _ size) =>
      s.data.maxSize - s.data.usedSize < size → ¬ LastWanted s .full s.data
  | .client (.copyingIn _ size i) => size ≤ i →
      ¬ LastWanted s .full { s.data with usedSize := s.data.usedSize + size }
  | _ => True

instance (s : State Tid Cond Loc BoundedBuffer) (c : Cond) (b : BoundedBuffer) :
    Decidable (LastWanted s c b) :=
  inferInstanceAs (Decidable (_ ∧ _))

instance (s : State Tid Cond Loc BoundedBuffer) (e : Event Tid Input) :
    Decidable (KeepsWakeups s e) := by
  unfold KeepsWakeups
  split <;> infer_instance

/-! ### What the code does for its waiters -/

variable {b b' : BoundedBuffer} {k k' : Loc} {i : Input} {x : Call Cond} {size : ℤ} {r : Bool}
  {c : Cond} {e : Event Tid Input}

theorem fits_congr (hmax : b'.maxSize = b.maxSize) (hused : b'.usedSize = b.usedSize) :
    fits b' = fits b := by
  funext k
  cases k <;> simp [fits, hmax, hused]

theorem lacksBytes_some (h : b.lacksBytes size = some r) : r = decide (b.usedSize < size) := by
  obtain ⟨rest, hrest, h⟩ := Option.bind_eq_some_iff.mp h
  cases h
  rw [eq_of_int hrest]
  simp

theorem lacksRoom_some (h : b.lacksRoom size = some r) :
    r = decide (b.maxSize - b.usedSize < size) := by
  obtain ⟨remain, hremain, h⟩ := Option.bind_eq_some_iff.mp h
  cases h
  rw [eq_of_int hremain]

theorem put_some {j : ℤ} {byte : UInt8} (h : b.put j byte = some b') : fits b' = fits b := by
  obtain ⟨p, -, h⟩ := Option.bind_eq_some_iff.mp h
  split_ifs at h
  cases h
  exact fits_congr rfl rfl

theorem advanceTail_some (h : b.advanceTail size = some b') :
    fits b' = fits { b with usedSize := b.usedSize + size } := by
  obtain ⟨tail, -, h⟩ := Option.bind_eq_some_iff.mp h
  obtain ⟨used, hused, h⟩ := Option.bind_eq_some_iff.mp h
  cases h
  exact fits_congr rfl (eq_of_int hused)

theorem advanceHead_some (h : b.advanceHead size = some b') :
    fits b' = fits { b with usedSize := b.usedSize - size } := by
  obtain ⟨head, -, h⟩ := Option.bind_eq_some_iff.mp h
  obtain ⟨used, hused, h⟩ := Option.bind_eq_some_iff.mp h
  cases h
  exact fits_congr rfl (eq_of_int hused)

/-- The steps of the code: those that give no wakeup up, the two that wait and the two that
end a call. -/
inductive Gives (b : BoundedBuffer) : Loc → Call Cond → Loc → BoundedBuffer → Prop where
  | keeps {k : Loc} {x : Call Cond} {k' : Loc} {b' : BoundedBuffer}
      (hfits : fits b' = fits b) (hwait : ∀ c, x ≠ .wait c) (hw : ∀ c, k.wakes c ≤ k'.wakes c) : Gives b k x k' b'
  | waitRead {size : ℤ} (h : b.usedSize < size) :
      Gives b (.reading size) (.wait .empty) (.reading size) b
  | waitWrite {data : List UInt8} {size : ℤ} (h : b.maxSize - b.usedSize < size) :
      Gives b (.writing data size) (.wait .full) (.writing data size) b
  | endRead {size : ℤ} {got : List UInt8} {done : Done} {b' : BoundedBuffer} (h : size ≤ got.length)
      (hfits : fits b' = fits { b with usedSize := b.usedSize - size }) :
      Gives b (.copyingOut size got) (.signal .full) (.signalled done) b'
  | endWrite {data : List UInt8} {size : ℤ} {j : ℕ} {done : Done} {b' : BoundedBuffer} (h : size ≤ j)
      (hfits : fits b' = fits { b with usedSize := b.usedSize + size }) :
      Gives b (.copyingIn data size j) (.signal .empty) (.signalled done) b'

theorem gives (h : code k b i = some (x, k', b')) : Gives b k x k' b' := by
  unfold code at h
  split at h
  case h_1 =>
    split_ifs at h <;> cases h <;> exact .keeps rfl (by simp) (by simp [Loc.wakes])
  case h_2 | h_7 =>
    cases h
    exact .keeps rfl (by simp) (by simp [Loc.wakes])
  case h_3 data size =>
    split at h <;> cases h
    case h_1 hl => exact .waitWrite (by simpa using lacksRoom_some hl)
    case h_2 | h_3 => exact .keeps rfl (by simp) (fun c => by cases c <;> simp [Loc.wakes])
  case h_4 data size j =>
    split_ifs at h with hj
    · split at h <;> cases h
      case h_1 hput =>
        obtain ⟨byte, -, hput⟩ := Option.bind_eq_some_iff.mp hput
        exact .keeps (put_some hput) (by simp) (by simp [Loc.wakes])
      case h_2 => exact .keeps rfl (by simp) (by simp [Loc.wakes])
    · split at h <;> cases h
      case h_1 hadv => exact .endWrite (not_lt.mp hj) (advanceTail_some hadv)
      case h_2 => exact .keeps rfl (by simp) (by simp [Loc.wakes])
  case h_5 size =>
    split at h <;> cases h
    case h_1 hl => exact .waitRead (by simpa using lacksBytes_some hl)
    case h_2 | h_3 => exact .keeps rfl (by simp) (fun c => by cases c <;> simp [Loc.wakes])
  case h_6 size got =>
    split_ifs at h with hj
    · split at h <;> cases h <;> exact .keeps rfl (by simp) (by simp [Loc.wakes])
    · split at h <;> cases h
      case h_1 hadv => exact .endRead (not_lt.mp hj) (advanceHead_some hadv)
      case h_2 => exact .keeps rfl (by simp) (by simp [Loc.wakes])
  case h_8 => cases h

theorem waitsFor (c : Cond) : WaitsFor code fits c (Loc.wakes c) := by
  intro k b i x k' b' hcode
  cases gives hcode with
  | keeps hfits hwait hw =>
    exact ⟨fun hx => absurd hx (hwait c), .inr (.inr fun l hl => by rwa [hfits] at hl)⟩
  | waitRead h =>
    refine ⟨fun hx => ?_, .inr (.inr fun l hl => hl)⟩
    cases hx
    exact ⟨by simpa [fits] using h, le_rfl⟩
  | waitWrite h =>
    refine ⟨fun hx => ?_, .inr (.inr fun l hl => hl)⟩
    cases hx
    exact ⟨by simpa [fits] using h, le_rfl⟩
  | endRead | endWrite => exact ⟨nofun, .inl le_rfl⟩

omit [DecidableEq Tid] in
theorem KeepsWakeups.keepsWakeup (h : KeepsWakeups s e) (c : Cond) :
    s.KeepsWakeup code fits c (Loc.wakes c) e := by
  intro k x k' b' hpc hcode hk hcredit hlast hwant
  rw [KeepsWakeups, hpc] at h
  cases gives hcode with
  | keeps hfits hwait hw =>
    have hle := hw c
    cases x with
    | wait c' => exact hwait c' rfl
    | acquire | release | signal | broadcast | pause =>
      simp [Call.credit] at hcredit
      omega
  | waitRead hfew =>
    cases c with
    | full => cases hk
    | empty => exact h hfew ⟨hlast, hwant⟩
  | waitWrite hfull =>
    cases c with
    | full => exact h hfull ⟨hlast, hwant⟩
    | empty => cases hk
  | endRead hdone hfits =>
    cases c with
    | full => cases hcredit
    | empty => exact h hdone ⟨hlast, by rwa [State.Wanted, ← hfits]⟩
  | endWrite hdone hfits =>
    cases c with
    | full => exact h hdone ⟨hlast, by rwa [State.Wanted, ← hfits]⟩
    | empty => cases hcredit

/-! ### Every run -/

/-- Thread 1 waits for two bytes, is woken when thread 0 has written one, and waits again. -/
def readTwoWriteOne : List (Event (Fin 2) Input) :=
  ⟨t1, .read 2⟩ :: List.replicate 5 ⟨t1, .go⟩ ++
    ⟨t0, .write [7] 1⟩ :: List.replicate 9 ⟨t0, .go⟩ ++ List.replicate 7 ⟨t1, .go⟩

/-- The parties of a run that strands a reader. -/
inductive Party where
  | big
  | small
  | writer
  deriving DecidableEq

instance : Fintype Party := ⟨{.big, .small, .writer}, fun p => by cases p <;> decide⟩

/-- A reader of three bytes and then a reader of one byte wait, one byte is written, and the
wakeup goes to the first reader, which waits again. -/
def bigSmallWrite : List (Event Party Input) :=
  ⟨.big, .read 3⟩ :: List.replicate 5 ⟨.big, .go⟩ ++
    ⟨.small, .read 1⟩ :: List.replicate 5 ⟨.small, .go⟩ ++
    ⟨.writer, .write [7] 1⟩ :: List.replicate 9 ⟨.writer, .go⟩ ++ List.replicate 7 ⟨.big, .go⟩

end Coursework.Nachos.BoundedBuffer
