import Coursework.Lib.Machine
import Mathlib.Tactic.SplitIfs

/-!
# Input from the console

`CheckCharAvail` reads a byte when the buffer looks empty, and the kernel takes it with `GetChar`
after the interrupt. A byte 255 looks like an empty buffer, and the next poll writes over it.
Nothing is lost exactly along the runs in which no poll finds more input while a byte 255 is in
the buffer.
-/
namespace Coursework.Nachos

/-- `readFile` is what is left of the file. -/
structure Console where
  readFile : List UInt8
  incoming : Int8
  deriving DecidableEq

namespace Console

/-- As a `char`, which has a sign. -/
def eof : Int8 := -1

/-- `pollFile` is what `PollFile` answers. The second component says whether the read handler is
called; `Read` aborts at the end of the file. -/
def checkCharAvail (pollFile : Bool) (c : Console) : Option (Console × Bool) :=
  if c.incoming ≠ eof ∨ ¬ pollFile then some (c, false)
  else
    match c.readFile with
    | [] => none
    | byte :: rest => some (⟨rest, byte.toInt8⟩, true)

def getChar (c : Console) : Int8 × Console := (c.incoming, { c with incoming := eof })

/-! ### The kernel -/

/-- `readAvail` is the value of the semaphore. The bytes that have been read from the file and
those that `GetChar` has returned are recorded. -/
structure System where
  console : Console
  readAvail : ℕ
  read : List UInt8
  returned : List UInt8
  deriving DecidableEq

inductive Event where
  | poll (pollFile : Bool)
  /-- A thread comes back from `readAvail->P()` and calls `GetChar`. -/
  | getChar
  deriving DecidableEq

def System.start (input : List UInt8) : System := ⟨⟨input, eof⟩, 0, [], []⟩

def step (s : System) : Event → Option System
  | .poll pollFile => (checkCharAvail pollFile s.console).map fun (console, readHandler) =>
    { s with
      console := console
      readAvail := if readHandler then s.readAvail + 1 else s.readAvail
      read := if readHandler then s.read ++ s.console.readFile.take 1 else s.read }
  | .getChar =>
    if s.readAvail = 0 then none
    else
      let (ch, console) := getChar s.console
      some { s with
        console := console
        readAvail := s.readAvail - 1
        returned := s.returned ++ [ch.toUInt8] }

def machine : Machine System Event where
  init s := ∃ input, s = .start input
  step := step

/-- What is returned is the start of the input, and what is read and not returned is in the
buffer. -/
def Lossless (input : List UInt8) (s : System) : Prop :=
  s.returned <+: input ∧
    (s.read = s.returned ∨ s.read = s.returned ++ [s.console.incoming.toUInt8])

/-- No poll finds more input while a byte 255 has been read and not returned. -/
def Unmarked (s : System) : Event → Prop
  | .poll pollFile => pollFile → 255 ∉ s.read.drop s.returned.length
  | .getChar => True

/-! ### One byte at a time -/

/-- The buffer is empty, or there is one byte in it and one interrupt for it. -/
inductive Buffered (input : List UInt8) (s : System) : Prop where
  | empty (hinput : s.read ++ s.console.readFile = input) (hread : s.read = s.returned)
      (hincoming : s.console.incoming = eof) (havail : s.readAvail = 0)
  | full (hinput : s.read ++ s.console.readFile = input)
      (hread : s.read = s.returned ++ [s.console.incoming.toUInt8]) (havail : s.readAvail = 1)

variable {input : List UInt8} {s s' : System} {e : Event}

theorem buffered_lossless (h : Buffered input s) : Lossless input s := by
  cases h with
  | empty hinput hread hincoming havail =>
    refine ⟨?_, .inl hread⟩
    rw [← hinput, ← hread]
    exact List.prefix_append _ _
  | full hinput hread havail =>
    refine ⟨?_, .inr hread⟩
    rw [← hinput, hread, List.append_assoc]
    exact List.prefix_append _ _

theorem checkCharAvail_cases {pollFile readHandler : Bool} {c c' : Console}
    (h : checkCharAvail pollFile c = some (c', readHandler)) :
    readHandler = false ∧ c' = c ∧ (c.incoming ≠ eof ∨ pollFile = false) ∨
      readHandler = true ∧ pollFile = true ∧ c.incoming = eof ∧
        ∃ byte, c.readFile = byte :: c'.readFile ∧ c'.incoming = byte.toInt8 := by
  rw [checkCharAvail] at h
  split_ifs at h with hlook
  · cases h
    exact .inl ⟨rfl, rfl, hlook.imp_right fun h => Bool.eq_false_iff.mpr h⟩
  · rw [not_or, not_not, not_not] at hlook
    cases hfile : c.readFile with
    | nil =>
      rw [hfile] at h
      cases h
    | cons byte rest =>
      rw [hfile] at h
      cases h
      exact .inr ⟨rfl, hlook.2, hlook.1, byte, rfl, rfl⟩

theorem drop_returned (h : s.read = s.returned ++ [s.console.incoming.toUInt8]) :
    s.read.drop s.returned.length = [s.console.incoming.toUInt8] := by
  rw [h, List.drop_left]

theorem step_buffered (h : Buffered input s) (hok : Unmarked s e)
    (hs : machine.step s e = some s') : Buffered input s' := by
  cases e with
  | poll pollFile =>
    obtain ⟨⟨c', readHandler⟩, hcheck, rfl⟩ := Option.map_eq_some_iff.mp hs
    rcases checkCharAvail_cases hcheck with
      ⟨rfl, rfl, _⟩ | ⟨rfl, hpoll, hempty, byte, hfile, hbyte⟩
    · exact h
    · cases h with
      | empty hinput hread hincoming havail =>
        apply Buffered.full
        · simp [← hinput, hfile]
        · simp [hread, hfile, hbyte]
        · simp [havail]
      | full hinput hread havail =>
        -- the byte in the buffer is 255
        have hmark := hok hpoll
        rw [drop_returned hread, hempty] at hmark
        exact absurd (List.mem_singleton.mpr rfl) hmark
  | getChar =>
    simp only [machine, step] at hs
    cases h with
    | empty hinput hread hincoming havail =>
      rw [if_pos havail] at hs
      cases hs
    | full hinput hread havail =>
      rw [if_neg (by omega)] at hs
      cases hs
      exact .empty hinput hread rfl (by simp [havail])

theorem step_lost (h : Buffered input s) (hno : ¬ Unmarked s e)
    (hs : machine.step s e = some s') : ¬ Lossless input s' := by
  cases e with
  | poll pollFile =>
    rw [Unmarked, Classical.not_imp, not_not] at hno
    obtain ⟨hpoll, hmark⟩ := hno
    cases h with
    | empty hinput hread hincoming havail => simp [hread] at hmark
    | full hinput hread havail =>
      rw [drop_returned hread, List.mem_singleton] at hmark
      have hempty : s.console.incoming = eof := by
        rw [← Int8.toInt8_toUInt8 s.console.incoming, ← hmark]
        rfl
      obtain ⟨⟨c', readHandler⟩, hcheck, rfl⟩ := Option.map_eq_some_iff.mp hs
      rcases checkCharAvail_cases hcheck with
        ⟨_, _, hnone⟩ | ⟨rfl, _, _, byte, hfile, hbyte⟩
      · exact absurd hnone (by simp [hempty, hpoll])
      · -- two bytes have been read and not returned
        rintro ⟨_, hone⟩
        simp [hread, hfile] at hone
  | getChar => exact absurd trivial hno

/-- The input is lost at the first poll that finds more input while a byte 255 is in the buffer,
and not before. -/
theorem console_lossless (input : List UInt8) (events : List Event) :
    machine.Visits (Lossless input) (.start input) events ↔
      machine.Meets Unmarked (.start input) events := by
  have hpre : machine.Meets (fun _ _ => True) (.start input) events := Machine.meets_true _ _
  exact Machine.visits_iff_meets (fun _ h => buffered_lossless h)
    (fun _ _ _ h _ hok hs => step_buffered h hok hs) (fun _ _ _ h hno hs => step_lost h hno hs)
    (.empty rfl rfl rfl rfl) hpre

/-- The byte 255 is written over, and the letter behind it is returned first. -/
theorem console_loses_input :
    machine.run (.start [255, 65]) [.poll true, .poll true, .getChar] =
        some ⟨⟨[], eof⟩, 1, [255, 65], [65]⟩ ∧
      ¬ machine.Visits (Lossless [255, 65]) (.start [255, 65])
        [.poll true, .poll true, .getChar] := by
  have hrun : machine.run (.start [255, 65]) [.poll true, .poll true, .getChar] =
      some ⟨⟨[], eof⟩, 1, [255, 65], [65]⟩ := rfl
  refine ⟨hrun, fun hvisits => ?_⟩
  have hlossless := hvisits.last hrun
  exact absurd hlossless.1 (by decide)

end Console
end Coursework.Nachos
