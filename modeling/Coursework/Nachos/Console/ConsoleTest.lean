import Coursework.Nachos.Console

/-!
# Output to the console, and the thread that echoes

`PutChar` writes a byte and schedules the interrupt for its end. `ConsoleTest` takes a character,
puts it and waits for this interrupt, so that the assertion of `PutChar` holds and no interrupt is
missed, wherever the polls and the interrupts come in between.
-/
namespace Coursework.Nachos.Console

/-- The output of a console. `scheduled` is the number of interrupts that are still to come. -/
structure Display where
  writeFile : List UInt8
  putBusy : Bool
  scheduled : ℕ
  deriving DecidableEq

/-- `none` where the assertion fails. -/
def putChar (ch : Int8) (d : Display) : Option Display :=
  if d.putBusy then none
  else some ⟨d.writeFile ++ [ch.toUInt8], true, d.scheduled + 1⟩

/-- `WriteDone`, but for the call of the write handler. -/
def Display.writeDone (d : Display) : Display :=
  { d with putBusy := false, scheduled := d.scheduled - 1 }

/-- The character at which the test ends. -/
def quit : Int8 := 'q'.toUInt8.toInt8

/-- Where the thread is in `ConsoleTest`. -/
inductive Pc where
  /-- at `readAvail->P()` -/
  | read
  /-- at `console->PutChar(ch)` -/
  | put (ch : Int8)
  /-- at `writeDone->P()` -/
  | write (ch : Int8)
  | returned
  deriving DecidableEq

/-- `writeDone` is the value of the semaphore. -/
structure Test where
  system : System
  display : Display
  writeDone : ℕ
  pc : Pc
  deriving DecidableEq

inductive TestEvent where
  | poll (pollFile : Bool)
  /-- `ConsoleWriteInt` -/
  | writeInt
  | thread
  deriving DecidableEq

def Test.start (input : List UInt8) : Test := ⟨.start input, ⟨[], false, 0⟩, 0, .read⟩

def Test.step (s : Test) : TestEvent → Option Test
  | .poll pollFile => (Console.step s.system (.poll pollFile)).map fun system =>
    { s with system := system }
  | .writeInt =>
    if s.display.scheduled = 0 then none
    else some { s with display := s.display.writeDone, writeDone := s.writeDone + 1 }
  | .thread =>
    match s.pc with
    | .read => (Console.step s.system .getChar).map fun system =>
      { s with system := system, pc := .put (getChar s.system.console).1 }
    | .put ch => (putChar ch s.display).map fun display =>
      { s with display := display, pc := .write ch }
    | .write ch =>
      if s.writeDone = 0 then none
      else some { s with
        writeDone := s.writeDone - 1
        pc := if ch = quit then .returned else .read }
    | .returned => none

def test : Machine Test TestEvent where
  init s := ∃ input, s = .start input
  step := Test.step

/-! ### The protocol -/

/-- No write is under way, and none has been reported that the thread has not seen. -/
def Test.Idle (s : Test) : Prop :=
  s.display.putBusy = false ∧ s.display.scheduled = 0 ∧ s.writeDone = 0

/-- One write is under way, or its end has been reported. -/
def Test.Writing (s : Test) : Prop :=
  s.display.putBusy = true ∧ s.display.scheduled = 1 ∧ s.writeDone = 0 ∨
    s.display.putBusy = false ∧ s.display.scheduled = 0 ∧ s.writeDone = 1

/-- Every character is written once, in the order of `GetChar`, and `q` ends the test. -/
inductive Echoes (s : Test) : Prop where
  | read (hpc : s.pc = .read) (hidle : s.Idle)
      (hwritten : s.system.returned = s.display.writeFile)
      (hquit : quit.toUInt8 ∉ s.display.writeFile)
  | put (ch : Int8) (hpc : s.pc = .put ch) (hidle : s.Idle)
      (hwritten : s.system.returned = s.display.writeFile ++ [ch.toUInt8])
      (hquit : quit.toUInt8 ∉ s.display.writeFile)
  | write (ch : Int8) (before : List UInt8) (hpc : s.pc = .write ch) (hwriting : s.Writing)
      (hwritten : s.system.returned = s.display.writeFile)
      (hlast : s.display.writeFile = before ++ [ch.toUInt8]) (hquit : quit.toUInt8 ∉ before)
  | returned (before : List UInt8) (hpc : s.pc = .returned) (hidle : s.Idle)
      (hwritten : s.system.returned = s.display.writeFile)
      (hlast : s.display.writeFile = before ++ [quit.toUInt8]) (hquit : quit.toUInt8 ∉ before)

variable {s s' : Test} {e : TestEvent} {input : List UInt8}

/-- The assertion of `PutChar` holds. -/
theorem Echoes.putChar_isSome (h : Echoes s) {ch : Int8} (hpc : s.pc = .put ch) :
    (putChar ch s.display).isSome := by
  cases h with
  | put ch' hpc' hidle => rw [putChar, hidle.1]; rfl
  | read hpc' | write _ _ hpc' | returned _ hpc' => cases hpc'.symm.trans hpc

/-- A thread that waits for a write is woken: the interrupt is still to come or has been counted. -/
theorem Echoes.writeInt_isSome (h : Echoes s) {ch : Int8} (hpc : s.pc = .write ch) :
    (s.step .writeInt).isSome ∨ (s.step .thread).isSome := by
  cases h with
  | write ch' before hpc' hwriting =>
    rcases hwriting with ⟨_, hscheduled, _⟩ | ⟨_, _, hdone⟩
    · left
      rw [Test.step, if_neg (by omega)]
      rfl
    · right
      simp only [Test.step, hpc, if_neg (show ¬ s.writeDone = 0 by omega)]
      rfl
  | read hpc' | put _ hpc' | returned _ hpc' => cases hpc'.symm.trans hpc

/-- The thread has seen the end of the write. -/
theorem Test.Writing.seen (h : s.Writing) (hdone : s.writeDone ≠ 0) :
    s.display.putBusy = false ∧ s.display.scheduled = 0 ∧ s.writeDone - 1 = 0 := by
  rcases h with ⟨_, _, hzero⟩ | ⟨hbusy, hscheduled, hone⟩
  · exact absurd hzero hdone
  · exact ⟨hbusy, hscheduled, by omega⟩

theorem poll_returned {pollFile : Bool} {system : System}
    (h : Console.step s.system (.poll pollFile) = some system) :
    system.returned = s.system.returned := by
  obtain ⟨_, _, rfl⟩ := Option.map_eq_some_iff.mp h
  rfl

theorem getChar_returned {system : System} (h : Console.step s.system .getChar = some system) :
    system.returned = s.system.returned ++ [(getChar s.system.console).1.toUInt8] := by
  rw [Console.step] at h
  split_ifs at h
  cases h
  rfl

theorem step_echoes (h : Echoes s) (hs : s.step e = some s') : Echoes s' := by
  cases e with
  | poll pollFile =>
    obtain ⟨system, hsystem, rfl⟩ := Option.map_eq_some_iff.mp hs
    have hreturned := poll_returned hsystem
    cases h with
    | read hpc hidle hwritten hquit => exact .read hpc hidle (hreturned.trans hwritten) hquit
    | put ch hpc hidle hwritten hquit => exact .put ch hpc hidle (hreturned.trans hwritten) hquit
    | write ch before hpc hwriting hwritten hlast hquit =>
      exact .write ch before hpc hwriting (hreturned.trans hwritten) hlast hquit
    | returned before hpc hidle hwritten hlast hquit =>
      exact .returned before hpc hidle (hreturned.trans hwritten) hlast hquit
  | writeInt =>
    rw [Test.step] at hs
    split_ifs at hs with hscheduled
    cases hs
    cases h with
    | write ch before hpc hwriting hwritten hlast hquit =>
      refine .write ch before hpc (.inr ?_) hwritten hlast hquit
      rcases hwriting with ⟨_, hone, hdone⟩ | ⟨_, hzero, _⟩
      · exact ⟨rfl, by simp [Display.writeDone, hone], by simp [hdone]⟩
      · exact absurd hzero hscheduled
    | read _ hidle | put _ _ hidle | returned _ _ hidle => exact absurd hidle.2.1 hscheduled
  | thread =>
    cases h with
    | read hpc hidle hwritten hquit =>
      simp only [Test.step, hpc] at hs
      obtain ⟨system, hsystem, rfl⟩ := Option.map_eq_some_iff.mp hs
      refine .put _ rfl hidle ?_ hquit
      rw [getChar_returned hsystem, hwritten]
    | put ch hpc hidle hwritten hquit =>
      simp only [Test.step, hpc, putChar, hidle.1] at hs
      cases hs
      exact .write ch _ rfl (.inl ⟨rfl, by simp [hidle.2.1], hidle.2.2⟩) hwritten rfl hquit
    | write ch before hpc hwriting hwritten hlast hquit =>
      simp only [Test.step, hpc] at hs
      split_ifs at hs with hdone hch <;> cases hs
      · exact .returned before rfl (hwriting.seen hdone) hwritten (hch ▸ hlast) hquit
      · refine .read rfl (hwriting.seen hdone) hwritten ?_
        simp only [hlast, List.mem_append, List.mem_singleton, not_or]
        refine ⟨hquit, fun heq => hch ?_⟩
        rw [← Int8.toInt8_toUInt8 ch, ← heq, Int8.toInt8_toUInt8]
    | returned before hpc => simp only [Test.step, hpc, reduceCtorEq] at hs

theorem start_echoes (input : List UInt8) : Echoes (.start input) :=
  .read rfl ⟨rfl, rfl, rfl⟩ rfl List.not_mem_nil

/-! ### What is echoed -/

/-- The input up to the first `q`. -/
def upToQuit (input : List UInt8) : List UInt8 :=
  input.takeWhile (· ≠ quit.toUInt8) ++ (input.dropWhile (· ≠ quit.toUInt8)).take 1

theorem upToQuit_cons (byte : UInt8) (rest : List UInt8) :
    upToQuit (byte :: rest) =
      if byte = quit.toUInt8 then [byte] else byte :: upToQuit rest := by
  rw [upToQuit, upToQuit, List.takeWhile_cons, List.dropWhile_cons]
  by_cases hbyte : byte = quit.toUInt8
  · simp [hbyte]
  · simp [hbyte]

/-- What has `q` at its end at most. -/
theorem prefix_upToQuit {written : List UInt8} (h : written <+: input)
    (hquit : ∀ before byte, written = before ++ [byte] → quit.toUInt8 ∉ before) :
    written <+: upToQuit input := by
  induction written generalizing input with
  | nil => exact List.nil_prefix
  | cons byte written ih =>
    obtain ⟨rest, rfl⟩ := h
    rw [List.cons_append, upToQuit_cons]
    have hrest : ∀ before last, written = before ++ [last] → quit.toUInt8 ∉ byte :: before :=
      fun before last hlast => hquit (byte :: before) last (by rw [hlast]; rfl)
    split_ifs with hbyte
    · rcases List.eq_nil_or_concat written with rfl | ⟨before, last, hlast⟩
      · exact List.prefix_rfl
      · exact absurd (hbyte ▸ List.mem_cons_self) (hrest before last (by simpa using hlast))
    · refine List.cons_prefix_cons.mpr
        ⟨rfl, ih (List.prefix_append _ _) fun before last hlast => ?_⟩
      exact fun hmem => hrest before last hlast (List.mem_cons_of_mem _ hmem)

/-- The output is the start of the input, and all of it up to `q` when the test ends. -/
def Echoed (input : List UInt8) (s : Test) : Prop :=
  s.display.writeFile <+: upToQuit input ∧
    (s.pc = .returned → s.display.writeFile = upToQuit input ∧ quit.toUInt8 ∈ input)

/-- No poll finds more input while a byte 255 has been read and not returned. -/
def UnmarkedPoll (s : Test) : TestEvent → Prop
  | .poll pollFile => Unmarked s.system (.poll pollFile)
  | .writeInt | .thread => True

instance (s : Test) : (e : TestEvent) → Decidable (UnmarkedPoll s e)
  | .poll pollFile =>
    inferInstanceAs (Decidable (pollFile → 255 ∉ s.system.read.drop s.system.returned.length))
  | .writeInt | .thread => .isTrue trivial

theorem upToQuit_append {before : List UInt8} (hquit : quit.toUInt8 ∉ before)
    (rest : List UInt8) :
    upToQuit (before ++ [quit.toUInt8] ++ rest) = before ++ [quit.toUInt8] := by
  induction before with
  | nil => rw [List.nil_append, List.cons_append, upToQuit_cons, if_pos rfl]
  | cons byte before ih =>
    rw [List.mem_cons, not_or] at hquit
    rw [List.cons_append, List.cons_append, upToQuit_cons, if_neg fun heq => hquit.1 heq.symm,
      ih hquit.2]

theorem echoed (h : Echoes s) (hbuffered : Buffered input s.system) : Echoed input s := by
  have hreturned := (buffered_lossless hbuffered).1
  have hlast : ∀ {before after : List UInt8} {byte : UInt8},
      before ++ [byte] = after → quit.toUInt8 ∉ after → quit.toUInt8 ∉ before :=
    fun heq hquit hmem => hquit (heq ▸ List.mem_append_left _ hmem)
  cases h with
  | read hpc hidle hwritten hquit =>
    exact ⟨prefix_upToQuit (hwritten ▸ hreturned) fun before byte heq => hlast heq.symm hquit,
      fun h => by cases hpc.symm.trans h⟩
  | put ch hpc hidle hwritten hquit =>
    rw [hwritten] at hreturned
    exact ⟨prefix_upToQuit ((List.prefix_append _ _).trans hreturned)
      fun before byte heq => hlast heq.symm hquit, fun h => by cases hpc.symm.trans h⟩
  | write ch before hpc hwriting hwritten heq hquit =>
    refine ⟨prefix_upToQuit (hwritten ▸ hreturned) fun before' byte heq' => ?_,
      fun h => by cases hpc.symm.trans h⟩
    rwa [← (List.append_inj' (heq.symm.trans heq') rfl).1]
  | returned before hpc hidle hwritten heq hquit =>
    rw [hwritten, heq] at hreturned
    obtain ⟨rest, rfl⟩ := hreturned
    rw [Echoed, upToQuit_append hquit, heq]
    exact ⟨List.prefix_rfl, fun _ => ⟨rfl, by simp⟩⟩

theorem step_system (h : Buffered input s.system) (hok : UnmarkedPoll s e)
    (hs : s.step e = some s') : Buffered input s'.system := by
  cases e with
  | poll pollFile =>
    obtain ⟨system, hsystem, rfl⟩ := Option.map_eq_some_iff.mp hs
    exact step_buffered (e := .poll pollFile) h hok hsystem
  | writeInt =>
    rw [Test.step] at hs
    split_ifs at hs
    cases hs
    exact h
  | thread =>
    rw [Test.step] at hs
    split at hs
    · obtain ⟨system, hsystem, rfl⟩ := Option.map_eq_some_iff.mp hs
      exact step_buffered (e := .getChar) h trivial hsystem
    · obtain ⟨display, _, rfl⟩ := Option.map_eq_some_iff.mp hs
      exact h
    · split_ifs at hs <;> cases hs <;> exact h
    · cases hs

/-- Along every run of polls, interrupts and the thread, each character is written once and in
order, the assertion of `PutChar` holds and the thread is woken. Where no input is lost, the
output is the input up to `q`. -/
theorem console_test_echoes (input : List UInt8) (events : List TestEvent) :
    test.Visits (fun s => Echoes s ∧ (∀ ch, s.pc = .put ch → (putChar ch s.display).isSome) ∧
        ∀ ch, s.pc = .write ch → (s.step .writeInt).isSome ∨ (s.step .thread).isSome)
      (.start input) events ∧
    (test.Meets UnmarkedPoll (.start input) events →
      test.Visits (Echoed input) (.start input) events) := by
  constructor
  · exact (Machine.meets_true _ _).visits (I := Echoes)
      (fun s h => ⟨h, fun _ => h.putChar_isSome, fun _ => h.writeInt_isSome⟩)
      (fun _ _ _ h _ hs => step_echoes h hs) (start_echoes input)
  · intro hmeets
    exact hmeets.visits (I := fun s => Echoes s ∧ Buffered input s.system)
      (fun _ h => echoed h.1 h.2)
      (fun _ _ _ h hok hs => ⟨step_echoes h.1 hs, step_system h.2 hok hs⟩)
      ⟨start_echoes input, .empty rfl rfl rfl rfl⟩

/-- Two characters are typed, the second one is `q`. -/
def twoCharacters : List TestEvent :=
  [.poll true, .thread, .thread, .poll true, .writeInt, .thread, .thread, .thread, .writeInt,
    .thread]

theorem twoCharacters_unmarked :
    test.Meets UnmarkedPoll (.start [65, 113, 66]) twoCharacters := by decide

theorem twoCharacters_run : ∃ s, test.run (.start [65, 113, 66]) twoCharacters = some s ∧
    s.pc = .returned := ⟨_, rfl, rfl⟩

theorem console_test_echoes_twoCharacters :
    ∃ s, test.run (.start [65, 113, 66]) twoCharacters = some s ∧
      s.display.writeFile = upToQuit [65, 113, 66] := by
  obtain ⟨s, hrun, hpc⟩ := twoCharacters_run
  have hvisits := (console_test_echoes [65, 113, 66] twoCharacters).2 twoCharacters_unmarked
  exact ⟨s, hrun, ((hvisits.last hrun).2 hpc).1⟩

end Coursework.Nachos.Console
