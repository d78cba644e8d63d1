import Coursework.Unix.Shell.RoundTrip

/-!
# What the shell dispatches

The lines that are typed are dispatched one after the other. The loop does not end with its input:
every round dispatches a command or goes wrong.
-/
namespace Coursework.Unix.Shell
open CString

/-- What a parsed line asks for; `none` is a `NULL` for `strcmp` or `chdir`. -/
def Parse.command (home : Option Word) (a : Parse) : Option Command :=
  match a.args with
  | [] => none
  | name :: args =>
    if name = cdName then
      let dir := match args with
        | [] => home
        | dir :: _ => if dir = homeName then home else some dir
      dir.map .cd
    else if name = pwdName then some .pwd
    else some (.run a.args a.rf a.wf)

/-- The commands on the standard input. -/
def typed (home : Option Word) (stdin : List UInt8) : List Command :=
  (stdin.splitOn newline).filterMap fun line => (parse (words space line)).command home

/-- `main` dispatches what was typed and nothing else. -/
structure RunsTyped (home : Option Word) (s : State) (stdin : List UInt8) : Prop where
  sound : ∀ rounds, (main home rounds s stdin).1 <+: typed home stdin
  complete : ∃ rounds, (main home rounds s stdin).1 = typed home stdin
  faultless : ∀ rounds, (main home rounds s stdin).2 = none

variable {home : Option Word} {s : State} {stdin rest : List UInt8} {rounds : ℕ}

/-! ### Lines -/

theorem Represents.words_eq {a : Parse} {save : ℕ} (h : Represents s save a) :
    s.words = a.args := by
  rw [State.words]
  simp only [h.string_argv, h.argc]
  have hmap := congrArg (List.filterMap id) (map_range_getElem? a.args)
  rwa [List.filterMap_map, List.filterMap_map, Function.id_comp, Function.id_comp,
    List.filterMap_some] at hmap

/-- What is dispatched is what was parsed. -/
theorem dispatch_represents (home : Option Word) {a : Parse} {save : ℕ} (h : Represents s save a) :
    dispatch home s = match a.command home with
      | none => .error .nullArgument
      | some command => .ok command := by
  have hwords := h.words_eq
  have hstring := h.string_argv
  have hrf : s.rf.map s.string = a.rf := string_of_rel h.rf
  have hwf : s.wf.map s.string = a.wf := string_of_rel h.wf
  rcases hargs : a.args with _ | ⟨name, args⟩
  · have hnone : s.argv 0 = none := by
      have hzero := hstring 0
      rwa [hargs, List.getElem?_nil, Option.map_eq_none_iff] at hzero
    rw [dispatch, hnone, Parse.command, hargs]
  · have hname := hstring 0
    have hdir := hstring 1
    rw [hargs, List.getElem?_cons_zero, Option.map_eq_some_iff] at hname
    rw [hargs, List.getElem?_cons_succ] at hdir
    obtain ⟨p, hp, hname⟩ := hname
    rw [dispatch, hp, Parse.command, hargs]
    simp only [hname, hwords, hrf, hwf]
    split_ifs
    · cases args with
      | nil =>
        rw [List.getElem?_nil, Option.map_eq_none_iff] at hdir
        rw [hdir]
        cases home <;> rfl
      | cons dir args =>
        rw [List.getElem?_cons_zero, Option.map_eq_some_iff] at hdir
        obtain ⟨q, hq, hdir⟩ := hdir
        rw [hq]
        simp only [hdir]
        cases (if dir = homeName then home else some dir) <;> rfl
    · rfl
    · rw [hargs]

theorem readLine_newline {line : List UInt8} {n : ℕ} (hline : newline ∉ line)
    (hlen : line.length < n) :
    readLine n (line ++ newline :: rest) = (line ++ [newline], rest) := by
  induction line generalizing n with
  | nil =>
    obtain ⟨n, rfl⟩ := Nat.exists_eq_succ_of_ne_zero hlen.ne'
    rfl
  | cons c line ih =>
    obtain ⟨n, rfl⟩ := Nat.exists_eq_succ_of_ne_zero (Nat.zero_lt_of_lt hlen).ne'
    have hc : c ≠ newline := fun h => hline (h ▸ List.mem_cons_self)
    rw [List.cons_append, readLine, if_neg hc,
      ih (fun h => hline (List.mem_cons_of_mem _ h)) (Nat.lt_of_succ_lt_succ hlen)]
    rfl

/-- What `fgets` leaves in `buf`. -/
theorem fgets_line {l : Line} (hended : l.ended = true) (b rest : List UInt8) :
    Holds (fgets b (l.text ++ rest)).1 l.text ∧ (fgets b (l.text ++ rest)).2 = rest := by
  have hshort := l.short
  have hline : newline ∉ render space l.pieces l.trailing :=
    not_mem_render (by decide) fun p hp => (l.word p.2 (List.mem_map_of_mem hp)).2.2.1
  have hzero : 0 ∉ render space l.pieces l.trailing :=
    not_mem_render (by decide) fun p hp => (l.word p.2 (List.mem_map_of_mem hp)).2.2.2
  rw [hended] at hshort
  have hread : readLine (MAXLINE - 2) (render space l.pieces l.trailing ++ newline :: rest) =
      (render space l.pieces l.trailing ++ [newline], rest) := by
    apply readLine_newline hline
    rw [Bool.toNat_true] at hshort
    unfold MAXLINE
    omega
  rw [Line.text, if_pos hended, List.append_assoc, List.singleton_append, fgets,
    if_neg (by simp), hread]
  refine ⟨⟨?_, _, List.append_assoc _ [0] _⟩, rfl⟩
  rw [List.mem_append, List.mem_singleton, not_or]
  exact ⟨hzero, by decide⟩

theorem main_line {l : Line} {command : Command} (hended : l.ended = true)
    (hcommand : l.parsed.command home = some command) (rest : List UInt8) (rounds : ℕ)
    (s : State) :
    ∃ s', main home (rounds + 1) s (l.text ++ rest) =
      (command :: (main home rounds s' rest).1, (main home rounds s' rest).2) := by
  obtain ⟨hbuf, hrest⟩ := fgets_line hended s.buf rest
  obtain ⟨s', save, hread, hrep⟩ :=
    line_represents (s := { s with buf := (fgets s.buf (l.text ++ rest)).1 }) l hbuf
  have hdispatch := dispatch_represents home hrep
  rw [hcommand] at hdispatch
  refine ⟨s', ?_⟩
  rw [main]
  simp only [hread, hdispatch, hrest]

theorem typed_line {l : Line} {command : Command} (hended : l.ended = true)
    (hcommand : l.parsed.command home = some command) :
    typed home (l.text ++ rest) = command :: typed home rest := by
  have hline : newline ∉ render space l.pieces l.trailing :=
    not_mem_render (by decide) fun p hp => (l.word p.2 (List.mem_map_of_mem hp)).2.2.1
  have hwords : words space (render space l.pieces l.trailing) = l.pieces.map Prod.snd :=
    words_render (fun w hw => ⟨(l.word w hw).1, (l.word w hw).2.1⟩) l.spaced
  rw [Line.text, if_pos hended, List.append_assoc, List.singleton_append, typed,
    List.splitOn_append_cons_self_of_not_mem hline, List.filterMap_cons, hwords, parse_line,
    hcommand]
  rfl

/-- While there are lines the shell runs what was typed. -/
theorem main_lines {ls : List Line} (hended : ∀ l ∈ ls, l.ended = true)
    (hcommand : ∀ l ∈ ls, l.parsed.command home ≠ none) (s : State) :
    main home ls.length s (ls.flatMap Line.text) =
      (typed home (ls.flatMap Line.text), none) := by
  induction ls generalizing s with
  | nil => rfl
  | cons l ls ih =>
    obtain ⟨command, hl⟩ := Option.ne_none_iff_exists'.mp (hcommand l List.mem_cons_self)
    have hnewline := hended l List.mem_cons_self
    obtain ⟨s', hmain⟩ := main_line hnewline hl (ls.flatMap Line.text) ls.length s
    rw [List.flatMap_cons, List.length_cons, hmain, typed_line hnewline hl,
      ih (fun l hl => hended l (List.mem_cons_of_mem _ hl))
        fun l hl => hcommand l (List.mem_cons_of_mem _ hl)]

/-! ### The end of the file -/

/-- Every round that does not go wrong dispatches a command. -/
theorem length_main (h : (main home rounds s stdin).2 = none) :
    (main home rounds s stdin).1.length = rounds := by
  induction rounds generalizing s stdin with
  | zero => rfl
  | succ rounds ih =>
    rw [main] at h ⊢
    cases hread : ({ s with buf := (fgets s.buf stdin).1 } : State).init.readFromBuf with
    | error fault =>
      simp only [hread] at h
      cases h
    | ok s' =>
      cases hdispatch : dispatch home s' with
      | error fault =>
        simp only [hread, hdispatch] at h
        cases h
      | ok command =>
        simp only [hread, hdispatch] at h ⊢
        rw [List.length_cons, ih h]

theorem outlasts (h : (main home ((typed home stdin).length + 1) s stdin).2 = none) :
    ¬ (main home ((typed home stdin).length + 1) s stdin).1 <+: typed home stdin := by
  intro hstarts
  have hle := hstarts.length_le
  rw [length_main h] at hle
  omega

/-- The shell does not run what was typed and nothing else, whatever is typed. -/
theorem not_runsTyped (home : Option Word) (s : State) (stdin : List UInt8) :
    ¬ RunsTyped home s stdin :=
  fun h => outlasts (h.faultless _) (h.sound _)

/-- `pwd` and a newline. -/
def pwdInput : List UInt8 := pwdName ++ [newline]

/-- Before the first line, with zeros in `buf`. -/
def startState : State := ⟨List.replicate MAXLINE 0, fun _ => none, 0, none, none⟩

/-- The line is dispatched a second time at the end of the file. -/
theorem pwdInput_twice : main none 2 startState pwdInput = ([.pwd, .pwd], none) := by
  decide +kernel

theorem pwdInput_not_runsTyped : ¬ RunsTyped none startState pwdInput := by
  intro h
  have hsound := h.sound 2
  rw [pwdInput_twice] at hsound
  have htyped : typed none pwdInput = [.pwd] := by decide +kernel
  rw [htyped] at hsound
  exact absurd hsound.length_le (by decide)

end Coursework.Unix.Shell
