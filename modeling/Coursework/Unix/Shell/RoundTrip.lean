import Coursework.Unix.Shell.Parse

/-!
# Command lines parse back

A command line is typed from arguments and at most two redirections, in any order and with any
number of spaces. The parse of it is what it was typed from.
-/
namespace Coursework.Unix.Shell
open CString

/-- What a command line consists of. -/
inductive Item where
  | arg (w : Word)
  | input (file : Word)
  | output (file : Word)

namespace Item

def words : Item → List Word
  | arg w => [w]
  | input file => [inputOp, file]
  | output file => [outputOp, file]

def arg? : Item → Option Word
  | arg w => some w
  | _ => none

def input? : Item → Option Word
  | input file => some file
  | _ => none

def output? : Item → Option Word
  | output file => some file
  | _ => none

end Item

/-- A command line. Each of its words stands behind a number of spaces. -/
structure Line where
  items : List Item
  pieces : List (ℕ × Word)
  trailing : ℕ
  /-- There is a newline at the end. -/
  ended : Bool
  words : pieces.map Prod.snd = items.flatMap Item.words
  spaced : Spaced pieces
  nonempty : items.filterMap Item.arg? ≠ []
  oneInput : (items.filterMap Item.input?).length ≤ 1
  oneOutput : (items.filterMap Item.output?).length ≤ 1
  word : ∀ w ∈ pieces.map Prod.snd, w ≠ [] ∧ space ∉ w ∧ newline ∉ w ∧ 0 ∉ w
  args : ∀ w ∈ items.filterMap Item.arg?, w ≠ inputOp ∧ w ≠ outputOp
  short : (render space pieces trailing).length + ended.toNat ≤ 1022

/-- What it was typed from. -/
def Line.parsed (l : Line) : Parse where
  args := l.items.filterMap Item.arg?
  rf := (l.items.filterMap Item.input?).head?
  wf := (l.items.filterMap Item.output?).head?

def Line.text (l : Line) : List UInt8 :=
  render space l.pieces l.trailing ++ if l.ended then [newline] else []

variable {a : Parse} {items : List Item} {s : State}

theorem next_arg {w : Word} (hw : w ≠ inputOp ∧ w ≠ outputOp) :
    a.next 0 w = ({ a with args := a.args ++ [w] }, 0) := by
  rw [Parse.next, if_neg (by decide), if_neg (by decide), if_neg hw.1, if_neg hw.2]

theorem getLast?_cons_or {α : Type} (x : α) (l : List α) (y : Option α) :
    (x :: l).getLast?.or y = l.getLast?.or (some x) := by
  rw [List.getLast?_cons]
  cases l.getLast? <;> rfl

/-- The operators and the words behind them do not get among the arguments. -/
theorem words_items (hargs : ∀ w ∈ items.filterMap Item.arg?, w ≠ inputOp ∧ w ≠ outputOp) :
    a.words 0 (items.flatMap Item.words) =
      ⟨a.args ++ items.filterMap Item.arg?, (items.filterMap Item.input?).getLast?.or a.rf,
        (items.filterMap Item.output?).getLast?.or a.wf⟩ := by
  induction items generalizing a with
  | nil =>
    rw [List.flatMap_nil, Parse.words, List.filterMap_nil, List.append_nil]
    rfl
  | cons item items ih =>
    cases item with
    | arg w =>
      have hw : w ≠ inputOp ∧ w ≠ outputOp := hargs w List.mem_cons_self
      change Parse.words (a.next 0 w).1 (a.next 0 w).2 (items.flatMap Item.words) = _
      rw [next_arg hw, ih fun w hw => hargs w (List.mem_cons_of_mem _ hw)]
      simp only [List.append_assoc]
      rfl
    | input file =>
      change Parse.words { a with rf := some file } 0 (items.flatMap Item.words) = _
      rw [ih hargs]
      change _ = (⟨_, (file :: items.filterMap Item.input?).getLast?.or a.rf, _⟩ : Parse)
      rw [getLast?_cons_or]
      rfl
    | output file =>
      change Parse.words { a with wf := some file } 0 (items.flatMap Item.words) = _
      rw [ih hargs]
      change _ = (⟨_, _, (file :: items.filterMap Item.output?).getLast?.or a.wf⟩ : Parse)
      rw [getLast?_cons_or]
      rfl

theorem getLast?_eq_head? {α : Type} {l : List α} (h : l.length ≤ 1) : l.getLast? = l.head? := by
  match l, h with
  | [], _ => rfl
  | [x], _ => rfl

theorem parse_line (l : Line) : parse (l.pieces.map Prod.snd) = l.parsed := by
  rw [parse, l.words, words_items l.args, getLast?_eq_head? l.oneInput,
    getLast?_eq_head? l.oneOutput]
  simp only [List.nil_append, Option.or_none]
  rfl

theorem length_args_le (items : List Item) :
    (items.filterMap Item.arg?).length ≤ (items.flatMap Item.words).length := by
  induction items with
  | nil => exact le_rfl
  | cons item items ih =>
    rw [List.flatMap_cons, List.length_append]
    cases item with
    | arg w =>
      change (items.filterMap Item.arg?).length + 1 ≤ 1 + _
      omega
    | input | output =>
      change (items.filterMap Item.arg?).length ≤ 2 + _
      omega

theorem Line.length_parsed_le (l : Line) : l.parsed.args.length ≤ l.pieces.length := by
  have hle := length_args_le l.items
  rwa [← l.words, List.length_map] at hle

theorem Line.length_pieces_lt (l : Line) : l.pieces.length < MAXLINE := by
  have hle : l.pieces.length ≤ (render space l.pieces l.trailing).length :=
    length_le_render fun p hp => (l.word p.2 (List.mem_map_of_mem hp)).1
  have hshort := l.short
  unfold MAXLINE
  omega

theorem Line.pieces_ne_nil (l : Line) : l.pieces ≠ [] := by
  have hle := l.length_parsed_le
  have hpos : 0 < l.parsed.args.length := List.length_pos_iff.mpr l.nonempty
  exact List.length_pos_iff.mp (by omega)

/-- The pointers of the shell are to what the line was typed from. -/
theorem line_represents (l : Line) (hbuf : Holds s.buf l.text) :
    ∃ s' save, s.init.readFromBuf = .ok s' ∧ Represents s' save l.parsed := by
  have hshort := l.short
  rw [← parse_line]
  exact readFromBuf_represents l.pieces_ne_nil
    (fun w hw => ⟨(l.word w hw).1, (l.word w hw).2.1, (l.word w hw).2.2.1⟩) l.spaced hbuf
    (by unfold MAXLINE; omega)

/-- The string at a pointer is the word that it stands for. -/
theorem string_of_rel {save : ℕ} {p : Option ℕ} {v : Option Word}
    (h : Option.Rel (Kept s.buf save) p v) : p.map s.string = v := by
  cases h with
  | none => rfl
  | some h => exact congrArg some h.1.text_eq

theorem Represents.string_argv {save : ℕ} (h : Represents s save a) (k : ℕ) :
    (s.argv k).map s.string = a.args[k]? :=
  string_of_rel (h.argv k)

theorem map_range_getElem? {α : Type} (l : List α) :
    (List.range l.length).map (fun k => l[k]?) = l.map some := by
  apply List.ext_getElem
  · rw [List.length_map, List.length_map, List.length_range]
  · intro k hk hk'
    rw [List.length_map] at hk'
    rw [List.getElem_map, List.getElem_map, List.getElem_range, List.getElem?_eq_getElem hk']

/-- The vector that `argv` points to. -/
theorem Represents.argv_eq {save : ℕ} (h : Represents s save a) :
    (List.range (s.argc + 1)).map (fun k => (s.argv k).map s.string) =
      a.args.map some ++ [none] := by
  simp only [h.string_argv, h.argc]
  rw [List.range_succ, List.map_append, List.map_singleton, List.getElem?_eq_none le_rfl,
    map_range_getElem?]

/-- A command line is parsed to what it was typed from. -/
theorem read_from_buf_line (l : Line) (hbuf : Holds s.buf l.text) :
    ∃ s', s.init.readFromBuf = .ok s' ∧ s'.argc = l.parsed.args.length ∧ s'.argc < MAXLINE ∧
      (List.range (s'.argc + 1)).map (fun k => (s'.argv k).map s'.string) =
        l.parsed.args.map some ++ [none] ∧
      s'.rf.map s'.string = l.parsed.rf ∧ s'.wf.map s'.string = l.parsed.wf := by
  obtain ⟨s', save, hread, hrep⟩ := line_represents l hbuf
  have hle := l.length_parsed_le
  have hlt := l.length_pieces_lt
  refine ⟨s', hread, hrep.argc, ?_, hrep.argv_eq, string_of_rel hrep.rf, string_of_rel hrep.wf⟩
  rw [hrep.argc]
  omega

/-- `sort < in  -r` and a newline. -/
def sortLine : Line where
  items := [.arg [115, 111, 114, 116], .input [105, 110], .arg [45, 114]]
  pieces := [(0, [115, 111, 114, 116]), (1, [60]), (1, [105, 110]), (2, [45, 114])]
  trailing := 0
  ended := true
  words := rfl
  spaced := by decide
  nonempty := by decide
  oneInput := by decide
  oneOutput := by decide
  word := by decide
  args := by decide
  short := by decide

/-- The line in an array of its own size. -/
def sortState : State := ⟨sortLine.text ++ [0], fun _ => none, 0, none, none⟩

theorem read_from_buf_sortLine :
    ∃ s', sortState.init.readFromBuf = .ok s' ∧ s'.argc = sortLine.parsed.args.length ∧
      s'.argc < MAXLINE ∧
      (List.range (s'.argc + 1)).map (fun k => (s'.argv k).map s'.string) =
        sortLine.parsed.args.map some ++ [none] ∧
      s'.rf.map s'.string = sortLine.parsed.rf ∧ s'.wf.map s'.string = sortLine.parsed.wf :=
  read_from_buf_line sortLine ⟨by decide, List.prefix_rfl⟩

end Coursework.Unix.Shell
