import Coursework.Lib.Strtok
import Mathlib.Logic.Function.Basic

/-!
# `shell.c`

`read_from_buf` cuts the line in `buf` into words where it stands; `argv`, `rf` and `wf` point into
`buf`. The loop of `main` does not look at the result of `fgets`, which leaves `buf` alone at the
end of the file. `fork`, `execve`, `chdir` and `getcwd` succeed.
-/
namespace Coursework.Unix.Shell
open CString

def MAXLINE : ℕ := 1024

abbrev Word := List UInt8

def space : UInt8 := 32
def newline : UInt8 := 10

/-- `"<"` and `">"`. -/
def inputOp : Word := [60]
def outputOp : Word := [62]

/-- `"cd"`, `"~"` and `"pwd"`. -/
def cdName : Word := [99, 100]
def homeName : Word := [126]
def pwdName : Word := [112, 119, 100]

/-- A pointer into `buf` is the offset there, and `none` is `NULL`. -/
structure State where
  buf : List UInt8
  argv : ℕ → Option ℕ
  argc : ℕ
  rf : Option ℕ
  wf : Option ℕ

/-- Where the program goes wrong. -/
inductive Fault where
  /-- `strcmp` or `chdir` gets `NULL`. -/
  | nullArgument
  /-- `buf[strlen(buf) - 1]` of an empty string. -/
  | beforeStart
  /-- A string in `buf` has no end there. -/
  | unterminated
  deriving DecidableEq

namespace State

/-- The string that starts at a pointer. -/
def string (s : State) (p : ℕ) : Word := text (s.buf.drop p)

def init (s : State) : State := { s with argv := fun _ => none, argc := 0 }

/-- What a token is taken for, and `type` behind it. -/
def place (s : State) (type token : ℕ) : State × ℕ :=
  if type = 1 then ({ s with rf := some token }, 0)
  else if type = 2 then ({ s with wf := some token }, 0)
  else if s.string token = inputOp then (s, 1)
  else if s.string token = outputOp then (s, 2)
  else ({ s with argv := Function.update s.argv s.argc (some token), argc := s.argc + 1 }, type)

/-- The loop over the tokens, for so many at most. -/
def tokens : ℕ → State → (type save : ℕ) → State
  | 0, s, _, _ => s
  | rounds + 1, s, type, save =>
    match strtok space s.buf save with
    | none => s
    | some (token, buf, save) =>
      let (s, type) := { s with buf := buf }.place type token
      tokens rounds s type save

def readFromBuf (s : State) : Except Fault State :=
  let s := { s with rf := none, wf := none }
  match strlen s.buf with
  | none => .error .unterminated
  | some 0 => .error .beforeStart
  | some (n + 1) =>
    let buf := if s.buf[n]? = some newline then s.buf.set n 0 else s.buf
    let s := tokens MAXLINE { s with buf := buf } 0 0
    .ok { s with argv := Function.update s.argv s.argc none }

end State

/-! ### `main` -/

/-- What `main` dispatches. -/
inductive Command where
  | cd (dir : Word)
  | pwd
  | run (argv : List Word) (rf wf : Option Word)
  deriving DecidableEq

/-- A line, with its end if there are not more than `n` characters before that. -/
def readLine : ℕ → List UInt8 → List UInt8 × List UInt8
  | 0, stdin => ([], stdin)
  | _ + 1, [] => ([], [])
  | n + 1, c :: stdin =>
    if c = newline then ([c], stdin)
    else
      let (line, stdin) := readLine n stdin
      (c :: line, stdin)

/-- `fgets(buf, MAXLINE - 1, stdin)`. -/
def fgets (buf stdin : List UInt8) : List UInt8 × List UInt8 :=
  if stdin = [] then (buf, [])
  else
    let (line, stdin) := readLine (MAXLINE - 2) stdin
    (line ++ 0 :: buf.drop (line.length + 1), stdin)

/-- The words of `argv`. -/
def State.words (s : State) : List Word :=
  (List.range s.argc).filterMap fun k => (s.argv k).map s.string

/-- `home` is `getenv("HOME")`. -/
def dispatch (home : Option Word) (s : State) : Except Fault Command :=
  match s.argv 0 with
  | none => .error .nullArgument
  | some name =>
    if s.string name = cdName then
      let dir := match s.argv 1 with
        | none => home
        | some dir => if s.string dir = homeName then home else some (s.string dir)
      match dir with
      | none => .error .nullArgument
      | some dir => .ok (.cd dir)
    else if s.string name = pwdName then .ok .pwd
    else .ok (.run s.words (s.rf.map s.string) (s.wf.map s.string))

/-- So many rounds of the loop: what is dispatched, and the fault that ends them. -/
def main (home : Option Word) : ℕ → State → (stdin : List UInt8) → List Command × Option Fault
  | 0, _, _ => ([], none)
  | rounds + 1, s, stdin =>
    let (buf, stdin) := fgets s.buf stdin
    match { s with buf := buf }.init.readFromBuf with
    | .error fault => ([], some fault)
    | .ok s =>
      match dispatch home s with
      | .error fault => ([], some fault)
      | .ok command =>
        let (commands, fault) := main home rounds s stdin
        (command :: commands, fault)

end Coursework.Unix.Shell
