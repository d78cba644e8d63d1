import Coursework.Lib.CString

/-!
# `myfind.c`

`dopath` goes down a directory tree. All its calls share the array `fullpath`, which a call extends
by the names that `readdir` gives and cuts again at its end. What the three branches of `dopath`
have in common is written once; `ret` is set before the loop in the branch `TYPE_P` only.

A descriptor is open for each directory on the way, so fewer than 128 since their paths stand in
`fullpath`, and `closedir` closes it. `myfunc1` and `myfunc3` open nothing. `main` and `myfunc2`
open files for `-comp` and never close them, and their `open` waits at a FIFO that nobody writes to;
that part is in `Descriptors` and `Compare`.
-/
namespace Coursework.Unix.Myfind
open CString

def pathSize : ℕ := 255
def nameSize : ℕ := 55
def slash : UInt8 := 47

abbrev Path := List UInt8

/-- `st_mode & S_IFMT`. -/
inductive Kind where
  | reg
  | dir
  | blk
  | chr
  | fifo
  | lnk
  | sock
  deriving DecidableEq

structure Stat where
  kind : Kind
  size : ℤ
  deriving DecidableEq

/-- The answers of the system to a process in a working directory; `none` is an error. -/
structure FileSystem (Cwd : Type) where
  lstat : Cwd → Path → Option Stat
  /-- The names that `readdir` will give, in this order. -/
  opendir : Cwd → Path → Option (List Path)
  chdir : Cwd → Path → Option Cwd
  getcwd : Cwd → Path

/-- `FIND_F`, `FIND_D`, `FIND_DNR` and `FIND_NS`. -/
inductive Find where
  | f
  | d
  | dnr
  | ns
  deriving DecidableEq

/-- `TYPE_P`, `TYPE_C` and `TYPE_N`. -/
inductive WalkType where
  | p
  | c
  | n
  deriving DecidableEq

/-- The lines on `stdout`, and the variables of the function that is called at the files. -/
structure Output (G : Type) where
  stdout : List Path
  globals : G

structure State (Cwd G : Type) where
  fullpath : Path
  cwd : Cwd
  out : Output G

/-- A function that gets `fullpath`, `statbuf` (`none` if it is not set) and the type, and returns
an `int`. -/
abbrev Myfunc (Cwd G : Type) := State Cwd G → Option Stat → Find → Option (ℤ × State Cwd G)

variable {Cwd G : Type}

def Output.print (o : Output G) (line : Path) : Output G := { o with stdout := o.stdout ++ [line] }

def State.print (s : State Cwd G) (line : Path) : State Cwd G := { s with out := s.out.print line }

/-- Neither `.` nor `..`. -/
def isEntry (name : Path) : Bool := name ≠ [46] ∧ name ≠ [46, 46]

/-- `none` where the program exits. -/
def pathNoloop (pathname : Path) : Option Bool :=
  (strrchr pathname slash).map fun pos => isEntry pos.tail

/-- The loop over the names, which stand in `fullpath` from `n` onward; `visit` is `dopath`. -/
def readdirLoop (visit : State Cwd G → Option (ℤ × State Cwd G)) (n : ℕ) :
    List Path → ℤ → State Cwd G → Option (ℤ × State Cwd G)
  | [], ret, s => some (ret, s)
  | d_name :: names, ret, s => do
    let b ← strcpy s.fullpath n d_name
    let noloop ← pathNoloop (text b)
    if noloop then
      let (r, s) ← visit { s with fullpath := b }
      -- `ret = dopath(func, type) != 0` assigns the comparison
      if r ≠ 0 then some (1, s) else readdirLoop visit n names 0 s
    else readdirLoop visit n names ret { s with fullpath := b }

/-- From `opendir` to the end of a branch. -/
def dodir (fs : FileSystem Cwd) (visit : State Cwd G → Option (ℤ × State Cwd G))
    (func : Myfunc Cwd G) (statbuf : Stat) (ret : ℤ) (s : State Cwd G) :
    Option (ℤ × State Cwd G) :=
  match fs.opendir s.cwd (text s.fullpath) with
  | none => func s (some statbuf) .dnr
  | some names => do
    let n := (text s.fullpath).length
    let b ← store s.fullpath n slash
    let b ← store b (n + 1) 0
    let (ret, s) ← readdirLoop visit (n + 1) names ret { s with fullpath := b }
    let b ← store s.fullpath n 0
    some (ret, { s with fullpath := b })

/-- `"curpath : "`. -/
def curpathLabel : Path := [99, 117, 114, 112, 97, 116, 104, 32, 58, 32]

/-- What the branch `TYPE_N` prints where `lstat` fails; `TYPE_C` prints it on `stderr`. -/
def Output.statError (o : Output G) (type : WalkType) (cwd : Path) : Output G :=
  if type = .n then o.print (curpathLabel ++ cwd) else o

/-- For calls that are nested less than `depth` deep. `junk` is what `ret` holds at the beginning
of the call for a path. -/
def dopath (fs : FileSystem Cwd) (junk : Path → ℤ) (func : Myfunc Cwd G) (type : WalkType) :
    ℕ → State Cwd G → Option (ℤ × State Cwd G)
  | 0, _ => none
  | depth + 1, s =>
    match fs.lstat s.cwd (text s.fullpath) with
    | none => func { s with out := s.out.statError type (fs.getcwd s.cwd) } none .ns
    | some statbuf =>
      if statbuf.kind ≠ .dir then func s (some statbuf) .f
      else
        match type with
        | .p => do
          let (ret, s) ← func s (some statbuf) .d
          if ret ≠ 0 then some (ret, s)
          else dodir fs (dopath fs junk func type depth) func statbuf ret s
        | .c | .n =>
          dodir fs (dopath fs junk func type depth) func statbuf (junk (text s.fullpath)) s

/-- `none` also where the program exits. -/
def myfind (fs : FileSystem Cwd) (junk : Path → ℤ) (depth : ℕ) (pathname : Path)
    (func : Myfunc Cwd G) (type : WalkType) (s : State Cwd G) : Option (ℤ × State Cwd G) := do
  let b ← strcpy s.fullpath 0 pathname
  match fs.lstat s.cwd (text b) with
  | none => none
  | some statres =>
    if statres.kind ≠ .dir then none
    else dopath fs junk func type depth { s with fullpath := b }

/-! ### The functions that are called at the files -/

structure Counters where
  nreg : ℕ
  ndir : ℕ
  nblk : ℕ
  nchr : ℕ
  nfifo : ℕ
  nslink : ℕ
  nsock : ℕ
  nlit : ℕ
  deriving DecidableEq

/-- The inner `switch` of `myfunc1`; a directory gets a message only. -/
def Counters.ofKind (c : Counters) : Kind → Counters
  | .reg => { c with nreg := c.nreg + 1 }
  | .blk => { c with nblk := c.nblk + 1 }
  | .chr => { c with nchr := c.nchr + 1 }
  | .fifo => { c with nfifo := c.nfifo + 1 }
  | .lnk => { c with nslink := c.nslink + 1 }
  | .sock => { c with nsock := c.nsock + 1 }
  | .dir => c

def Counters.ofFile (c : Counters) (st : Stat) : Counters :=
  let c := c.ofKind st.kind
  if st.size ≤ 4096 then { c with nlit := c.nlit + 1 } else c

def State.count (s : State Cwd Counters) (c : Counters) : State Cwd Counters :=
  { s with out := { s.out with globals := c } }

def myfunc1 : Myfunc Cwd Counters := fun s statptr type =>
  match type with
  | .f => statptr.map fun st => (0, s.count (s.out.globals.ofFile st))
  | .d => some (0, s.count { s.out.globals with ndir := s.out.globals.ndir + 1 })
  | .dnr | .ns => some (0, s)

/-- The loop of `myfunc3` over `name_str`, for the name at `pos`. -/
def nameLoop (fs : FileSystem Cwd) (pos namebuf : Path) : List Path → State Cwd G →
    Option (State Cwd G)
  | [], s => some s
  | str :: rest, s =>
    if namebuf = str then do
      let pos2 ← strrchr (text s.fullpath) slash
      -- `*pos2 = 0` in a copy of `fullpath`
      let curpath := (text s.fullpath).take ((text s.fullpath).length - pos2.length)
      let tmppath := fs.getcwd s.cwd
      -- where `chdir` fails the working directory stays
      let cwd := (fs.chdir s.cwd curpath).getD s.cwd
      let line := fs.getcwd cwd ++ pos
      let cwd := (fs.chdir cwd tmppath).getD cwd
      some ({ s with cwd := cwd }.print line)
    else nameLoop fs pos namebuf rest s

/-- `none` where `namebuf` is too short for the name. -/
def myfunc3 (fs : FileSystem Cwd) (nameStr : List Path) : Myfunc Cwd G := fun s _ type =>
  match type with
  | .f => do
    let pos ← strrchr (text s.fullpath) slash
    if pos.tail.length < nameSize then
      (nameLoop fs pos pos.tail nameStr s).map fun s => (0, s)
    else none
  | .d | .dnr | .ns => some (0, s)

end Coursework.Unix.Myfind
