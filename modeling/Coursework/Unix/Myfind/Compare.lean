import Coursework.Unix.Myfind.Descriptors

/-!
# The files that `myfind -comp` reports

`myfunc2` reads as many bytes of a file as the reference file has, and compares as many as the file
itself has. Behind the bytes that were read there is what `malloc` and `memset` left, and behind
`fullbuf` memory that may not even be readable. Neither `myfunc2` nor `main` closes a file that it
opens.
-/
namespace Coursework.Unix.Myfind
open CString

def bufSize : ℕ := 1073741824

variable {Cwd G : Type}

/-! ### Buffers -/

/-- A byte of memory, and whether it was read from a file. -/
structure Cell where
  value : UInt8
  fromFile : Bool

/-- The memory from a pointer onward. -/
abbrev Buffer := ℕ → Cell

namespace Buffer

/-- Memory into which no file was read. -/
def unread (m : ℕ → UInt8) : Buffer := fun i => ⟨m i, false⟩

/-- `memset(b, 0, n)`. -/
def memset (b : Buffer) (n : ℕ) : Buffer := fun i => if i < n then ⟨0, false⟩ else b i

/-- `read` puts these bytes of a file into `b`. -/
def fill (b : Buffer) (bytes : List UInt8) : Buffer := fun i =>
  match bytes[i]? with
  | none => b i
  | some value => ⟨value, true⟩

/-- `memcmp(b, b', n) == 0`. -/
def memcmp (b b' : Buffer) (n : ℕ) : Bool :=
  (List.range n).all fun i => (b i).value = (b' i).value

/-- The bytes that `memcmp` gets were all read from files. -/
def Known (b b' : Buffer) (n : ℕ) : Prop :=
  ∀ i < n, (b i).fromFile = true ∧ (b' i).fromFile = true

end Buffer

/-! ### `myfunc2` -/

/-- `c_filebuf` and `c_filelen`. -/
structure Reference where
  filebuf : Buffer
  filelen : ℕ

/-- What `read` in `main` leaves in `c_filebuf`, where `static` was before. -/
def Reference.load (static : ℕ → UInt8) (content : List UInt8) : Reference :=
  let bytes := content.take bufSize
  ⟨(Buffer.unread static).fill bytes, bytes.length⟩

/-- What `malloc` gives for `fullbuf`, and the memory behind it. -/
structure Heap where
  bytes : ℕ → UInt8
  /-- Whether `memcmp` comes back when it is given more bytes than `malloc` was asked for. -/
  overrun : Bool

/-- Whether `memcmp(fullbuf, c_filebuf, n)` comes back. -/
def Heap.returns (heap : Heap) (c : Reference) (n : ℕ) : Bool := n ≤ c.filelen ∨ heap.overrun

/-- `fullbuf` at the comparison. `heap` is what `malloc` gave, and `content` is `none` if the file
is not open or cannot be read. -/
def fullbuf (heap : ℕ → UInt8) (c : Reference) (content : Option (List UInt8)) : Buffer :=
  -- `sizeof(fullbuf)` is the size of a pointer
  let b := (Buffer.unread heap).memset 8
  match content with
  | none => b
  | some content => b.fill (content.take c.filelen)

/-- `heap` is what `malloc` gives in the call for a path; `none` where `open`, `read` or `memcmp`
does not return. -/
def myfunc2 (sys : System Cwd) (start : Path) (heap : Path → Heap) (c : Reference) :
    Myfunc (Process Cwd) G := fun s statptr type =>
  match type with
  | .f => do
    let statbuf ← statptr
    let pathname := text s.fullpath
    -- the descriptor stays open
    let (p, content) ← sys.openFile (nested start pathname) s.cwd pathname
    let s := { s with cwd := p }
    let b := fullbuf (heap pathname).bytes c content
    if ¬ (heap pathname).returns c statbuf.size.toNat then none
    else if b.memcmp c.filebuf statbuf.size.toNat then
      let fs := sys.files start
      let pos ← strrchr pathname slash
      let tmppath := fs.getcwd s.cwd
      -- `*pos2 = 0` in a copy of `fullpath`
      let curpath := pathname.take (pathname.length - pos.length)
      -- where `chdir` fails the working directory stays
      let cwd := (fs.chdir s.cwd curpath).getD s.cwd
      let line := fs.getcwd cwd ++ pos
      let cwd := (fs.chdir cwd tmppath).getD cwd
      some (0, { s with cwd := cwd }.print line)
    else some (0, s)
  | .d | .dnr | .ns => some (0, s)

/-- The branch `-comp` of `main`; `none` also where the program exits. -/
def mainComp (sys : System Cwd) (heap : Path → Heap) (static : ℕ → UInt8) (junk : Path → ℤ)
    (depth : ℕ) (pathname filename : Path) (s : State (Process Cwd) G) :
    Option (ℤ × State (Process Cwd) G) := do
  let fs := sys.files pathname
  let _ ← fs.lstat s.cwd pathname
  if filename.length < pathSize then
    let (p, content) ← sys.openFile 0 s.cwd filename
    let statbuf ← fs.lstat p filename
    if statbuf.kind = .dir then none
    else
      let content ← content
      myfind fs junk depth pathname (myfunc2 sys pathname heap (.load static content)) .c
        { s with cwd := p }
  else none

variable {sys : System Cwd} {heap : Path → Heap} {static : ℕ → UInt8} {c : Reference}
  {s : State (Process Cwd) G} {path start : Path} {p : Process Cwd} {dirs : ℕ}
  {content : Option (List UInt8)} {F R : List UInt8} {st : Stat}

/-- A call of `myfunc2` for a file with content `F` prints its path if and only if `F` is the
content `R` of the reference file, and looks only at bytes that were read from the two files. -/
structure Reports (sys : System Cwd) (start : Path) (heap : Path → Heap) (static : ℕ → UInt8)
    (R : List UInt8) (s : State (Process Cwd) G) (path : Path) (st : Stat) (F : List UInt8) :
    Prop where
  printed : (myfunc2 sys start heap (.load static R) s (some st) .f).map
    (fun p => (p.1, p.2.out.stdout)) =
      some (0, s.out.stdout ++ if F = R then [sys.fullName s.cwd.cwd path] else [])
  known : ∀ p content, sys.openFile (nested start path) s.cwd path = some (p, content) →
    (fullbuf (heap path).bytes (.load static R) content).Known (Reference.load static R).filebuf
      st.size.toNat

/-! ### The comparison -/

theorem Reference.load_eq (static : ℕ → UInt8) (hR : R.length ≤ bufSize) :
    Reference.load static R = ⟨(Buffer.unread static).fill R, R.length⟩ := by
  rw [Reference.load, List.take_of_length_le hR]

namespace Buffer

variable {b b' : Buffer} {bytes : List UInt8} {i : ℕ}

theorem fill_of_lt (h : i < bytes.length) : b.fill bytes i = ⟨bytes[i], true⟩ := by
  rw [fill, List.getElem?_eq_getElem h]

theorem fill_of_le (h : bytes.length ≤ i) : b.fill bytes i = b i := by
  rw [fill, List.getElem?_eq_none h]

theorem fromFile_fill (hb : (b i).fromFile = false) :
    (b.fill bytes i).fromFile = true ↔ i < bytes.length := by
  rcases Nat.lt_or_ge i bytes.length with hlt | hge
  · rw [fill_of_lt hlt]
    exact iff_of_true rfl hlt
  · rw [fill_of_le hge, hb]
    exact iff_of_false Bool.false_ne_true hge.not_gt

theorem fromFile_memset (m : ℕ → UInt8) (n i : ℕ) :
    ((unread m).memset n i).fromFile = false := by
  rw [memset]
  split_ifs <;> rfl

theorem memcmp_iff (b b' : Buffer) (n : ℕ) :
    b.memcmp b' n = true ↔ ∀ i < n, (b i).value = (b' i).value := by
  simp [memcmp]

end Buffer

theorem fullbuf_known (heap static : ℕ → UInt8) (F : List UInt8) (hR : R.length ≤ bufSize) :
    (fullbuf heap (.load static R) (some F)).Known (Reference.load static R).filebuf F.length ↔
      F.length ≤ R.length := by
  rw [Reference.load_eq static hR, fullbuf, Buffer.Known]
  simp only [Buffer.fromFile_fill (Buffer.fromFile_memset heap 8 _),
    Buffer.fromFile_fill (b := .unread static) rfl, List.length_take, lt_min_iff]
  constructor
  · intro h
    by_contra hlt
    exact absurd (h R.length (by omega)).2 (lt_irrefl _)
  · exact fun hle i hi => ⟨⟨hi.trans_le hle, hi⟩, hi.trans_le hle⟩

/-- A file that is not longer than the reference file agrees with the start of it. -/
theorem fullbuf_memcmp (heap static : ℕ → UInt8) (hR : R.length ≤ bufSize)
    (hle : F.length ≤ R.length) :
    (fullbuf heap (.load static R) (some F)).memcmp (Reference.load static R).filebuf F.length =
      true ↔ F <+: R := by
  rw [Reference.load_eq static hR, fullbuf, Buffer.memcmp_iff, List.prefix_iff_getElem?]
  simp only [List.take_of_length_le hle]
  apply forall₂_congr
  intro i hi
  rw [Buffer.fill_of_lt hi, Buffer.fill_of_lt (hi.trans_le hle),
    List.getElem?_eq_getElem (hi.trans_le hle), Option.some.injEq]
  exact eq_comm

/-- Memory that nothing was read into is known only where nothing is compared. -/
theorem fullbuf_none_known (heap static : ℕ → UInt8) (R : List UInt8) (n : ℕ) :
    (fullbuf heap (.load static R) none).Known (Reference.load static R).filebuf n ↔ n = 0 := by
  constructor
  · intro h
    by_contra hn
    have hfile := (h 0 (Nat.pos_of_ne_zero hn)).1
    rw [fullbuf, Buffer.fromFile_memset] at hfile
    cases hfile
  · rintro rfl i hi
    exact absurd hi (Nat.not_lt_zero i)

/-! ### A call -/

theorem Heap.returns_of_le {m : Heap} {n : ℕ} (h : n ≤ c.filelen) : m.returns c n = true := by
  simp [Heap.returns, h]

theorem myfunc2_of_not_returns (st : Stat) (hholds : Holds s.fullpath path)
    (h : (heap path).returns c st.size.toNat = false) :
    myfunc2 sys start heap c s (some st) .f = none := by
  simp only [myfunc2, Option.bind_eq_bind, Option.bind_some, hholds.text_eq, h, Bool.false_eq_true,
    not_false_eq_true, if_true]
  cases sys.openFile (nested start path) s.cwd path <;> rfl

/-- What a call does, once `open` has returned and where `memcmp` does. -/
theorem myfunc2_of_open {pos : Path} (heap : Path → Heap) (c : Reference) (st : Stat)
    (hholds : Holds s.fullpath path) (hpos : strrchr path slash = some pos)
    (hopen : sys.openFile (nested start path) s.cwd path = some (p, content))
    (hreturns : (heap path).returns c st.size.toNat = true) :
    myfunc2 sys start heap c s (some st) .f = some (0,
      if (fullbuf (heap path).bytes c content).memcmp c.filebuf st.size.toNat then
        let fs := sys.files start
        let cwd := (fs.chdir p (path.take (path.length - pos.length))).getD p
        State.print ⟨s.fullpath, (fs.chdir cwd (fs.getcwd p)).getD cwd, s.out⟩
          (fs.getcwd cwd ++ pos)
      else { s with cwd := p }) := by
  simp only [myfunc2, Option.bind_eq_bind, Option.bind_some, hholds.text_eq, hopen, hpos, hreturns,
    not_true_eq_false, if_false]
  split_ifs <;> rfl

/-- What a call prints, once `open` has returned and where `memcmp` does. -/
theorem myfunc2_stdout (heap : Path → Heap) (c : Reference) (st : Stat)
    (hholds : Holds s.fullpath path) (hslash : slash ∈ path)
    (hopen : sys.openFile (nested start path) s.cwd path = some (p, content))
    (hreturns : (heap path).returns c st.size.toNat = true) :
    (myfunc2 sys start heap c s (some st) .f).map (fun p => (p.1, p.2.out.stdout)) =
      some (0, s.out.stdout ++
        if (fullbuf (heap path).bytes c content).memcmp c.filebuf st.size.toNat then
          [sys.fullName s.cwd.cwd path] else []) := by
  obtain ⟨pos, hpos⟩ := Option.isSome_iff_exists.mp (isSome_strrchr hslash)
  rw [myfunc2_of_open heap c st hholds hpos hopen hreturns, Option.map_some]
  split_ifs with h
  · rw [FileSystem.fullName, hpos, ← cwd_of_openFile hopen]
    cases hchdir : sys.chdir p.cwd (path.take (path.length - pos.length)) <;>
      simp [System.files, hchdir, State.print, Output.print]
  · rw [List.append_nil]

/-- A directory `/d` with a file `x` of some length and with the content `F`, and a file `/r` with
the content `A`. -/
def twoFiles (length : ℤ) (F : List UInt8) : System Path where
  lstat _ path :=
    if path = [47, 100] then some ⟨.dir, 4096⟩
    else if path = [47, 100, 47, 120] then some ⟨.reg, length⟩
    else if path = [47, 114] then some ⟨.reg, 1⟩
    else none
  opendir _ path := if path = [47, 100] then some [[46], [120], [46, 46]] else none
  chdir _ path := some path
  getcwd cwd := cwd
  opens _ path :=
    if path = [47, 100, 47, 120] then .opened (some F)
    else if path = [47, 114] then .opened (some [65])
    else .fails
  limit := 1024

/-- `fullpath` at the call for `/d/x`; open are the three files of every program and `/r`. -/
def atFile : State (Process Path) Unit := ⟨[47, 100, 47, 120, 0], ⟨[47], 4⟩, [], ()⟩

/-- Memory with the byte `b` everywhere, and none that can be read behind it. -/
def Heap.filled (b : UInt8) : Heap := ⟨fun _ => b, false⟩

end Coursework.Unix.Myfind
