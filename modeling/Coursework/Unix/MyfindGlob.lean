import Coursework.Unix.Myfind

/-!
# `myfind_glob.c`

This `dopath` lists a directory with two patterns. The one of the visible names is made in
`fullpath`; for the one of the hidden names `fullpath` is set to `tmp` before, which keeps the path
that the program was given. `path_noloop` is the one of `myfind.c`. Of `glob` itself, a function of
the C library, only what its manual says of these patterns is used.
-/
namespace Coursework.Unix.MyfindGlob
open CString Myfind

def pathSize : ℕ := 1024

/-- `"/*"` and `"/.*"`. -/
def visibleEnd : Path := [47, 42]
def hiddenEnd : Path := [47, 46, 42]

variable {Cwd G : Type}

/-- The file system with what `glob` leaves in `gl_pathv` for a pattern; no path is an error. -/
structure GlobSystem (Cwd : Type) extends FileSystem Cwd where
  glob : Cwd → Path → List Path

instance : Coe (GlobSystem Cwd) (FileSystem Cwd) := ⟨GlobSystem.toFileSystem⟩

/-- None of `*`, `?`, `[` and the backslash is there. -/
def isPlain (s : Path) : Bool := s.all fun c => c ≠ 42 ∧ c ≠ 63 ∧ c ≠ 91 ∧ c ≠ 92

/-- The name starts with a period, which is matched by a period only. -/
def isHidden (name : Path) : Bool := name.head? = some 46

/-- What the manual of `glob` says of the two patterns. -/
structure GlobSystem.Documented (fs : GlobSystem Cwd) : Prop where
  /-- A slash is matched by a slash. -/
  slash_mem : ∀ cwd path ending, ending = visibleEnd ∨ ending = hiddenEnd →
    ∀ q ∈ fs.glob cwd (path ++ ending), slash ∈ q
  /-- A star matches what is in a directory, but for names that start with a period. -/
  visible : ∀ cwd path, isPlain path = true → path ≠ [] → path ≠ [slash] →
    (fs.glob cwd (path ++ visibleEnd)).Perm
      ((((fs.opendir cwd path).getD []).filter fun name => !isHidden name).map
        (path ++ slash :: ·))
  hidden : ∀ cwd path, isPlain path = true → path ≠ [] → path ≠ [slash] →
    (fs.glob cwd (path ++ hiddenEnd)).Perm
      ((((fs.opendir cwd path).getD []).filter isHidden).map (path ++ slash :: ·))

/-- The loop over `gl_pathv`; `visit` is `dopath`, whose result is not looked at. -/
def globLoop (visit : State Cwd G → Option (ℤ × State Cwd G)) :
    List Path → State Cwd G → Option (State Cwd G)
  | [], s => some s
  | path :: pathv, s => do
    let noloop ← pathNoloop path
    if noloop then
      let b ← strcpy s.fullpath 0 path
      let (_, s) ← visit { s with fullpath := b }
      globLoop visit pathv s
    else globLoop visit pathv s

/-- For calls that are nested less than `depth` deep; `none` also where the program exits. -/
def dopath (fs : GlobSystem Cwd) (tmp : Path) (func : Myfunc Cwd G) :
    ℕ → State Cwd G → Option (ℤ × State Cwd G)
  | 0, _ => none
  | depth + 1, s =>
    match fs.lstat s.cwd (text s.fullpath) with
    | none => func s none .ns
    | some statbuf =>
      if statbuf.kind ≠ .dir then func s (some statbuf) .f
      else do
        let (ret, s) ← func s (some statbuf) .d
        if ret ≠ 0 then some (ret, s)
        else
          let b ← strcat s.fullpath visibleEnd
          let visible := fs.glob s.cwd (text b)
          -- no match is an error of `glob`
          if visible = [] then none
          else
            let b ← strncpy b tmp pathSize
            let b ← strcat b hiddenEnd
            let hidden := fs.glob s.cwd (text b)
            if hidden = [] then none
            else
              let s ← globLoop (dopath fs tmp func depth) (visible ++ hidden)
                { s with fullpath := b }
              some (ret, s)

/-- `tmp` is an array of the size of `fullpath`. -/
def myfind (fs : GlobSystem Cwd) (depth : ℕ) (filename : Path) (func : Myfunc Cwd G)
    (s : State Cwd G) : Option (ℤ × State Cwd G) := do
  let b ← strcpy s.fullpath 0 filename
  dopath fs filename func depth { s with fullpath := b }

/-- Apart from its messages this is the function of `myfind.c`. -/
def myfunc : Myfunc Cwd Counters := myfunc1

end Coursework.Unix.MyfindGlob
