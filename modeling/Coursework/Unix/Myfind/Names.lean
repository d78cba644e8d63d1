import Coursework.Unix.Myfind.Walk

/-!
# The files that `myfind -name` and `myfind -comp` come to

In the branches `TYPE_N` and `TYPE_C` nothing sets `ret` before the loop. A directory without
entries gives back what happened to be there, and where that is not zero no call above it goes on.
-/
namespace Coursework.Unix.Myfind
open CString

variable {Cwd G : Type} {fs : FileSystem Cwd} {cwd : Cwd} {type : WalkType} {func : Myfunc Cwd G}
  {act : Call → Output G → Output G} {n depth : ℕ} {path start dir name : Path}
  {nameStr : List Path} {s : State Cwd G}

/-- All nodes can be stat'ed and all directories can be read. -/
structure Readable (fs : FileSystem Cwd) (cwd : Cwd) (start : Path) : Prop where
  lstat : ∀ path, fs.Reached cwd start path → (fs.lstat cwd path).isSome
  opendir : ∀ path, fs.Reached cwd start path → fs.isDir cwd path = true →
    (fs.opendir cwd path).isSome

def FileSystem.isFile (fs : FileSystem Cwd) (cwd : Cwd) (path : Path) : Bool :=
  (fs.lstat cwd path).any fun st => st.kind ≠ .dir

/-- In every directory without entries the unset `ret` happens to be zero. -/
def JunkZero (fs : FileSystem Cwd) (cwd : Cwd) (junk : Path → ℤ) (start : Path) : Prop :=
  ∀ path, fs.Reached cwd start path → Barren fs cwd path → junk path = 0

theorem retZero_iff_junkZero {junk : Path → ℤ} (htype : type ≠ .p) :
    RetZero fs cwd junk type start ↔ JunkZero fs cwd junk start :=
  ⟨fun h => h.resolve_left htype, .inr⟩

theorem isFile_of_lstat {st : Stat} (hst : fs.lstat cwd path = some st) (hkind : st.kind ≠ .dir) :
    fs.isFile cwd path = true := by
  rw [FileSystem.isFile, hst]
  exact decide_eq_true hkind

/-! ### The calls for files -/

theorem file_calls (p : Path → Bool) (path : Path) :
    ((callsAt fs cwd type path).filter fun call => call.find = .f ∧ p call.path).map Call.path =
      if fs.isFile cwd path ∧ p path then [path] else [] := by
  cases hst : fs.lstat cwd path with
  | none =>
    rw [callsAt, FileSystem.isFile, hst]
    rfl
  | some st =>
    by_cases hdir : st.kind = .dir
    · cases type <;> cases hopen : fs.opendir cwd path <;>
        simp [callsAt, FileSystem.isFile, hst, hdir, hopen]
    · cases hp : p path <;> simp [callsAt, FileSystem.isFile, hst, hdir, hp]

/-- The calls for the files that `p` selects. -/
theorem calls_files (fs : FileSystem Cwd) (cwd : Cwd) (type : WalkType) (n : ℕ) (start : Path)
    (p : Path → Bool) :
    ((calls fs cwd type n start).filter fun call => call.find = .f ∧ p call.path).map Call.path =
      (fs.paths cwd n start).filter fun path => fs.isFile cwd path ∧ p path := by
  rw [calls]
  apply filter_map_flatMap
  intro path
  rw [file_calls p path]
  simp

/-- A file is in a directory. -/
theorem Tree.file_cases (ht : Tree fs cwd n start) (hstart : StartPath fs cwd start)
    (hpath : fs.Reached cwd start path) (hfile : fs.isFile cwd path = true) :
    ∃ dir names name, fs.Reached cwd start dir ∧ fs.isDir cwd dir = true ∧
      fs.opendir cwd dir = some names ∧ slash ∉ name ∧ name ∈ names ∧
      path = dir ++ slash :: name := by
  rcases Relation.ReflTransGen.cases_tail hpath with rfl | ⟨dir, hdir, hc⟩
  · have hd := hstart.isDir
    rw [FileSystem.isDir] at hd
    rw [FileSystem.isFile] at hfile
    cases hst : fs.lstat cwd path with
    | none => rw [hst] at hd; cases hd
    | some st => simp_all
  · obtain ⟨names, name, hisDir, hopen, hlisting, hname, rfl⟩ := ht.child_cases hdir hc
    have hmem := (List.mem_filter.mp hname).1
    exact ⟨dir, names, name, hdir, hisDir, hopen, (hlisting.characters name hmem).1, hmem, rfl⟩

/-! ### `myfunc3` -/

/-- The name after the last slash. -/
def baseName (path : Path) : Path := ((strrchr path slash).getD []).tail

theorem baseName_append (dir : Path) (h : slash ∉ name) : baseName (dir ++ slash :: name) = name := by
  rw [baseName, strrchr_append dir h]
  rfl

/-- What is printed for the file: the directory as `getcwd` shows it, and the name. -/
def FileSystem.fullName (fs : FileSystem Cwd) (cwd : Cwd) (path : Path) : Path :=
  let pos := (strrchr path slash).getD []
  fs.getcwd ((fs.chdir cwd (path.take (path.length - pos.length))).getD cwd) ++ pos

/-- What is before the last slash, as it is cut out of a copy of `fullpath`. -/
theorem take_dir (dir pos : Path) : (dir ++ pos).take ((dir ++ pos).length - pos.length) = dir := by
  rw [List.length_append, Nat.add_sub_cancel, List.take_left]

theorem fullName_append {c : Cwd} (hname : slash ∉ name) (hc : fs.chdir cwd dir = some c) :
    fs.fullName cwd (dir ++ slash :: name) = fs.getcwd c ++ slash :: name := by
  simp only [FileSystem.fullName, strrchr_append dir hname, Option.getD_some, take_dir, hc]

/-- `myfunc3` can go to each directory that has a file, and back again; the names fit. -/
structure Passable (fs : FileSystem Cwd) (cwd : Cwd) (start : Path) : Prop where
  chdir : ∀ dir, fs.Reached cwd start dir → fs.isDir cwd dir = true →
    ∃ c, fs.chdir cwd dir = some c ∧ fs.chdir c (fs.getcwd cwd) = some cwd
  names_fit : ∀ dir names, fs.Reached cwd start dir → fs.isDir cwd dir = true →
    fs.opendir cwd dir = some names → ∀ name ∈ names, name.length < nameSize

def myfunc3Act (fs : FileSystem Cwd) (cwd : Cwd) (nameStr : List Path) (call : Call)
    (o : Output G) : Output G :=
  if call.find = .f ∧ baseName call.path ∈ nameStr then o.print (fs.fullName cwd call.path) else o

/-- The loop prints one line if the name is one of the strings. -/
theorem nameLoop_eq {c : Cwd} (hname : slash ∉ name) (hcwd : s.cwd = cwd)
    (hholds : Holds s.fullpath (dir ++ slash :: name)) (hc : fs.chdir cwd dir = some c)
    (hback : fs.chdir c (fs.getcwd cwd) = some cwd) :
    nameLoop fs (slash :: name) name nameStr s = some
      (if name ∈ nameStr then s.print (fs.fullName cwd (dir ++ slash :: name)) else s) := by
  subst hcwd
  induction nameStr with
  | nil => rfl
  | cons str nameStr ih =>
    rw [nameLoop]
    by_cases hstr : name = str
    · rw [if_pos hstr, if_pos (hstr ▸ List.mem_cons_self), fullName_append hname hc, hholds.text_eq,
        strrchr_append dir hname, Option.bind_eq_bind, Option.bind_some, take_dir]
      simp only [hc, hback, Option.getD_some]
    · rw [if_neg hstr, ih]
      simp [hstr]

theorem myfunc3_acts (type : WalkType) (nameStr : List Path) (hstart : StartPath fs cwd start)
    (ht : Tree fs cwd n start) (hpass : Passable fs cwd start) :
    Acts fs cwd type (myfunc3 fs nameStr : Myfunc Cwd G) (myfunc3Act fs cwd nameStr) start where
  returns path hpath call hcall s hs hholds := by
    rcases mem_callsAt hcall with ⟨st, rfl, hst, hkind⟩ | ⟨st, rfl, -⟩ | ⟨st, rfl⟩ | ⟨rfl, -⟩
    · obtain ⟨dir, names, name, hdir, hisDir, hopen, hslash, hmem, rfl⟩ :=
        ht.file_cases hstart hpath (isFile_of_lstat hst hkind)
      obtain ⟨c, hc, hback⟩ := hpass.chdir dir hdir hisDir
      have hfits := hpass.names_fit dir names hdir hisDir hopen name hmem
      rw [myfunc3, hholds.text_eq, strrchr_append dir hslash, Option.bind_eq_bind,
        Option.bind_some, List.tail_cons, if_pos hfits,
        nameLoop_eq hslash hs hholds hc hback, myfunc3Act, baseName_append dir hslash]
      by_cases hin : name ∈ nameStr
      · simp [hin]
        rfl
      · simp [hin]
    all_goals rfl

/-! ### The whole walk -/

/-- A line is printed for each file that `p` selects. -/
def printAct (fs : FileSystem Cwd) (cwd : Cwd) (p : Path → Bool) (call : Call) (o : Output G) :
    Output G :=
  if call.find = .f ∧ p call.path then o.print (fs.fullName cwd call.path) else o

theorem myfunc3Act_eq (nameStr : List Path) :
    (myfunc3Act fs cwd nameStr : Call → Output G → Output G) =
      printAct fs cwd fun path => baseName path ∈ nameStr := by
  funext call o
  simp [myfunc3Act, printAct]

/-- The lines that are printed, for calls of nodes that can be stat'ed. -/
theorem printed (p : Path → Bool) (l : List Call) (hl : ∀ call ∈ l, call.find ≠ .ns)
    (o : Output G) : (l.foldl (effect fs cwd type (printAct fs cwd p)) o).stdout = o.stdout ++
      ((l.filter fun call => call.find = .f ∧ p call.path).map Call.path).map (fs.fullName cwd) := by
  induction l generalizing o with
  | nil => exact (List.append_nil _).symm
  | cons call l ih =>
    have hns := hl call List.mem_cons_self
    rw [List.foldl_cons, ih fun c hc => hl c (List.mem_cons_of_mem call hc), effect, if_neg hns,
      printAct]
    by_cases hcall : call.find = .f ∧ p call.path
    · rw [if_pos hcall, List.filter_cons_of_pos (by simpa using hcall), Output.print,
        List.append_assoc]
      rfl
    · rw [if_neg hcall, List.filter_cons_of_neg (by simpa using hcall)]

/-- A walk of the branches `TYPE_N` and `TYPE_C` returns zero with one call for each file. -/
theorem trace_iff (htype : type ≠ .p) (hstart : StartPath fs s.cwd start)
    (ht : Tree fs s.cwd n start) (ha : Acts fs s.cwd type func act start) (hdepth : n ≤ depth)
    (hsize : s.fullpath.length = pathSize) :
    (∃ s', myfind fs junk depth start (record func) type
        ⟨s.fullpath, s.cwd, s.out.stdout, s.out.globals, []⟩ = some (0, s') ∧
      ((s'.out.globals.2.filter fun call => call.find = .f).map Call.path).Nodup ∧
      ∀ path, path ∈ (s'.out.globals.2.filter fun call => call.find = .f).map Call.path ↔
        fs.Reached s.cwd start path ∧ fs.isFile s.cwd path = true) ↔
      JunkZero fs s.cwd junk start := by
  obtain ⟨r, s', hrun, hout⟩ := myfind_outcome junk
    (s := ⟨s.fullpath, s.cwd, s.out.stdout, s.out.globals, []⟩) hstart ht ha.record hdepth hsize
  rw [← retZero_iff_junkZero htype, ← hout.zero]
  constructor
  · rintro ⟨s₁, hrun₁, -⟩
    rw [hrun] at hrun₁
    exact congrArg Prod.fst (Option.some.inj hrun₁)
  · rintro rfl
    have htrace : (s'.out.globals.2.filter fun call => call.find = .f).map Call.path =
        (fs.paths s.cwd n start).filter (fs.isFile s.cwd) := by
      have hfiles := calls_files fs s.cwd type n start fun _ => true
      rw [hout.out (hout.zero.mp rfl), recorded, List.nil_append]
      simpa using hfiles
    refine ⟨s', hrun, ?_, fun path => ?_⟩
    · rw [htrace]
      exact ht.nodup_paths.filter _
    · rw [htrace, List.mem_filter, mem_preorder ht.depth]

theorem Readable.find_ne_ns (hread : Readable fs cwd start)
    (hdepth : DepthLt (fs.children cwd) n start) {call : Call}
    (hcall : call ∈ calls fs cwd type n start) : call.find ≠ .ns := by
  intro hns
  obtain ⟨path, hpath, hcall⟩ := List.mem_flatMap.mp hcall
  have hsome := hread.lstat path ((mem_preorder hdepth).mp hpath)
  rcases mem_callsAt hcall with ⟨st, rfl, -⟩ | ⟨st, rfl, -⟩ | ⟨st, rfl⟩ | ⟨rfl, hnone⟩
  · cases hns
  · cases hns
  · cases hns
  · rw [hnone] at hsome
    cases hsome

/-- A walk for `-name` returns zero with one line for each file that has one of the names. -/
theorem lines_iff (nameStr : List Path) (hstart : StartPath fs s.cwd start)
    (ht : Tree fs s.cwd n start) (hread : Readable fs s.cwd start)
    (hpass : Passable fs s.cwd start) (hdepth : n ≤ depth)
    (hsize : s.fullpath.length = pathSize) :
    (∃ (s' : State Cwd G) (l : List Path),
      myfind fs junk depth start (myfunc3 fs nameStr) .n s = some (0, s') ∧ l.Nodup ∧
      (∀ path, path ∈ l ↔ fs.Reached s.cwd start path ∧ fs.isFile s.cwd path = true ∧
        baseName path ∈ nameStr) ∧
      s'.out.stdout = s.out.stdout ++ l.map (fs.fullName s.cwd)) ↔
    JunkZero fs s.cwd junk start := by
  obtain ⟨r, s', hrun, hout⟩ := myfind_outcome junk hstart ht
    (myfunc3_acts .n nameStr hstart ht hpass) hdepth hsize
  rw [← retZero_iff_junkZero (show WalkType.n ≠ .p by decide), ← hout.zero]
  constructor
  · rintro ⟨s₁, l, hrun₁, -⟩
    rw [hrun] at hrun₁
    exact congrArg Prod.fst (Option.some.inj hrun₁)
  · rintro rfl
    refine ⟨s', (fs.paths s.cwd n start).filter fun path => fs.isFile s.cwd path ∧
      decide (baseName path ∈ nameStr), hrun, ht.nodup_paths.filter _, fun path => ?_, ?_⟩
    · rw [List.mem_filter, mem_preorder ht.depth]
      simp
    · rw [hout.out (hout.zero.mp rfl), myfunc3Act_eq, printed _ _ fun _ => hread.find_ne_ns ht.depth,
        calls_files fs s.cwd .n n start fun path => baseName path ∈ nameStr]

end Coursework.Unix.Myfind
