import Coursework.Unix.Myfind.Names

/-!
# A walk with few descriptors

`dopath` opens a directory while those above it are open, and closes it again; a file that a
function opens may stay open. A process that has as many descriptors as it may have gets no
further one, and `open` waits at a FIFO that nobody writes to. A walk of the branch `TYPE_C` visits
every file if and only if every call comes back, at each directory with files below it a descriptor
is left, and an unset `ret` that is returned is zero.
-/
namespace Coursework.Unix.Myfind
open CString

variable {Cwd G : Type}

/-! ### Descriptors -/

/-- What `open(path, O_RDONLY)` comes to where a descriptor is left for it. -/
inductive Opening where
  | fails
  /-- It waits, as at a FIFO that nobody writes to; or `read` does, as at a terminal. -/
  | blocks
  /-- A file with these bytes, or with `none` one that is open but cannot be read. -/
  | opened (content : Option (List UInt8))
  deriving DecidableEq

/-- The file system with the files that can be opened, and the number of descriptors that a process
may have open. -/
structure System (Cwd : Type) extends FileSystem Cwd where
  opens : Cwd → Path → Opening
  limit : ℕ

/-- A working directory, and the number of descriptors that are open and that nothing will close:
those of the start of the program and those of files. -/
structure Process (Cwd : Type) where
  cwd : Cwd
  held : ℕ

/-- The directories above `path`, from `start` on. `dopath` has a descriptor open for each of them,
which `closedir` will close. -/
def nested (start path : Path) : ℕ := (path.drop start.length).count slash

/-- The file system as a process finds it that walks below `start`. -/
def System.files (sys : System Cwd) (start : Path) : FileSystem (Process Cwd) where
  lstat p path := sys.lstat p.cwd path
  opendir p path := if p.held + nested start path < sys.limit then sys.opendir p.cwd path else none
  chdir p path := (sys.chdir p.cwd path).map fun cwd => { p with cwd := cwd }
  getcwd p := sys.getcwd p.cwd

/-- `open(path, O_RDONLY)` while `dirs` directories are open, and what `read` then finds; `none`
where one of the two does not return. -/
def System.openFile (sys : System Cwd) (dirs : ℕ) (p : Process Cwd) (path : Path) :
    Option (Process Cwd × Option (List UInt8)) :=
  if p.held + dirs < sys.limit then
    match sys.opens p.cwd path with
    | .fails => some (p, none)
    | .blocks => none
    | .opened content => some ({ p with held := p.held + 1 }, content)
  else some (p, none)

variable {sys : System Cwd} {cwd : Cwd} {junk : Path → ℤ} {func : Myfunc (Process Cwd) G}
  {act : Call → ℕ → Output G → Output G} {n depth held dirs : ℕ} {start path name : Path}
  {names l l₁ l₂ : List Path} {t t₁ t₂ : List Call} {s s' : State (Process Cwd) G} {r ret : ℤ}
  {p p' : Process Cwd} {content : Option (List UInt8)} {back : Path → Bool}

theorem openFile_of_lt (h : p.held + dirs < sys.limit)
    (hopens : sys.opens p.cwd path = .opened content) :
    sys.openFile dirs p path = some ({ p with held := p.held + 1 }, content) := by
  rw [System.openFile, if_pos h, hopens]

/-- No descriptor is left. -/
theorem openFile_of_le (h : sys.limit ≤ p.held + dirs) :
    sys.openFile dirs p path = some (p, none) :=
  if_neg h.not_gt

theorem cwd_of_openFile (h : sys.openFile dirs p path = some (p', content)) :
    p'.cwd = p.cwd := by
  rw [System.openFile] at h
  split_ifs at h
  · split at h <;> cases h <;> rfl
  · cases h
    rfl

/-! ### Descriptors along a list of nodes -/

/-- How many descriptors are held after the call for a file; `none` if it does not return. `back`
tells of which files the call comes back once the file is open or refused. -/
def System.spend (sys : System Cwd) (back : Path → Bool) (cwd : Cwd) (start : Path) (held : ℕ)
    (path : Path) : Option ℕ :=
  if back path then (sys.openFile (nested start path) ⟨cwd, held⟩ path).map fun p => p.1.held
  else none

/-- At a directory: what is needed for the files below it. -/
def DirSupplied (sys : System Cwd) (cwd : Cwd) (junk : Path → ℤ) (start : Path) (held : ℕ)
    (path : Path) : Prop :=
  if held + nested start path < sys.limit then Barren sys.toFileSystem cwd path → junk path = 0
  else ∀ q, sys.Reached cwd path q → sys.isFile cwd q = false

/-- Descriptors for the nodes of a list, one after the other: each file is opened or refused, and
each directory that a descriptor is left for does not return an unset `ret` other than zero; where
none is left, there are no files below the directory. -/
def Supplied (sys : System Cwd) (back : Path → Bool) (cwd : Cwd) (junk : Path → ℤ)
    (start : Path) : List Path → ℕ → Prop
  | [], _ => True
  | path :: l, held =>
    if sys.isFile cwd path then
      ∃ held', sys.spend back cwd start held path = some held' ∧
        Supplied sys back cwd junk start l held'
    else DirSupplied sys cwd junk start held path ∧ Supplied sys back cwd junk start l held

theorem supplied_file (h : sys.isFile cwd path = true) :
    Supplied sys back cwd junk start (path :: l) held ↔
      ∃ held', sys.spend back cwd start held path = some held' ∧
        Supplied sys back cwd junk start l held' := by
  rw [Supplied, if_pos h]

theorem supplied_dir (h : sys.isFile cwd path = false) :
    Supplied sys back cwd junk start (path :: l) held ↔
      DirSupplied sys cwd junk start held path ∧ Supplied sys back cwd junk start l held := by
  rw [Supplied, if_neg (Bool.eq_false_iff.mp h)]

/-- What the files of a list spend. -/
def System.spendAll (sys : System Cwd) (back : Path → Bool) (cwd : Cwd) (start : Path) (held : ℕ)
    (files : List Path) : Option ℕ :=
  files.foldlM (sys.spend back cwd start) held

/-- The nodes behind others are supplied out of what those leave. -/
theorem supplied_append : Supplied sys back cwd junk start (l₁ ++ l₂) held ↔
    Supplied sys back cwd junk start l₁ held ∧
      ∃ held', sys.spendAll back cwd start held (l₁.filter (sys.isFile cwd)) = some held' ∧
        Supplied sys back cwd junk start l₂ held' := by
  induction l₁ generalizing held with
  | nil => simp [Supplied, System.spendAll]
  | cons path l₁ ih =>
    rw [List.cons_append]
    cases hfile : sys.isFile cwd path with
    | true =>
      rw [supplied_file hfile, supplied_file hfile, List.filter_cons_of_pos hfile]
      simp only [ih, System.spendAll, List.foldlM_cons, Option.bind_eq_bind,
        Option.bind_eq_some_iff]
      constructor
      · rintro ⟨held₁, hspend, hsupp, held', hall, hrest⟩
        exact ⟨⟨held₁, hspend, hsupp⟩, held', ⟨held₁, hspend, hall⟩, hrest⟩
      · rintro ⟨⟨held₁, hspend, hsupp⟩, held', ⟨held₂, hspend', hall⟩, hrest⟩
        cases hspend.symm.trans hspend'
        exact ⟨held₁, hspend, hsupp, held', hall, hrest⟩
    | false =>
      rw [supplied_dir hfile, supplied_dir hfile, List.filter_cons_of_neg (by simp [hfile]), ih,
        and_assoc]

/-! ### Calls -/

def filePaths (t : List Call) : List Path := (t.filter fun call => call.find = .f).map Call.path

theorem filePaths_append (t₁ t₂ : List Call) :
    filePaths (t₁ ++ t₂) = filePaths t₁ ++ filePaths t₂ := by
  simp [filePaths]

/-- The descriptors that are held after a call, and what is printed. -/
def perform (sys : System Cwd) (back : Path → Bool) (cwd : Cwd) (start : Path)
    (act : Call → ℕ → Output G → Output G) (x : ℕ × Output G) (call : Call) :
    Option (ℕ × Output G) :=
  (if call.find = .f then sys.spend back cwd start x.1 call.path else some x.1).map fun held =>
    (held, act call x.1 x.2)

theorem spendAll_of_perform {x x' : ℕ × Output G}
    (h : t.foldlM (perform sys back cwd start act) x = some x') :
    sys.spendAll back cwd start x.1 (filePaths t) = some x'.1 := by
  induction t generalizing x with
  | nil =>
    cases h
    rfl
  | cons call t ih =>
    rw [List.foldlM_cons, Option.bind_eq_bind, Option.bind_eq_some_iff] at h
    obtain ⟨y, hy, h⟩ := h
    obtain ⟨held, hheld, rfl⟩ := Option.map_eq_some_iff.mp hy
    by_cases hfind : call.find = .f
    · rw [if_pos hfind] at hheld
      rw [filePaths, List.filter_cons_of_pos (by simpa using hfind), List.map_cons,
        System.spendAll, List.foldlM_cons, hheld]
      exact ih h
    · rw [if_neg hfind] at hheld
      cases hheld
      rw [filePaths, List.filter_cons_of_neg (by simpa using hfind)]
      exact ih (x := (x.1, act call x.1 x.2)) h

/-- At a file the function spends as `open` does; it prints, and returns zero if it returns. -/
structure Spends (sys : System Cwd) (back : Path → Bool) (cwd : Cwd) (start : Path)
    (func : Myfunc (Process Cwd) G) (act : Call → ℕ → Output G → Output G) : Prop where
  file : ∀ path st, sys.Reached cwd start path → sys.lstat cwd path = some st → st.kind ≠ .dir →
    ∀ s : State (Process Cwd) G, s.cwd.cwd = cwd → Holds s.fullpath path →
      func s (some st) .f = (perform sys back cwd start act (s.cwd.held, s.out)
        ⟨path, some st, .f⟩).map fun x => (0, ⟨s.fullpath, ⟨cwd, x.1⟩, x.2⟩)
  dnr : ∀ path st, sys.Reached cwd start path → ∀ s : State (Process Cwd) G,
    s.cwd.cwd = cwd → Holds s.fullpath path → func s (some st) .dnr =
      some (0, { s with out := act ⟨path, some st, .dnr⟩ s.cwd.held s.out })

/-! ### A walk -/

/-- What a walk over nodes of the paths `l` comes to: the calls are some of those for the files, and
the walk has gone through all and returns zero if and only if `enough` holds. -/
structure Went (sys : System Cwd) (back : Path → Bool) (cwd : Cwd) (start : Path)
    (act : Call → ℕ → Output G → Output G) (l : List Path) (enough : Prop)
    (s : State (Process Cwd) G) (r : ℤ) (s' : State (Process Cwd) G) : Prop where
  stays : s'.cwd.cwd = cwd
  size : s'.fullpath.length = pathSize
  calls : ∃ t, t.foldlM (perform sys back cwd start act) (s.cwd.held, s.out) =
      some (s'.cwd.held, s'.out) ∧
    (filePaths t).Sublist (l.filter (sys.isFile cwd)) ∧
    (r = 0 ∧ filePaths t = l.filter (sys.isFile cwd) ↔ enough)

/-- A walk that does not come back lacks something too. -/
structure Walks (sys : System Cwd) (back : Path → Bool) (cwd : Cwd) (junk : Path → ℤ) (start : Path)
    (act : Call → ℕ → Output G → Output G) (n : ℕ) (path : Path) (s : State (Process Cwd) G)
    (result : Option (ℤ × State (Process Cwd) G)) : Prop where
  stuck : result = none → ¬ Supplied sys back cwd junk start (sys.paths cwd n path) s.cwd.held
  went : ∀ r s', result = some (r, s') → Holds s'.fullpath path ∧
    Went sys back cwd start act (sys.paths cwd n path)
      (Supplied sys back cwd junk start (sys.paths cwd n path) s.cwd.held) s r s'

/-- The nodes below the entries of a directory. -/
abbrev System.below (sys : System Cwd) (cwd : Cwd) (n : ℕ) (path : Path) (names : List Path) :
    List Path :=
  ((names.filter isEntry).map (path ++ slash :: ·)).flatMap (sys.paths cwd n)

/-- The loop over names, where `ret` holds `ret` before. -/
structure LoopWalks (sys : System Cwd) (back : Path → Bool) (cwd : Cwd) (junk : Path → ℤ)
    (start : Path) (act : Call → ℕ → Output G → Output G) (n : ℕ) (path : Path)
    (names : List Path) (ret : ℤ) (s : State (Process Cwd) G)
    (result : Option (ℤ × State (Process Cwd) G)) : Prop where
  stuck : result = none → ¬ Supplied sys back cwd junk start (sys.below cwd n path names) s.cwd.held
  went : ∀ r s', result = some (r, s') → path ++ [slash] <+: s'.fullpath ∧
    Went sys back cwd start act (sys.below cwd n path names)
      ((names.filter isEntry = [] → ret = 0) ∧
        Supplied sys back cwd junk start (sys.below cwd n path names) s.cwd.held) s r s'

/-- One walk after another one that returned zero. -/
theorem Went.append {s₁ : State (Process Cwd) G} {enough : Prop}
    (h₁ : Went sys back cwd start act l₁ (Supplied sys back cwd junk start l₁ s.cwd.held) s 0 s₁)
    (h₂ : Went sys back cwd start act l₂
      (enough ∧ Supplied sys back cwd junk start l₂ s₁.cwd.held) s₁ r s')
    (henough : enough) :
    Went sys back cwd start act (l₁ ++ l₂)
      (Supplied sys back cwd junk start (l₁ ++ l₂) s.cwd.held) s r s' := by
  obtain ⟨-, -, t₁, hperform₁, hsub₁, hiff₁⟩ := h₁
  obtain ⟨hstays, hsize, t₂, hperform₂, hsub₂, hiff₂⟩ := h₂
  have hspend := spendAll_of_perform hperform₁
  refine ⟨hstays, hsize, t₁ ++ t₂, ?_, ?_, ?_⟩
  · rw [List.foldlM_append, hperform₁]
    exact hperform₂
  · rw [filePaths_append, List.filter_append]
    exact hsub₁.append hsub₂
  · rw [filePaths_append, List.filter_append, supplied_append]
    constructor
    · rintro ⟨hr, heq⟩
      -- neither part is longer than its files, so each is as long as they are
      have hlen := congrArg List.length heq
      have hle₁ := hsub₁.length_le
      have hle₂ := hsub₂.length_le
      simp only [List.length_append] at hlen
      obtain ⟨heq₁, heq₂⟩ := List.append_inj heq (by omega)
      refine ⟨hiff₁.mp ⟨rfl, heq₁⟩, s₁.cwd.held, ?_, (hiff₂.mp ⟨hr, heq₂⟩).2⟩
      rw [← heq₁]
      exact hspend
    · rintro ⟨hsupp₁, held', hheld', hsupp₂⟩
      obtain ⟨-, heq₁⟩ := hiff₁.mpr hsupp₁
      rw [heq₁] at hspend
      cases hspend.symm.trans hheld'
      obtain ⟨hr, heq₂⟩ := hiff₂.mpr ⟨henough, hsupp₂⟩
      exact ⟨hr, by rw [heq₁, heq₂]⟩

theorem below_skip (hentry : isEntry name = false) :
    sys.below cwd n path (name :: names) = sys.below cwd n path names := by
  rw [System.below, List.filter_cons_of_neg (by simp [hentry])]

theorem below_cons (hentry : isEntry name = true) : sys.below cwd n path (name :: names) =
    sys.paths cwd n (path ++ slash :: name) ++ sys.below cwd n path names := by
  rw [System.below, List.filter_cons_of_pos hentry, List.map_cons, List.flatMap_cons]

/-- `.` and `..` are passed over. -/
theorem LoopWalks.skip {b : Path} {result : Option (ℤ × State (Process Cwd) G)}
    (hentry : isEntry name = false)
    (h : LoopWalks sys back cwd junk start act n path names ret { s with fullpath := b } result) :
    LoopWalks sys back cwd junk start act n path (name :: names) ret s result := by
  have hfilter : (name :: names).filter isEntry = names.filter isEntry :=
    List.filter_cons_of_neg (by simp [hentry])
  refine ⟨?_, fun r s' hres => ?_⟩
  · rw [below_skip hentry]
    exact h.stuck
  · obtain ⟨hstarts, hstays, hsize, hcalls⟩ := h.went r s' hres
    rw [below_skip hentry, hfilter]
    exact ⟨hstarts, hstays, hsize, hcalls⟩

/-- The loop after a call for an entry. -/
theorem LoopWalks.next {b : Path} {first : Option (ℤ × State (Process Cwd) G)}
    {loop : State (Process Cwd) G → Option (ℤ × State (Process Cwd) G)}
    (hentry : isEntry name = true)
    (hfirst : Walks sys back cwd junk start act n (path ++ slash :: name)
      { s with fullpath := b } first)
    (hrest : ∀ s₁, Holds s₁.fullpath (path ++ slash :: name) → s₁.cwd.cwd = cwd →
      s₁.fullpath.length = pathSize →
      LoopWalks sys back cwd junk start act n path names 0 s₁ (loop s₁)) :
    LoopWalks sys back cwd junk start act n path (name :: names) ret s
      (first.bind fun p => if p.1 ≠ 0 then some (1, p.2) else loop p.2) := by
  have hne : ¬ (name :: names).filter isEntry = [] := by
    rw [List.filter_cons_of_pos hentry]
    exact List.cons_ne_nil _ _
  have hfalse {P : Prop} (hno : ¬ Supplied sys back cwd junk start
      (sys.paths cwd n (path ++ slash :: name)) s.cwd.held) :
      ¬ (P ∧ Supplied sys back cwd junk start (sys.below cwd n path (name :: names))
        s.cwd.held) := by
    rw [below_cons hentry, supplied_append]
    exact fun h => hno h.2.1
  cases first with
  | none =>
    refine ⟨fun _ hsupp => hfalse (hfirst.stuck rfl) ⟨trivial, hsupp⟩, fun r s' hres => ?_⟩
    cases hres
  | some p =>
    obtain ⟨r₁, s₁⟩ := p
    obtain ⟨hholds, hwent⟩ := hfirst.went r₁ s₁ rfl
    rw [Option.bind_some]
    by_cases hr : r₁ = 0
    · subst hr
      rw [if_neg (not_not.mpr rfl)]
      have hloop := hrest s₁ hholds hwent.stays hwent.size
      refine ⟨fun hnone hsupp => ?_, fun r s' hres => ?_⟩
      · rw [below_cons hentry, supplied_append] at hsupp
        obtain ⟨hsupp₁, held', hheld', hsupp₂⟩ := hsupp
        obtain ⟨t, hperform, -, hiff⟩ := hwent.calls
        have hspend := spendAll_of_perform hperform
        rw [(hiff.mpr hsupp₁).2] at hspend
        cases hspend.symm.trans hheld'
        exact hloop.stuck hnone hsupp₂
      · obtain ⟨hstarts, hwent'⟩ := hloop.went r s' hres
        obtain ⟨hstays, hsize, hcalls⟩ := Went.append hwent hwent' fun _ => rfl
        rw [← below_cons hentry] at hcalls
        refine ⟨hstarts, hstays, hsize, ?_⟩
        rw [and_iff_right fun h => absurd h hne]
        exact hcalls
    · rw [if_pos hr]
      refine ⟨(by rintro ⟨⟩), fun r s' hres => ?_⟩
      cases hres
      obtain ⟨hstays, hsize, t, hperform, hsub, hiff⟩ := hwent
      refine ⟨starts_of_holds hholds, hstays, hsize, t, hperform, ?_, ?_⟩
      · rw [below_cons hentry, List.filter_append]
        exact hsub.trans (List.sublist_append_left _ _)
      · exact iff_of_false (fun h => absurd h.1 (by decide))
          (hfalse fun hsupp => hr (hiff.mpr hsupp).1)

theorem readdirLoop_walks
    {visit : State (Process Cwd) G → Option (ℤ × State (Process Cwd) G)} (ret : ℤ)
    (hpath : 0 ∉ path)
    (hnames : ∀ name ∈ names, (slash ∉ name ∧ 0 ∉ name) ∧
      (path ++ slash :: name).length < pathSize)
    (hvisit : ∀ name ∈ names.filter isEntry, ∀ s : State (Process Cwd) G, s.cwd.cwd = cwd →
      s.fullpath.length = pathSize → Holds s.fullpath (path ++ slash :: name) →
      Walks sys back cwd junk start act n (path ++ slash :: name) s (visit s))
    (hs : s.cwd.cwd = cwd) (hsize : s.fullpath.length = pathSize)
    (hstarts : path ++ [slash] <+: s.fullpath) :
    LoopWalks sys back cwd junk start act n path names ret s
      (readdirLoop visit (path.length + 1) names ret s) := by
  induction names generalizing s ret with
  | nil =>
    refine ⟨(by rintro ⟨⟩), fun r s' hres => ?_⟩
    cases hres
    refine ⟨hstarts, hs, hsize, [], rfl, List.nil_sublist _, ?_⟩
    exact ⟨fun h => ⟨fun _ => h.1, trivial⟩, fun h => ⟨h.1 rfl, rfl⟩⟩
  | cons name names ih =>
    have hrest := fun name' h => hnames name' (List.mem_cons_of_mem name h)
    obtain ⟨hname, hfits⟩ := hnames name List.mem_cons_self
    obtain ⟨b, hb, hbsize, hholds, hnoloop⟩ := strcpy_name hpath hname (hsize ▸ hfits) hstarts
    rw [readdirLoop_cons hb hnoloop]
    cases hentry : isEntry name with
    | false =>
      have hfilter : (name :: names).filter isEntry = names.filter isEntry :=
        List.filter_cons_of_neg (by simp [hentry])
      rw [hfilter] at hvisit
      exact .skip hentry (ih (s := { s with fullpath := b }) ret hrest hvisit hs
        (hbsize.trans hsize) (starts_of_holds hholds))
    | true =>
      have hfilter : (name :: names).filter isEntry = name :: names.filter isEntry :=
        List.filter_cons_of_pos hentry
      rw [hfilter] at hvisit
      have hcall := hvisit name List.mem_cons_self { s with fullpath := b } hs
        (hbsize.trans hsize) hholds
      refine .next hentry hcall fun s₁ hholds₁ hs₁ hsize₁ => ?_
      exact ih (s := s₁) 0 hrest (fun name' h => hvisit name' (List.mem_cons_of_mem name h)) hs₁
        hsize₁ (starts_of_holds hholds₁)

/-! ### A call of `dopath` -/

theorem nested_le {q : Path} (h : sys.Reached cwd path q) : nested start path ≤ nested start q := by
  obtain ⟨t, rfl, -⟩ := Reached.extends h
  rw [nested, nested, List.drop_append, List.count_append]
  exact Nat.le_add_right _ _

/-- Nodes without files need nothing where no descriptor is left. -/
theorem supplied_of_no_files (h : ∀ q ∈ l, sys.limit ≤ held + nested start q ∧
    ∀ q', sys.Reached cwd q q' → sys.isFile cwd q' = false) :
    Supplied sys back cwd junk start l held := by
  induction l with
  | nil => trivial
  | cons path l ih =>
    obtain ⟨hnone, hfiles⟩ := h path List.mem_cons_self
    refine (supplied_dir (hfiles path .refl)).mpr ⟨?_, ih fun q hq => h q (.tail path hq)⟩
    rw [DirSupplied, if_neg hnone.not_gt]
    exact hfiles

theorem isFile_of_isDir (h : sys.isDir cwd path = true) : sys.isFile cwd path = false := by
  rw [FileSystem.isDir] at h
  rw [FileSystem.isFile]
  cases hst : sys.lstat cwd path with
  | none => rfl
  | some st =>
    rw [hst] at h
    simpa using h

theorem paths_of_dir (hdir : sys.isDir cwd path = true)
    (hopen : sys.opendir cwd path = some names) :
    sys.paths cwd (n + 1) path = path :: sys.below cwd n path names := by
  rw [FileSystem.paths, preorder, children_of_dir hdir hopen]

/-- Where no descriptor is left for a directory nothing is lost if there are no files below it. -/
theorem refused_iff (hdepth : DepthLt (sys.children cwd) n path) (hdir : sys.isDir cwd path = true)
    (hnone : sys.limit ≤ held + nested start path) :
    [] = (sys.paths cwd n path).filter (sys.isFile cwd) ↔
      Supplied sys back cwd junk start (sys.paths cwd n path) held := by
  rw [eq_comm, List.filter_eq_nil_iff]
  simp only [mem_preorder hdepth, Bool.not_eq_true]
  constructor
  · intro h
    refine supplied_of_no_files fun q hq => ?_
    have hq := (mem_preorder hdepth).mp hq
    exact ⟨hnone.trans (Nat.add_le_add_left (nested_le hq) held),
      fun q' hq' => h q' (hq.trans hq')⟩
  · intro h
    cases n with
    | zero => exact hdepth.elim
    | succ n =>
      have hself := ((supplied_dir (isFile_of_isDir hdir)).mp h).1
      rwa [DirSupplied, if_neg hnone.not_gt] at hself

/-- From `opendir` on. -/
theorem dodir_walks {visit : State (Process Cwd) G → Option (ℤ × State (Process Cwd) G)}
    {st : Stat} (hf : Spends sys back cwd start func act) (hpath : sys.Reached cwd start path)
    (hdepth : DepthLt (sys.children cwd) (n + 1) path) (hdir : sys.isDir cwd path = true)
    (hopen : sys.opendir cwd path = some names) (hok : Listing path names)
    (hvisit : ∀ path' ∈ sys.children cwd path, ∀ s : State (Process Cwd) G, s.cwd.cwd = cwd →
      s.fullpath.length = pathSize → Holds s.fullpath path' →
      Walks sys back cwd junk start act n path' s (visit s))
    (hs : s.cwd.cwd = cwd) (hsize : s.fullpath.length = pathSize) (hholds : Holds s.fullpath path) :
    Walks sys back cwd junk start act (n + 1) path s
      (dodir (sys.files start) visit func st (junk path) s) := by
  have hpaths := paths_of_dir (n := n) hdir hopen
  have hfile := isFile_of_isDir hdir
  have hchildren := children_of_dir hdir hopen
  subst hs
  rw [dodir, hholds.text_eq]
  rcases Nat.lt_or_ge (s.cwd.held + nested start path) sys.limit with hleft | hnone
  · have hopen' : (sys.files start).opendir s.cwd path = some names := (if_pos hleft).trans hopen
    have henough : Supplied sys back s.cwd.cwd junk start (sys.paths s.cwd.cwd (n + 1) path)
        s.cwd.held ↔ (names.filter isEntry = [] → junk path = 0) ∧
          Supplied sys back s.cwd.cwd junk start (sys.below s.cwd.cwd n path names) s.cwd.held := by
      rw [hpaths, supplied_dir hfile, DirSupplied, if_pos hleft, barren_iff hdir hopen]
    obtain ⟨b₁, b, hb₁, hb, hbholds, hbsize⟩ := store_holds hholds (c := slash) (by decide)
      (hsize ▸ hok.slash_fits)
    have hloop := readdirLoop_walks (s := { s with fullpath := b }) (junk path) hholds.nonzero
      (fun name h => ⟨hok.characters name h, hok.fits name h⟩)
      (fun name h => hvisit _ (hchildren ▸ List.mem_map_of_mem h)) rfl (hbsize.trans hsize)
      hbholds.startsWith
    simp only [hopen', hb₁, hb, Option.bind_eq_bind, Option.bind_some]
    cases hres : readdirLoop visit (path.length + 1) names (junk path) { s with fullpath := b } with
    | none => exact ⟨fun _ hsupp => hloop.stuck hres (henough.mp hsupp).2, fun r s' h => by cases h⟩
    | some p =>
      obtain ⟨r, s₁⟩ := p
      obtain ⟨hstarts, hstays, hsize₁, t, hperform, hsub, hiff⟩ := hloop.went r s₁ hres
      obtain ⟨b', hb', hholds', hsize'⟩ := store_cut hstarts hholds.nonzero
      simp only [Option.bind_some, hb']
      refine ⟨(by rintro ⟨⟩), fun r s' h => ?_⟩
      cases h
      refine ⟨hholds', hstays, hsize'.trans hsize₁, t, hperform, ?_, ?_⟩
      · rw [hpaths, List.filter_cons_of_neg (by simp [hfile])]
        exact hsub
      · rw [henough, hpaths, List.filter_cons_of_neg (by simp [hfile])]
        exact hiff
  · have hopen' : (sys.files start).opendir s.cwd path = none := if_neg hnone.not_gt
    rw [hopen']
    simp only [hf.dnr path st hpath s rfl hholds]
    refine ⟨(by rintro ⟨⟩), fun r s' h => ?_⟩
    cases h
    refine ⟨hholds, rfl, hsize, [⟨path, some st, .dnr⟩], rfl, List.nil_sublist _, ?_⟩
    rw [← refused_iff hdepth hdir hnone]
    exact and_iff_right rfl

/-- A call of `dopath` in the branch `TYPE_C` comes to all files and returns zero if and only if
the nodes are supplied. -/
theorem dopath_walks (junk : Path → ℤ) (hf : Spends sys back cwd start func act)
    (hread : Readable sys.toFileSystem cwd start) (hpath : sys.Reached cwd start path)
    (ht : Tree sys.toFileSystem cwd n path) (hdepth : n ≤ depth) (hs : s.cwd.cwd = cwd)
    (hsize : s.fullpath.length = pathSize) (hholds : Holds s.fullpath path) :
    Walks sys back cwd junk start act n path s (dopath (sys.files start) junk func .c depth s) := by
  induction n generalizing path depth s with
  | zero => exact ht.depth.elim
  | succ n ih =>
    obtain ⟨depth, rfl⟩ : ∃ d, depth = d + 1 := ⟨depth - 1, by omega⟩
    obtain ⟨st, hst⟩ := Option.isSome_iff_exists.mp (hread.lstat path hpath)
    have hst' : (sys.files start).lstat s.cwd (text s.fullpath) = some st := by
      rw [hholds.text_eq, ← hst, ← hs]
      rfl
    rw [dopath, hst']
    by_cases hkind : st.kind = .dir
    · have hdir : sys.isDir cwd path = true := by
        rw [isDir_of_lstat hst, decide_eq_true hkind]
      obtain ⟨names, hopen⟩ := Option.isSome_iff_exists.mp (hread.opendir path hpath hdir)
      simp only [ne_eq, hkind, not_true_eq_false, if_false, hholds.text_eq]
      exact dodir_walks hf hpath ht.depth hdir hopen (ht.listing path names .refl hdir hopen)
        (fun path' hc s hs hsize hholds => ih (hpath.tail hc) (ht.child hc)
          (Nat.le_of_succ_le_succ hdepth) hs hsize hholds) hs hsize hholds
    · have hfile := isFile_of_lstat hst hkind
      have hpaths : sys.paths cwd (n + 1) path = [path] := by
        rw [FileSystem.paths, preorder, children_of_not_dir]
        · rfl
        · rw [isDir_of_lstat hst, decide_eq_false hkind]
      simp only [ne_eq, hkind, not_false_eq_true, if_true,
        hf.file path st hpath hst hkind s hs hholds]
      have henough : Supplied sys back cwd junk start [path] s.cwd.held ↔
          ∃ held', sys.spend back cwd start s.cwd.held path = some held' := by
        rw [supplied_file hfile]
        exact exists_congr fun held' => and_iff_left trivial
      rw [perform, if_pos rfl]
      cases hspend : sys.spend back cwd start s.cwd.held path with
      | none =>
        refine ⟨fun _ hsupp => ?_, fun r s' h => by cases h⟩
        rw [hpaths, henough, hspend] at hsupp
        obtain ⟨held', hheld'⟩ := hsupp
        cases hheld'
      | some held' =>
        refine ⟨(by rintro ⟨⟩), fun r s' h => ?_⟩
        cases h
        refine ⟨hholds, rfl, hsize, [⟨path, some st, .f⟩], ?_, ?_, ?_⟩
        · rw [List.foldlM_cons, perform, if_pos rfl, hspend]
          rfl
        · rw [hpaths, List.filter_cons_of_pos hfile]
          exact List.Sublist.refl _
        · rw [hpaths, List.filter_cons_of_pos hfile, henough]
          exact iff_of_true ⟨rfl, rfl⟩ ⟨held', hspend⟩

/-- The walk of the branch `TYPE_C` from the start. -/
theorem myfind_walks {s : State (Process Cwd) G} (junk : Path → ℤ)
    (hstart : StartPath sys.toFileSystem s.cwd.cwd start)
    (hf : Spends sys back s.cwd.cwd start func act)
    (hread : Readable sys.toFileSystem s.cwd.cwd start)
    (ht : Tree sys.toFileSystem s.cwd.cwd n start) (hdepth : n ≤ depth)
    (hsize : s.fullpath.length = pathSize) :
    Walks sys back s.cwd.cwd junk start act n start s
      (myfind (sys.files start) junk depth start func .c s) := by
  obtain ⟨b, hb, hholds, hbsize⟩ := strcpy_holds (List.nil_prefix (l := s.fullpath)) (s := start)
    hstart.nonzero (hsize ▸ hstart.fits)
  have hwalks := dopath_walks junk (s := { s with fullpath := b }) hf hread .refl ht hdepth rfl
    (hbsize.trans hsize) hholds
  have htext : text b = start := hholds.text_eq
  obtain ⟨st, hst⟩ := Option.isSome_iff_exists.mp (hread.lstat start .refl)
  have hkind : st.kind = .dir := by
    have hdir := hstart.isDir
    rwa [isDir_of_lstat hst, decide_eq_true_iff] at hdir
  have hst' : (sys.files start).lstat s.cwd start = some st := hst
  have hrun : myfind (sys.files start) junk depth start func .c s =
      dopath (sys.files start) junk func .c depth { s with fullpath := b } := by
    rw [myfind, show strcpy s.fullpath 0 start = some b from hb, Option.bind_eq_bind,
      Option.bind_some, htext, hst']
    exact if_neg (not_not.mpr hkind)
  rw [hrun]
  exact ⟨hwalks.stuck, fun r s' hres =>
    ⟨(hwalks.went r s' hres).1, (hwalks.went r s' hres).2.stays, (hwalks.went r s' hres).2.size,
      (hwalks.went r s' hres).2.calls⟩⟩

/-! ### A record of the calls -/

abbrev spendRecordAct (act : Call → ℕ → Output G → Output G) (call : Call) (held : ℕ) :
    Output (G × List Call) → Output (G × List Call) :=
  recordAct (fun call => act call held) call

theorem Spends.record (hf : Spends sys back cwd start func act) :
    Spends sys back cwd start (record func) (spendRecordAct act) where
  file path st hpath hst hkind s hs hholds := by
    rw [Myfind.record, hf.file path st hpath hst hkind
      ⟨s.fullpath, s.cwd, s.out.stdout, s.out.globals.1⟩ hs hholds, hholds.text_eq, perform,
      perform, if_pos rfl]
    simp only [Option.map_map]
    rfl
  dnr path st hpath s hs hholds := by
    rw [Myfind.record, hf.dnr path st hpath ⟨s.fullpath, s.cwd, s.out.stdout, s.out.globals.1⟩ hs
      hholds, hholds.text_eq]
    rfl

theorem recorded_perform {x x' : ℕ × Output (G × List Call)}
    (h : t.foldlM (perform sys back cwd start (spendRecordAct act)) x = some x') :
    x'.2.globals.2 = x.2.globals.2 ++ t := by
  induction t generalizing x with
  | nil =>
    cases h
    exact (List.append_nil _).symm
  | cons call t ih =>
    rw [List.foldlM_cons, Option.bind_eq_bind, Option.bind_eq_some_iff] at h
    obtain ⟨y, hy, h⟩ := h
    obtain ⟨held, -, rfl⟩ := Option.map_eq_some_iff.mp hy
    rw [ih h]
    exact List.append_assoc _ [call] t

/-- A walk of the branch `TYPE_C` returns zero with one call for each file exactly if the nodes are
supplied. -/
theorem spending_trace_iff {s : State Cwd G} {held : ℕ} (junk : Path → ℤ)
    (hstart : StartPath sys.toFileSystem s.cwd start) (hf : Spends sys back s.cwd start func act)
    (hread : Readable sys.toFileSystem s.cwd start)
    (ht : Tree sys.toFileSystem s.cwd n start) (hdepth : n ≤ depth)
    (hsize : s.fullpath.length = pathSize) :
    (∃ s', myfind (sys.files start) junk depth start (record func) .c
        ⟨s.fullpath, ⟨s.cwd, held⟩, s.out.stdout, s.out.globals, []⟩ = some (0, s') ∧
      ((s'.out.globals.2.filter fun call => call.find = .f).map Call.path).Nodup ∧
      ∀ path, path ∈ (s'.out.globals.2.filter fun call => call.find = .f).map Call.path ↔
        sys.Reached s.cwd start path ∧ sys.isFile s.cwd path = true) ↔
      Supplied sys back s.cwd junk start (sys.paths s.cwd n start) held := by
  have hwalks := myfind_walks junk
    (s := ⟨s.fullpath, ⟨s.cwd, held⟩, s.out.stdout, s.out.globals, []⟩) hstart hf.record hread ht
    hdepth hsize
  have hnodup : ((sys.paths s.cwd n start).filter (sys.isFile s.cwd)).Nodup :=
    ht.nodup_paths.filter _
  have hmem (path : Path) : path ∈ (sys.paths s.cwd n start).filter (sys.isFile s.cwd) ↔
      sys.Reached s.cwd start path ∧ sys.isFile s.cwd path = true := by
    rw [List.mem_filter, mem_preorder ht.depth]
  constructor
  · rintro ⟨s', hrun, hnodup', hmem'⟩
    obtain ⟨-, -, -, t, hperform, hsub, hiff⟩ := hwalks.went 0 s' hrun
    have htrace : s'.out.globals.2 = t := recorded_perform hperform
    rw [htrace] at hnodup' hmem'
    have hperm := (List.perm_ext_iff_of_nodup hnodup' hnodup).mpr fun path =>
      (hmem' path).trans (hmem path).symm
    exact hiff.mp ⟨rfl, hsub.eq_of_length hperm.length_eq⟩
  · intro hsupp
    obtain ⟨⟨r, s'⟩, hrun⟩ := Option.ne_none_iff_exists'.mp fun hnone => hwalks.stuck hnone hsupp
    obtain ⟨-, -, -, t, hperform, -, hiff⟩ := hwalks.went r s' hrun
    obtain ⟨rfl, hfiles⟩ := hiff.mpr hsupp
    have htrace : s'.out.globals.2 = t := recorded_perform hperform
    have hpaths : (s'.out.globals.2.filter fun call => call.find = .f).map Call.path =
        (sys.paths s.cwd n start).filter (sys.isFile s.cwd) := by
      rw [htrace]
      exact hfiles
    rw [← hpaths] at hnodup hmem
    exact ⟨s', hrun, hnodup, hmem⟩

end Coursework.Unix.Myfind
