import Coursework.Unix.Myfind.Compare

/-!
# The files that `myfind -name` and `myfind -comp` visit

`myfunc3` opens nothing. `myfunc2` keeps a descriptor for each file that it opens, so `-comp`
visits every file as long as the descriptors last and its `memcmp` survives.
-/
namespace Coursework.Unix.Myfind
open CString

variable {Cwd G : Type} {sys : System Cwd} {cwd : Cwd} {junk : Path → ℤ} {n depth held : ℕ}
  {start path name : Path} {l : List Path} {t : List Call} {s : State (Process Cwd) G}
  {back : Path → Bool}

/-! ### `myfunc2` -/

/-- The call of `memcmp` for a file comes back. -/
def System.comesBack (sys : System Cwd) (heap : Path → Heap) (c : Reference) (cwd : Cwd)
    (path : Path) : Bool :=
  (sys.lstat cwd path).all fun st => (heap path).returns c st.size.toNat

/-- `memcmp` finds no difference in a call that begins with `held` descriptors. -/
def System.agrees (sys : System Cwd) (heap : Path → Heap) (c : Reference) (cwd : Cwd)
    (start : Path) (held : ℕ) (path : Path) : Bool :=
  (sys.lstat cwd path).any fun st =>
    (sys.openFile (nested start path) ⟨cwd, held⟩ path).any fun p =>
      (fullbuf (heap path).bytes c p.2).memcmp c.filebuf st.size.toNat

def myfunc2Act (sys : System Cwd) (heap : Path → Heap) (c : Reference) (cwd : Cwd)
    (start : Path) (call : Call) (held : ℕ) (o : Output G) : Output G :=
  if call.find = .f ∧ sys.agrees heap c cwd start held call.path then
    o.print (sys.fullName cwd call.path)
  else o

theorem myfunc2_spends (heap : Path → Heap) (c : Reference)
    (hstart : StartPath sys.toFileSystem cwd start) (ht : Tree sys.toFileSystem cwd n start)
    (hpass : ∀ dir, sys.Reached cwd start dir → sys.isDir cwd dir = true →
      ∃ c, sys.chdir cwd dir = some c ∧ sys.chdir c (sys.getcwd cwd) = some cwd) :
    Spends sys (sys.comesBack heap c cwd) cwd start
      (myfunc2 sys start heap c : Myfunc (Process Cwd) G) (myfunc2Act sys heap c cwd start) where
  file path st hpath hst hkind s hs hholds := by
    obtain ⟨b, ⟨here, held⟩, out⟩ := s
    obtain rfl : here = cwd := hs
    obtain ⟨dir, names, name, hdir, hisDir, -, hslash, -, rfl⟩ :=
      ht.file_cases hstart hpath (isFile_of_lstat hst hkind)
    obtain ⟨there, hthere, hback⟩ := hpass dir hdir hisDir
    rw [perform, if_pos rfl, System.spend, System.comesBack, hst, Option.all_some]
    cases hreturns : (heap (dir ++ slash :: name)).returns c st.size.toNat with
    | false =>
      rw [myfunc2_of_not_returns st hholds hreturns]
      rfl
    | true =>
      rw [if_pos rfl]
      simp only [Option.map_map]
      cases hopen : sys.openFile (nested start (dir ++ slash :: name)) ⟨here, held⟩
          (dir ++ slash :: name) with
      | none =>
        rw [myfunc2, Option.bind_eq_bind, Option.bind_some, hholds.text_eq]
        simp only [hopen]
        rfl
      | some p =>
        obtain ⟨⟨here', held'⟩, content⟩ := p
        obtain rfl : here' = here := cwd_of_openFile hopen
        have hagrees : sys.agrees heap c here' start held (dir ++ slash :: name) =
            (fullbuf (heap (dir ++ slash :: name)).bytes c content).memcmp c.filebuf
              st.size.toNat := by
          rw [System.agrees, hst, Option.any_some, hopen, Option.any_some]
        rw [myfunc2_of_open heap c st hholds (strrchr_append dir hslash) hopen hreturns, take_dir,
          Option.map_some, Function.comp_apply, Function.comp_apply, myfunc2Act, hagrees]
        simp only [true_and]
        split_ifs
        · have hchdir : (sys.files start).chdir ⟨here', held'⟩ dir = some ⟨there, held'⟩ := by
            simp [System.files, hthere]
          have hreturn : (sys.files start).chdir ⟨there, held'⟩
              ((sys.files start).getcwd ⟨here', held'⟩) = some ⟨here', held'⟩ := by
            simp [System.files, hback]
          rw [hchdir, Option.getD_some, hreturn, fullName_append hslash hthere]
          rfl
        · rfl
  dnr _ _ _ _ _ _ := rfl

/-! ### Enough descriptors -/

theorem nested_child (h : start.length ≤ path.length) (hname : slash ∉ name) :
    nested start (path ++ slash :: name) = nested start path + 1 := by
  rw [nested, nested, List.drop_append_of_le_length h, List.count_append, List.count_cons_self,
    List.count_eq_zero_of_not_mem hname]

/-- Below a node fewer than `n` more directories are open. -/
theorem nested_lt {q : Path} (ht : Tree sys.toFileSystem cwd n path)
    (hle : start.length ≤ path.length) (hq : sys.Reached cwd path q) :
    nested start q < nested start path + n := by
  induction n generalizing path with
  | zero => exact ht.depth.elim
  | succ n ih =>
    rcases Relation.ReflTransGen.cases_head hq with rfl | ⟨path', hc, hq⟩
    · omega
    · have ht' := ht.child hc
      obtain ⟨names, name, -, -, hlisting, hname, rfl⟩ := ht.child_cases .refl hc
      have hslash := (hlisting.characters name (List.mem_filter.mp hname).1).1
      have hlt := ih ht' (by rw [List.length_append]; omega) hq
      rw [nested_child hle hslash] at hlt
      omega

theorem spend_le (start : Path) (held : ℕ) (hback : back path = true)
    (hblocks : sys.opens cwd path ≠ .blocks) :
    ∃ held', sys.spend back cwd start held path = some held' ∧ held' ≤ held + 1 := by
  rw [System.spend, if_pos hback, System.openFile]
  split_ifs
  · cases hopens : sys.opens cwd path with
    | fails => exact ⟨held, rfl, Nat.le_succ held⟩
    | blocks => exact absurd hopens hblocks
    | opened content => exact ⟨held + 1, rfl, le_rfl⟩
  · exact ⟨held, rfl, Nat.le_succ held⟩

theorem supplied_of_le (hnested : ∀ q ∈ l, nested start q < n)
    (hreturns : ∀ q ∈ l, sys.isFile cwd q = true → back q = true ∧ sys.opens cwd q ≠ .blocks)
    (hlimit : held + (l.filter (sys.isFile cwd)).length + n ≤ sys.limit) :
    Supplied sys back cwd junk start l held ↔
      ∀ q ∈ l, Barren sys.toFileSystem cwd q → junk q = 0 := by
  induction l generalizing held with
  | nil => exact iff_of_true trivial (List.forall_mem_nil _)
  | cons path l ih =>
    have hrest (held : ℕ) (hle : held + (l.filter (sys.isFile cwd)).length + n ≤ sys.limit) :=
      ih (fun q hq => hnested q (.tail path hq)) (fun q hq => hreturns q (.tail path hq)) hle
    rw [List.forall_mem_cons]
    cases hfile : sys.isFile cwd path with
    | true =>
      rw [List.filter_cons_of_pos hfile, List.length_cons] at hlimit
      obtain ⟨hback, hblocks⟩ := hreturns path List.mem_cons_self hfile
      obtain ⟨held', hspend, hle⟩ := spend_le start held hback hblocks
      have hbarren : ¬ Barren sys.toFileSystem cwd path := fun h => by
        rw [isFile_of_isDir h.1] at hfile
        cases hfile
      rw [supplied_file hfile, hspend, ← hrest held' (by omega)]
      simp [hbarren]
    | false =>
      rw [List.filter_cons_of_neg (by simp [hfile])] at hlimit
      have hlt := hnested path List.mem_cons_self
      rw [supplied_dir hfile, DirSupplied, if_pos (by omega), hrest held hlimit]

/-- With a descriptor for each file, and one for each level of the tree, and where each call comes
back, only an unset `ret` can stop the walk. -/
theorem supplied_iff_junkZero (ht : Tree sys.toFileSystem cwd n start)
    (hreturns : ∀ path, sys.Reached cwd start path → sys.isFile cwd path = true →
      back path = true ∧ sys.opens cwd path ≠ .blocks)
    (hlimit : held + ((sys.paths cwd n start).filter (sys.isFile cwd)).length + n ≤ sys.limit) :
    Supplied sys back cwd junk start (sys.paths cwd n start) held ↔
      JunkZero sys.toFileSystem cwd junk start := by
  have hmem := fun q => mem_preorder (y := q) ht.depth
  rw [supplied_of_le (fun q hq => ?_) (fun q hq => hreturns q ((hmem q).mp hq)) hlimit]
  · exact forall_congr' fun q => imp_congr_left (hmem q)
  · have hlt := nested_lt ht (le_refl start.length) ((hmem q).mp hq)
    have hself : nested start start = 0 := by rw [nested, List.drop_length, List.count_nil]
    omega

/-! ### The whole walk -/

/-- A directory `/d` with an empty directory `e` and a file `x`; a working directory is its path. -/
def emptyFirst : System Path where
  lstat _ path :=
    if path = [47, 100] ∨ path = [47, 100, 47, 101] then some ⟨.dir, 4096⟩
    else if path = [47, 100, 47, 120] then some ⟨.reg, 10⟩
    else none
  opendir _ path :=
    if path = [47, 100] then some [[46], [101], [120], [46, 46]]
    else if path = [47, 100, 47, 101] then some [[46], [46, 46]]
    else none
  chdir _ path := some path
  getcwd cwd := cwd
  opens _ path :=
    if path = [47, 100, 47, 120] then .opened (some [65, 66, 67, 68, 69, 70, 71, 72, 73, 10])
    else .fails
  limit := 1024

theorem emptyFirst_tree : StartPath emptyFirst.toFileSystem [47] [47, 100] ∧
    Tree emptyFirst.toFileSystem [47] 3 [47, 100] ∧
    Readable emptyFirst.toFileSystem [47] [47, 100] ∧
    Passable emptyFirst.toFileSystem [47] [47, 100] := by
  have hdepth : DepthLt (emptyFirst.children [47]) 3 [47, 100] := by decide
  refine ⟨⟨by decide, by decide, by decide⟩, ⟨hdepth, ?_⟩,
    ⟨hdepth.forall_below (by decide), hdepth.forall_below (by decide)⟩,
    fun dir _ _ => ⟨dir, rfl, rfl⟩, ?_⟩
  · intro path names _ _ hopen
    simp only [emptyFirst] at hopen
    split_ifs at hopen with h h'
    · subst h
      cases hopen
      exact ⟨by decide, by decide, by decide, by decide⟩
    · subst h'
      cases hopen
      exact ⟨by decide, by decide, by decide, by decide⟩
  · intro dir names _ _ hopen
    simp only [emptyFirst] at hopen
    split_ifs at hopen <;> cases hopen <;> decide

/-- Each file that is met has a content that can be compared with `R`. -/
def Comparable (sys : System Cwd) (cwd : Cwd) (start : Path) (R : List UInt8) : Prop :=
  ∀ path, sys.Reached cwd start path → sys.isFile cwd path = true →
    ∃ F st, sys.lstat cwd path = some st ∧ sys.opens cwd path = .opened (some F) ∧
      st.size = F.length ∧ F.length ≤ R.length ∧ (F <+: R → F = R)

section Lines
variable {heap : Path → Heap} {static : ℕ → UInt8} {R : List UInt8}

/-- While a descriptor is left, `memcmp` decides whether the content is that of the reference
file. -/
theorem Comparable.agrees_iff (h : Comparable sys cwd start R) (hR : R.length ≤ bufSize)
    (heap : Path → Heap) (static : ℕ → UInt8) (hpath : sys.Reached cwd start path)
    (hfile : sys.isFile cwd path = true) (hleft : held + nested start path < sys.limit) :
    sys.agrees heap (.load static R) cwd start held path = true ↔
      sys.opens cwd path = .opened (some R) := by
  obtain ⟨F, st, hst, hF, hsize, hle, hstarts⟩ := h path hpath hfile
  rw [System.agrees, hst, Option.any_some, openFile_of_lt hleft hF, Option.any_some, hF, hsize,
    Int.toNat_natCast, fullbuf_memcmp (heap path).bytes static hR hle]
  simp only [Opening.opened.injEq, Option.some.injEq]
  exact ⟨hstarts, fun h => h ▸ List.prefix_rfl⟩

/-- `fullbuf` is as long as each file that is compared. -/
theorem Comparable.comesBack (h : Comparable sys cwd start R) (hR : R.length ≤ bufSize)
    (heap : Path → Heap) (static : ℕ → UInt8) (hpath : sys.Reached cwd start path)
    (hfile : sys.isFile cwd path = true) :
    sys.comesBack heap (.load static R) cwd path = true := by
  obtain ⟨F, st, hst, -, hsize, hle, -⟩ := h path hpath hfile
  rw [System.comesBack, hst, Option.all_some]
  apply Heap.returns_of_le
  rw [hsize, Int.toNat_natCast, Reference.load_eq static hR]
  exact hle

/-- The lines that calls print which find a descriptor each. -/
theorem printed_perform {x x' : ℕ × Output G} (hcomparable : Comparable sys cwd start R)
    (hR : R.length ≤ bufSize)
    (h : t.foldlM (perform sys (sys.comesBack heap (.load static R) cwd) cwd start
      (myfunc2Act sys heap (.load static R) cwd start)) x = some x')
    (hfiles : ∀ q ∈ filePaths t, sys.Reached cwd start q ∧ sys.isFile cwd q = true ∧
      nested start q < n)
    (hlimit : x.1 + (filePaths t).length + n ≤ sys.limit) :
    x'.2.stdout = x.2.stdout ++
      ((filePaths t).filter fun q => sys.opens cwd q = .opened (some R)).map
        (sys.fullName cwd) := by
  induction t generalizing x with
  | nil =>
    cases h
    exact (List.append_nil _).symm
  | cons call t ih =>
    rw [List.foldlM_cons, Option.bind_eq_bind, Option.bind_eq_some_iff] at h
    obtain ⟨y, hy, h⟩ := h
    obtain ⟨held, hheld, rfl⟩ := Option.map_eq_some_iff.mp hy
    by_cases hfind : call.find = .f
    · have hpaths : filePaths (call :: t) = call.path :: filePaths t := by
        rw [filePaths, List.filter_cons_of_pos (by simpa using hfind)]
        rfl
      rw [hpaths] at hfiles hlimit
      rw [if_pos hfind] at hheld
      obtain ⟨hreached, hfile, hnested⟩ := hfiles call.path List.mem_cons_self
      obtain ⟨F, -, -, hF, -⟩ := hcomparable call.path hreached hfile
      obtain ⟨held', hheld', hle⟩ := spend_le start x.1
        (hcomparable.comesBack hR heap static hreached hfile) fun h => by cases hF.symm.trans h
      cases hheld.symm.trans hheld'
      rw [List.length_cons] at hlimit
      have hagrees := hcomparable.agrees_iff hR heap static hreached hfile
        (show x.1 + nested start call.path < sys.limit by omega)
      rw [ih h (fun q hq => hfiles q (.tail _ hq)) (by simp only; omega), hpaths, myfunc2Act]
      by_cases hequal : sys.opens cwd call.path = .opened (some R)
      · rw [if_pos ⟨hfind, hagrees.mpr hequal⟩, List.filter_cons_of_pos (by simpa using hequal),
          Output.print, List.append_assoc]
        rfl
      · rw [if_neg fun h => hequal (hagrees.mp h.2),
          List.filter_cons_of_neg (by simpa using hequal)]
    · have hpaths : filePaths (call :: t) = filePaths t := by
        rw [filePaths, List.filter_cons_of_neg (by simpa using hfind)]
        rfl
      rw [hpaths] at hfiles hlimit
      rw [if_neg hfind] at hheld
      cases hheld
      rw [ih h hfiles hlimit, hpaths, myfunc2Act, if_neg fun h => hfind h.1]

/-- A run of `myfind -comp` among files that can be compared, with a descriptor for each of them,
for the reference file and for each level of the tree, prints a line for each file with the content
of the reference file. -/
theorem mainComp_lines {filename : Path} (hstart : StartPath sys.toFileSystem s.cwd.cwd start)
    (ht : Tree sys.toFileSystem s.cwd.cwd n start)
    (hread : Readable sys.toFileSystem s.cwd.cwd start)
    (hpass : ∀ dir, sys.Reached s.cwd.cwd start dir → sys.isDir s.cwd.cwd dir = true →
      ∃ c, sys.chdir s.cwd.cwd dir = some c ∧
        sys.chdir c (sys.getcwd s.cwd.cwd) = some s.cwd.cwd)
    (hdepth : n ≤ depth) (hsize : s.fullpath.length = pathSize)
    (hfits : filename.length < pathSize) (hfile : sys.isFile s.cwd.cwd filename = true)
    (hcontent : sys.opens s.cwd.cwd filename = .opened (some R)) (hR : R.length ≤ bufSize)
    (hcomparable : Comparable sys s.cwd.cwd start R)
    (hjunk : JunkZero sys.toFileSystem s.cwd.cwd junk start)
    (hlimit : s.cwd.held + 1 +
      ((sys.paths s.cwd.cwd n start).filter (sys.isFile s.cwd.cwd)).length + n ≤ sys.limit) :
    ∃ (s' : State (Process Cwd) G) (l : List Path),
      mainComp sys heap static junk depth start filename s = some (0, s') ∧ l.Nodup ∧
      (∀ path, path ∈ l ↔ sys.Reached s.cwd.cwd start path ∧
        sys.isFile s.cwd.cwd path = true ∧ sys.opens s.cwd.cwd path = .opened (some R)) ∧
      s'.out.stdout = s.out.stdout ++ l.map (sys.fullName s.cwd.cwd) := by
  have hopen : sys.openFile 0 s.cwd filename =
      some ({ s.cwd with held := s.cwd.held + 1 }, some R) := openFile_of_lt (by omega) hcontent
  have hreturns : ∀ path, sys.Reached s.cwd.cwd start path → sys.isFile s.cwd.cwd path = true →
      sys.comesBack heap (.load static R) s.cwd.cwd path = true ∧
        sys.opens s.cwd.cwd path ≠ .blocks := by
    intro path hpath hfile
    obtain ⟨F, -, -, hF, -⟩ := hcomparable path hpath hfile
    refine ⟨hcomparable.comesBack hR heap static hpath hfile, ?_⟩
    rw [hF]
    nofun
  have hsupplied := (supplied_iff_junkZero ht hreturns hlimit).mpr hjunk
  have hwalks := myfind_walks (s := { s with cwd := { s.cwd with held := s.cwd.held + 1 } }) junk
    hstart (myfunc2_spends (G := G) heap (.load static R) hstart ht hpass) hread ht hdepth hsize
  obtain ⟨⟨r, s'⟩, hrun⟩ := Option.ne_none_iff_exists'.mp fun hnone =>
    hwalks.stuck hnone hsupplied
  obtain ⟨-, -, -, t, hperform, -, hiff⟩ := hwalks.went r s' hrun
  obtain ⟨rfl, hfiles⟩ := hiff.mpr hsupplied
  obtain ⟨startbuf, hstartbuf, -⟩ := (Option.any_eq_true _ _).mp hstart.isDir
  obtain ⟨statbuf, hstatbuf, hkind⟩ := (Option.any_eq_true _ _).mp hfile
  have hmem (path : Path) : path ∈ filePaths t ↔ sys.Reached s.cwd.cwd start path ∧
      sys.isFile s.cwd.cwd path = true := by
    rw [hfiles, List.mem_filter, mem_preorder ht.depth]
  refine ⟨s', (filePaths t).filter fun q => sys.opens s.cwd.cwd q = .opened (some R), ?_, ?_,
    fun path => ?_, ?_⟩
  · rw [mainComp]
    simp only [hopen, show (sys.files start).lstat s.cwd start = some startbuf from hstartbuf,
      show (sys.files start).lstat { s.cwd with held := s.cwd.held + 1 } filename = some statbuf
        from hstatbuf, Option.bind_eq_bind, Option.bind_some, if_pos hfits,
      if_neg (of_decide_eq_true hkind)]
    exact hrun
  · rw [hfiles]
    exact (ht.nodup_paths.filter _).filter _
  · rw [List.mem_filter, hmem, decide_eq_true_iff, and_assoc]
  · refine printed_perform hcomparable hR hperform (fun q hq => ?_) (by rw [hfiles]; exact hlimit)
    obtain ⟨hreached, hfile⟩ := (hmem q).mp hq
    have hlt := nested_lt ht (le_refl start.length) hreached
    have hself : nested start start = 0 := by rw [nested, List.drop_length, List.count_nil]
    exact ⟨hreached, hfile, by omega⟩

end Lines

end Coursework.Unix.Myfind
