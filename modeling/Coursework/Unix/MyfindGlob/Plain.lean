import Coursework.Unix.MyfindGlob.Agreement
import Mathlib.Data.List.Infix
import Mathlib.Data.List.Sort
import Mathlib.Order.Defs.LinearOrder

/-!
# Trees without special characters

Where no directory has a special character in its path, each visible pattern matches the visible
names of its own directory, and the two versions can be compared by names.
-/
namespace Coursework.Unix.MyfindGlob
open CString Myfind

variable {Cwd : Type}

/-- The paths in a directory whose names do not start with a period. -/
def visible (fs : FileSystem Cwd) (cwd : Cwd) (path : Path) : List Path :=
  if fs.isDir cwd path then
    ((fs.entries cwd path).filter fun name => !isHidden name).map (path ++ slash :: ·)
  else []

/-- The other paths in the start. -/
def hiddenEntries (fs : FileSystem Cwd) (cwd : Cwd) (start : Path) : List Path :=
  ((fs.entries cwd start).filter isHidden).map (start ++ slash :: ·)

/-- The paths of the directories of a tree have no special characters. -/
structure Plain (fs : FileSystem Cwd) (cwd : Cwd) (start : Path) : Prop where
  start_nonempty : start ≠ []
  start_not_root : start ≠ [slash]
  plain : ∀ q, fs.Reached cwd start q → fs.isDir cwd q = true → isPlain q = true

/-- The visible paths and the hidden ones of the start, once for each directory, are as many as
those of the tree. -/
def BalancedByName (fs : FileSystem Cwd) (cwd : Cwd) (n : ℕ) (start : Path) (p : Stat → Bool) :
    Prop :=
  (preorder (visible fs cwd) n start).countP (isOf fs cwd p) +
    (preorder (visible fs cwd) n start).countP (fs.isDir cwd) *
      (hiddenEntries fs cwd start).countP (isOf fs cwd p) =
    (fs.paths cwd n start).countP (isOf fs cwd p)

structure AlikeByName (fs : FileSystem Cwd) (cwd : Cwd) (n : ℕ) (start : Path) : Prop where
  /-- Every directory has a visible entry. -/
  nonempty : ∀ q, Below (visible fs cwd) start q → fs.isDir cwd q = true → visible fs cwd q ≠ []
  /-- There is a hidden name in the start, such as the period. -/
  period : ((fs.opendir cwd start).getD []).any isHidden = true
  /-- There are no directories among the hidden entries of the start. -/
  files : ∀ q ∈ hiddenEntries fs cwd start, fs.isDir cwd q = false
  kinds : ∀ k, BalancedByName fs cwd n start (·.kind = k)
  little : BalancedByName fs cwd n start isLittle

variable {fs : GlobSystem Cwd} {cwd : Cwd} {start path q : Path} {n m depth : ℕ}
  {s s₁ : State Cwd Counters} {junk : Path → ℤ}

theorem Plain.ne (h : Plain fs cwd start) (hq : fs.Reached cwd start q) : q ≠ [] ∧ q ≠ [slash] := by
  obtain ⟨t, rfl, -⟩ := Reached.extends hq
  obtain ⟨c, start, rfl⟩ := List.exists_cons_of_ne_nil h.start_nonempty
  refine ⟨List.cons_ne_nil _ _, fun heq => h.start_not_root ?_⟩
  obtain ⟨rfl, hnil⟩ := List.cons.inj heq
  rw [(List.append_eq_nil_iff.mp hnil).1]

/-- The paths of a directory that a pattern matches by their names. -/
theorem found_perm {ending : Path} {p : Path → Bool} (ht : Tree fs cwd n start)
    (hq : fs.Reached cwd start q) (hdir : fs.isDir cwd q = true)
    (hperm : (fs.glob cwd (q ++ ending)).Perm
      ((((fs.opendir cwd q).getD []).filter p).map (q ++ slash :: ·))) :
    (found fs cwd (q ++ ending)).Perm (((fs.entries cwd q).filter p).map (q ++ slash :: ·)) := by
  refine (hperm.filter _).trans ?_
  have hnames : ∀ name ∈ (fs.opendir cwd q).getD [], slash ∉ name := by
    cases hopen : fs.opendir cwd q with
    | none => exact nofun
    | some names =>
      have hlisting := ht.listing q names hq hdir hopen
      exact fun name hname => (hlisting.characters name hname).1
  rw [List.filter_map, FileSystem.entries, List.filter_comm]
  refine .of_eq (congrArg _ (congrArg _ (List.filter_congr fun name hname => ?_)))
  rw [Function.comp_apply, pathNoloop_append q (hnames name hname)]
  simp

section Matches
variable (hglob : fs.Documented) (h : Plain fs cwd start)
include hglob h

theorem visible_perm (hq : fs.Reached cwd start q) (hdir : fs.isDir cwd q = true) :
    (fs.glob cwd (q ++ visibleEnd)).Perm
      ((((fs.opendir cwd q).getD []).filter fun name => !isHidden name).map (q ++ slash :: ·)) :=
  hglob.visible cwd q (h.plain q hq hdir) (h.ne hq).1 (h.ne hq).2

theorem hiddenEnd_perm (hdir : fs.isDir cwd start = true) :
    (fs.glob cwd (start ++ hiddenEnd)).Perm
      ((((fs.opendir cwd start).getD []).filter isHidden).map (start ++ slash :: ·)) :=
  hglob.hidden cwd start (h.plain start .refl hdir) (h.ne .refl).1 (h.ne .refl).2

theorem matched_perm (ht : Tree fs cwd n start) (hq : fs.Reached cwd start q) :
    (matched fs cwd q).Perm (visible fs cwd q) := by
  rw [matched, visible]
  cases hdir : fs.isDir cwd q with
  | false => exact .nil
  | true => exact found_perm ht hq hdir (visible_perm hglob h hq hdir)

theorem hidden_perm (ht : Tree fs cwd n start) (hdir : fs.isDir cwd start = true) :
    (hidden fs cwd start).Perm (hiddenEntries fs cwd start) :=
  found_perm ht .refl hdir (hiddenEnd_perm hglob h hdir)

end Matches

theorem visible_subset {fs : FileSystem Cwd} (q : Path) :
    visible fs cwd q ⊆ fs.children cwd q := by
  rw [visible, FileSystem.children]
  cases fs.isDir cwd q with
  | false => exact List.Subset.refl _
  | true => exact List.map_subset _ (List.filter_subset_self _)

theorem Reached.of_visible (h : Below (visible fs cwd) start q) : fs.Reached cwd start q :=
  h.lift id fun path _ hc => visible_subset path hc

theorem below_matched_iff (hglob : fs.Documented) (h : Plain fs cwd start)
    (ht : Tree fs cwd n start) :
    Below (matched fs cwd) start q ↔ Below (visible fs cwd) start q := by
  constructor
  · intro hq
    induction hq with
    | refl => exact .refl
    | tail _ hz ih => exact ih.tail ((matched_perm hglob h ht (Reached.of_visible ih)).subset hz)
  · intro hq
    induction hq with
    | refl => exact .refl
    | tail hb hz ih =>
      exact ih.tail ((matched_perm hglob h ht (Reached.of_visible hb)).symm.subset hz)

/-- All paths that the walk comes to are paths of the tree. -/
theorem Reached.of_listed (hglob : fs.Documented) (h : Plain fs cwd start)
    (ht : Tree fs cwd n start) (hdir : fs.isDir cwd start = true)
    (hq : Below (listed fs cwd start) start q) :
    fs.Reached cwd start q := by
  have hhidden : ∀ q ∈ hidden fs cwd start, fs.Reached cwd start q := by
    intro q hq
    obtain ⟨name, hname, rfl⟩ := List.mem_map.mp ((hidden_perm hglob h ht hdir).subset hq)
    refine .single ?_
    rw [FileSystem.children, if_pos hdir]
    exact List.mem_map_of_mem (List.mem_of_mem_filter hname)
  rw [listed_eq] at hq
  induction hq with
  | refl => exact .refl
  | tail _ hz ih =>
    rcases List.mem_append.mp hz with hz | hz
    · exact ih.tail (visible_subset _ ((matched_perm hglob h ht ih).subset hz))
    · exact hhidden _ (List.mem_ite_nil_right.mp hz).2

/-- The paths of a tree are strings that `fullpath` of either version has room for. -/
theorem Tree.fits (ht : Tree fs cwd n start) (hstart : StartPath fs cwd start)
    (hq : fs.Reached cwd start q) : 0 ∉ q ∧ q.length < Myfind.pathSize := by
  induction hq with
  | refl => exact ⟨hstart.nonzero, hstart.fits⟩
  | tail hb hz ih =>
    obtain ⟨names, name, -, -, hlisting, hname, rfl⟩ := ht.child_cases hb hz
    have hmem := List.mem_of_mem_filter hname
    refine ⟨?_, hlisting.fits name hmem⟩
    simp only [List.mem_append, List.mem_cons, not_or]
    exact ⟨ih.1, by decide, (hlisting.characters name hmem).2⟩

theorem Plain.fits (h : Plain fs cwd start) (hglob : fs.Documented)
    (ht : Tree fs cwd n start) (hstart : StartPath fs cwd start) : Fits fs cwd start := by
  have hsize : Myfind.pathSize + 2 < pathSize := by decide
  have hfits (q : Path) (hq : Below (listed fs cwd start) start q) :=
    Tree.fits ht hstart (Reached.of_listed hglob h ht hstart.isDir hq)
  have hlen := hstart.fits
  refine ⟨by omega, fun q hq => (hfits q hq).1, fun q hq => ?_⟩
  have hlen := (hfits q hq).2
  omega

/-! ### The conditions by names -/

theorem ne_nil_iff_of_perm {α : Type} {l l' : List α} (h : l.Perm l') : l ≠ [] ↔ l' ≠ [] := by
  rw [← List.length_pos_iff, ← List.length_pos_iff, h.length_eq]

/-- The period and the double period are hidden names. -/
theorem visible_eq (hdir : fs.isDir cwd q = true) : visible fs cwd q =
    (((fs.opendir cwd q).getD []).filter fun name => !isHidden name).map
      (q ++ slash :: ·) := by
  rw [visible, if_pos hdir, FileSystem.entries, List.filter_filter]
  congr 1
  apply List.filter_congr
  intro name _
  cases hname : isHidden name with
  | true => rfl
  | false =>
    have hentry : isEntry name = true := by
      apply decide_eq_true
      constructor <;> rintro rfl <;> cases hname
    rw [hentry]
    rfl

theorem visible_match_iff (hglob : fs.Documented) (h : Plain fs cwd start)
    (hq : fs.Reached cwd start q)
    (hdir : fs.isDir cwd q = true) :
    fs.glob cwd (q ++ visibleEnd) ≠ [] ↔ visible fs cwd q ≠ [] := by
  have hperm := visible_perm hglob h hq hdir
  rw [← visible_eq hdir] at hperm
  exact ne_nil_iff_of_perm hperm

theorem hidden_match_iff (hglob : fs.Documented) (h : Plain fs cwd start)
    (hdir : fs.isDir cwd start = true) :
    fs.glob cwd (start ++ hiddenEnd) ≠ [] ↔
      ((fs.opendir cwd start).getD []).any isHidden = true := by
  have hne := ne_nil_iff_of_perm (hiddenEnd_perm hglob h hdir)
  rw [Ne, Ne, List.map_eq_nil_iff, List.filter_eq_nil_iff] at hne
  rw [List.any_eq_true]
  push Not at hne
  exact hne

theorem balanced_iff (hglob : fs.Documented) (h : Plain fs cwd start) (ht : Tree fs cwd n start)
    (hdir : fs.isDir cwd start = true) (hdepth : DepthLt (visible fs cwd) m start)
    (p : Stat → Bool) :
    Balanced fs cwd n m start p ↔ BalancedByName fs cwd n start p := by
  have hperm : (preorder (matched fs cwd) m start).Perm (preorder (visible fs cwd) m start) :=
    preorder_perm fun y hy => matched_perm hglob h ht (Reached.of_visible hy)
  have hvisible : preorder (visible fs cwd) m start = preorder (visible fs cwd) n start := by
    have hn : DepthLt (visible fs cwd) n start := ht.depth.mono fun q _ => visible_subset q
    rcases Nat.le_total m n with hle | hle
    · exact (hdepth.preorder_eq hle).symm
    · exact hn.preorder_eq hle
  rw [Balanced, BalancedByName, hperm.countP_eq, hperm.countP_eq, hvisible,
    (hidden_perm hglob h ht hdir).countP_eq]

theorem alike_iff (hglob : fs.Documented) (h : Plain fs cwd start) (ht : Tree fs cwd n start)
    (hdir : fs.isDir cwd start = true) :
    (∃ m, Alike fs cwd n m start) ↔ AlikeByName fs cwd n start := by
  have hmatched (q : Path) (hq : Below (visible fs cwd) start q) :=
    matched_perm hglob h ht (Reached.of_visible hq)
  have hvisible : DepthLt (visible fs cwd) n start := ht.depth.mono fun q _ => visible_subset q
  constructor
  · rintro ⟨m, halike⟩
    have hdepth : DepthLt (visible fs cwd) m start :=
      halike.depth.mono fun q hq => (hmatched q ((below_matched_iff hglob h ht).mp hq)).symm.subset
    refine ⟨fun q hq hqdir => ?_, (hidden_match_iff hglob h hdir).mp halike.hidden_match,
      fun q hq => ?_,
      fun k => (balanced_iff hglob h ht hdir hdepth _).mp (halike.kinds k),
      (balanced_iff hglob h ht hdir hdepth _).mp halike.little⟩
    · exact (visible_match_iff hglob h (Reached.of_visible hq) hqdir).mp
        (halike.visible_match q ((below_matched_iff hglob h ht).mpr hq) hqdir)
    · exact halike.files q ((hidden_perm hglob h ht hdir).mem_iff.mpr hq)
  · intro halike
    refine ⟨n, hvisible.mono fun q hq => (hmatched q hq).subset, fun q hq hqdir => ?_,
      (hidden_match_iff hglob h hdir).mpr halike.period, fun q hq => ?_,
      fun k => (balanced_iff hglob h ht hdir hvisible _).mpr (halike.kinds k),
      (balanced_iff hglob h ht hdir hvisible _).mpr halike.little⟩
    · have hq' := (below_matched_iff hglob h ht).mp hq
      exact (visible_match_iff hglob h (Reached.of_visible hq') hqdir).mpr
        (halike.nonempty q hq' hqdir)
    · exact halike.files q ((hidden_perm hglob h ht hdir).mem_iff.mp hq)

/-- The two versions agree if and only if the tree looks the same to both. In a tree without special
characters this means that every directory that is come to has a visible entry, that none of the
hidden entries of the start is a directory, and that of each kind the hidden entries of the start,
taken once for each directory, are as many as the paths that no visible name leads to. -/
theorem agree_iff (junk : Path → ℤ) (hglob : fs.Documented)
    (hstart : StartPath fs s.cwd start) (ht : Tree fs s.cwd n start) (hfits : Fits fs s.cwd start)
    (hsize : s.fullpath.length = pathSize) (h0 : s.out.globals = ⟨0, 0, 0, 0, 0, 0, 0, 0⟩)
    (hdepth : n ≤ depth) (hcwd : s₁.cwd = s.cwd) (hsize₁ : s₁.fullpath.length = Myfind.pathSize)
    (h0₁ : s₁.out.globals = ⟨0, 0, 0, 0, 0, 0, 0, 0⟩) :
    (Agree fs junk depth start s s₁ ↔ ∃ m, Alike fs s.cwd n m start) ∧
    (Plain fs s.cwd start → (Agree fs junk depth start s s₁ ↔ AlikeByName fs s.cwd n start)) := by
  have hiff := agree_iff_alike junk hglob hstart ht hfits hsize h0 hdepth hcwd hsize₁ h0₁
  exact ⟨hiff, fun hplain => hiff.trans (alike_iff hglob hplain ht hstart.isDir)⟩

/-! ### Two runs -/

/-- The paths in a directory whose names satisfy `p`, in order. -/
def pathsOf (fs : FileSystem Cwd) (cwd : Cwd) (path : Path) (p : Path → Bool) : List Path :=
  ((((fs.opendir cwd path).getD []).filter p).map (path ++ slash :: ·)).insertionSort (· ≤ ·)

/-- What `glob` gives for the two patterns of a directory without special characters. -/
def withGlob (fs : FileSystem Cwd) : GlobSystem Cwd where
  toFileSystem := fs
  glob cwd pattern :=
    if hiddenEnd <:+ pattern then pathsOf fs cwd (pattern.take (pattern.length - 3)) isHidden
    else if visibleEnd <:+ pattern then
      pathsOf fs cwd (pattern.take (pattern.length - 2)) fun name => !isHidden name
    else []

theorem withGlob_hidden (fs : FileSystem Cwd) (cwd : Cwd) (path : Path) :
    (withGlob fs).glob cwd (path ++ hiddenEnd) = pathsOf fs cwd path isHidden := by
  have hlen : (path ++ hiddenEnd).length - 3 = path.length := by
    rw [List.length_append]
    rfl
  rw [withGlob]
  simp only [hlen, List.take_left]
  exact if_pos (List.suffix_append path hiddenEnd)

theorem withGlob_visible (fs : FileSystem Cwd) (cwd : Cwd) (path : Path) :
    (withGlob fs).glob cwd (path ++ visibleEnd) =
      pathsOf fs cwd path fun name => !isHidden name := by
  have hlen : (path ++ visibleEnd).length - 2 = path.length := by
    rw [List.length_append]
    rfl
  have hend : ¬ hiddenEnd <:+ path ++ visibleEnd := by
    rintro ⟨t, ht⟩
    have hlast : (t ++ [47]) ++ [46, 42] = path ++ [47, 42] := by
      rw [List.append_assoc]
      exact ht
    exact absurd (List.append_inj_right' hlast rfl) (by decide)
  rw [withGlob]
  simp only [hlen, List.take_left, if_neg hend]
  exact if_pos (List.suffix_append path visibleEnd)

theorem slash_mem_pathsOf {fs : FileSystem Cwd} {p : Path → Bool} (h : q ∈ pathsOf fs cwd path p) :
    slash ∈ q := by
  rw [pathsOf, List.mem_insertionSort] at h
  obtain ⟨name, -, rfl⟩ := List.mem_map.mp h
  exact List.mem_append_right path List.mem_cons_self

theorem withGlob_documented (fs : FileSystem Cwd) : (withGlob fs).Documented where
  slash_mem cwd path ending hend q hq := by
    rcases hend with rfl | rfl
    · rw [withGlob_visible] at hq
      exact slash_mem_pathsOf hq
    · rw [withGlob_hidden] at hq
      exact slash_mem_pathsOf hq
  visible cwd path _ _ _ := by
    rw [withGlob_visible]
    exact List.perm_insertionSort _ _
  hidden cwd path _ _ _ := by
    rw [withGlob_hidden]
    exact List.perm_insertionSort _ _

/-- A directory `/d` with a file `.h` and a directory `e`, in which there are a file `.k` and a
symbolic link `y`. -/
def oneHidden : FileSystem Unit where
  lstat _ path :=
    if path = [47, 100] ∨ path = [47, 100, 47, 101] then some ⟨.dir, 4096⟩
    else if path = [47, 100, 47, 46, 104] ∨ path = [47, 100, 47, 101, 47, 46, 107] then
      some ⟨.reg, 10⟩
    else if path = [47, 100, 47, 101, 47, 121] then some ⟨.lnk, 5⟩
    else none
  opendir _ path :=
    if path = [47, 100] then some [[46], [46, 46], [46, 104], [101]]
    else if path = [47, 100, 47, 101] then some [[46, 107], [46], [121], [46, 46]]
    else none
  chdir _ _ := none
  getcwd _ := [47]

/-- The two states before the walks. -/
def globStart : State Unit Counters := ⟨List.replicate 1024 0, (), [], 0, 0, 0, 0, 0, 0, 0, 0⟩
def readdirStart : State Unit Counters := ⟨List.replicate 255 0, (), [], 0, 0, 0, 0, 0, 0, 0, 0⟩

theorem globStart_size : globStart.fullpath.length = pathSize := List.length_replicate

theorem readdirStart_size : readdirStart.fullpath.length = Myfind.pathSize :=
  List.length_replicate

theorem oneHidden_tree : StartPath oneHidden () [47, 100] ∧ Tree oneHidden () 3 [47, 100] ∧
    Plain oneHidden () [47, 100] := by
  have hdepth : DepthLt (oneHidden.children ()) 3 [47, 100] := by decide
  refine ⟨⟨by decide, by decide, by decide⟩, ⟨hdepth, fun path names _ _ hopen => ?_⟩,
    ⟨by decide, by decide, hdepth.forall_below (by decide)⟩⟩
  simp only [oneHidden] at hopen
  split_ifs at hopen with h h'
  · subst h
    cases hopen
    exact ⟨by decide, by decide, by decide, by decide⟩
  · subst h'
    cases hopen
    exact ⟨by decide, by decide, by decide, by decide⟩

/-- The walk comes to `.h` twice and not to `.k`. -/
theorem agree_iff_oneHidden :
    Agree (withGlob oneHidden) (fun _ => 0) 3 [47, 100] globStart readdirStart := by
  obtain ⟨hstart, ht, hplain⟩ := oneHidden_tree
  have hglob := withGlob_documented oneHidden
  have hvisible : DepthLt (visible oneHidden ()) 3 [47, 100] :=
    ht.depth.mono fun q _ => visible_subset q
  have hiff : (Agree (withGlob oneHidden) (fun _ => 0) 3 [47, 100] globStart readdirStart ↔
      ∃ m, Alike (withGlob oneHidden) () 3 m [47, 100]) ∧ (Plain oneHidden () [47, 100] →
        (Agree (withGlob oneHidden) (fun _ => 0) 3 [47, 100] globStart readdirStart ↔
          AlikeByName oneHidden () 3 [47, 100])) :=
    agree_iff (fun _ => 0) hglob hstart ht (hplain.fits hglob ht hstart) globStart_size rfl
      (le_refl 3) rfl readdirStart_size rfl
  refine (hiff.2 hplain).mpr ⟨hvisible.forall_below (by decide), by decide, by decide, fun k => ?_,
    ?_⟩
  · unfold BalancedByName
    cases k <;> decide
  · unfold BalancedByName
    decide

/-- A directory `/d` without entries. -/
def noEntries : FileSystem Unit where
  lstat _ path := if path = [47, 100] then some ⟨.dir, 4096⟩ else none
  opendir _ path := if path = [47, 100] then some [[46], [46, 46]] else none
  chdir _ _ := none
  getcwd _ := [47]

/-- There is no match for the visible pattern, and the program exits. -/
theorem noEntries_not_agree :
    (StartPath noEntries () [47, 100] ∧ Tree noEntries () 1 [47, 100]) ∧
    ¬ Agree (withGlob noEntries) (fun _ => 0) 1 [47, 100] globStart readdirStart := by
  have hstart : StartPath noEntries () [47, 100] := ⟨by decide, by decide, by decide⟩
  have ht : Tree noEntries () 1 [47, 100] := by
    refine ⟨by decide, fun path names _ _ hopen => ?_⟩
    obtain ⟨rfl, heq⟩ := Option.ite_none_right_eq_some.mp hopen
    cases heq
    exact ⟨by decide, by decide, by decide, by decide⟩
  have hglob := withGlob_documented noEntries
  have hplain : Plain noEntries () [47, 100] :=
    ⟨by decide, by decide, ht.depth.forall_below (by decide)⟩
  refine ⟨⟨hstart, ht⟩, fun h => ?_⟩
  have hiff : Agree (withGlob noEntries) (fun _ => 0) 1 [47, 100] globStart readdirStart ↔
      ∃ m, Alike (withGlob noEntries) () 1 m [47, 100] :=
    agree_iff_alike (fun _ => 0) hglob hstart ht (hplain.fits hglob ht hstart) globStart_size rfl
      (le_refl 1) rfl readdirStart_size rfl
  obtain ⟨m, halike⟩ := hiff.mp h
  exact halike.visible_match [47, 100] .refl (by decide) (by decide)

end Coursework.Unix.MyfindGlob
