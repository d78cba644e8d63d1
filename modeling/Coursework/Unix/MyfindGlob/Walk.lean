import Coursework.Unix.MyfindGlob
import Coursework.Unix.Myfind.Statistics

/-!
# The walk over matching paths

A call for a directory goes on to the paths that match its visible pattern and then to those that
match the hidden pattern of the start, whatever the directory is. The walk comes to its end exactly
if no two many of these paths follow each other and every pattern has a match.
-/
namespace Coursework.Unix.MyfindGlob
open CString Myfind

variable {Cwd : Type}

/-- The matches that the loop does not skip. -/
def found (fs : GlobSystem Cwd) (cwd : Cwd) (pattern : Path) : List Path :=
  (fs.glob cwd pattern).filter fun path => pathNoloop path = some true

/-- The paths that the call for a path goes on to. -/
def listed (fs : GlobSystem Cwd) (cwd : Cwd) (start path : Path) : List Path :=
  if fs.isDir cwd path then
    found fs cwd (path ++ visibleEnd) ++ found fs cwd (start ++ hiddenEnd)
  else []

/-- At each directory that the walk comes to, both patterns have a match. -/
def Matching (fs : GlobSystem Cwd) (cwd : Cwd) (start path : Path) : Prop :=
  ∀ q, Below (listed fs cwd start) path q → fs.isDir cwd q = true →
    fs.glob cwd (q ++ visibleEnd) ≠ [] ∧ fs.glob cwd (start ++ hiddenEnd) ≠ []

/-- The paths that the walk comes to are strings that `fullpath` has room for, with the pattern. -/
structure Fits (fs : GlobSystem Cwd) (cwd : Cwd) (start : Path) : Prop where
  start_fits : start.length + 3 < pathSize
  nonzero : ∀ q, Below (listed fs cwd start) start q → 0 ∉ q
  fits : ∀ q, Below (listed fs cwd start) start q → q.length + 2 < pathSize

/-- What `myfunc` does in the call for a path. -/
def tally (fs : GlobSystem Cwd) (cwd : Cwd) (c : Counters) (path : Path) : Counters :=
  match fs.lstat cwd path with
  | none => c
  | some st => if st.kind ≠ .dir then c.ofFile st else { c with ndir := c.ndir + 1 }

/-- The calls for these paths have been made. -/
structure After (fs : GlobSystem Cwd) (cwd : Cwd) (paths : List Path) (s s' : State Cwd Counters) :
    Prop where
  stays : s'.cwd = cwd
  size : s'.fullpath.length = pathSize
  globals : s'.out.globals = paths.foldl (tally fs cwd) s.out.globals

variable {fs : GlobSystem Cwd} {cwd : Cwd} {start path q : Path} {n depth : ℕ} {paths : List Path}
  {s s' : State Cwd Counters}

/-- The call returns zero if and only if the condition holds, after the calls for these paths. -/
structure Returns (fs : GlobSystem Cwd) (cwd : Cwd) (paths : List Path) (ends : Prop)
    (s : State Cwd Counters) (result : Option (ℤ × State Cwd Counters)) : Prop where
  isSome : result.isSome ↔ ends
  after : ∀ r s', result = some (r, s') → r = 0 ∧ After fs cwd paths s s'

theorem pathNoloop_isSome (h : slash ∈ path) : ∃ noloop, pathNoloop path = some noloop := by
  obtain ⟨pos, hpos⟩ := Option.isSome_iff_exists.mp (isSome_strrchr h)
  exact ⟨isEntry pos.tail, by rw [pathNoloop, hpos, Option.map_some]⟩

/-! ### The loop -/

theorem After.trans {s₁ : State Cwd Counters} {later : List Path} (h : After fs cwd paths s s₁)
    (hlater : After fs cwd later s₁ s') : After fs cwd (paths ++ later) s s' := by
  refine ⟨hlater.stays, hlater.size, ?_⟩
  rw [hlater.globals, h.globals, List.foldl_append]

theorem globLoop_skip (visit : State Cwd Counters → Option (ℤ × State Cwd Counters))
    (h : pathNoloop q = some false) :
    globLoop visit (q :: paths) s = globLoop visit paths s := by
  rw [globLoop, h]
  rfl

/-- The shared array holds the path at the call for it, and the loop goes on after the call. -/
theorem globLoop_visit (visit : State Cwd Counters → Option (ℤ × State Cwd Counters))
    (paths : List Path) (h : pathNoloop q = some true) (h0 : 0 ∉ q) (hfits : q.length < pathSize)
    (hsize : s.fullpath.length = pathSize) :
    ∃ b : Path, Holds b q ∧ b.length = pathSize ∧ globLoop visit (q :: paths) s =
      (visit { s with fullpath := b }).bind fun result => globLoop visit paths result.2 := by
  obtain ⟨b, hb, hholds, hlen⟩ := strcpy_holds (p := []) (List.nil_prefix (l := s.fullpath)) h0
    (hsize ▸ hfits)
  have hb' : strcpy s.fullpath 0 q = some b := hb
  refine ⟨b, hholds, hlen.trans hsize, ?_⟩
  rw [globLoop, h, Option.bind_eq_bind, Option.bind_some, if_pos rfl, hb', Option.bind_eq_bind,
    Option.bind_some]
  rfl

theorem globLoop_returns (visit : State Cwd Counters → Option (ℤ × State Cwd Counters))
    (nodes : Path → List Path) (ends : Path → Prop)
    (hslash : ∀ q ∈ paths, slash ∈ q)
    (hpaths : ∀ q ∈ paths.filter fun path => pathNoloop path = some true,
      0 ∉ q ∧ q.length < pathSize ∧ ∀ s, s.cwd = cwd → s.fullpath.length = pathSize →
        Holds s.fullpath q → Returns fs cwd (nodes q) (ends q) s (visit s))
    (hcwd : s.cwd = cwd) (hsize : s.fullpath.length = pathSize) :
    ((globLoop visit paths s).isSome ↔
      ∀ q ∈ paths.filter fun path => pathNoloop path = some true, ends q) ∧
    ∀ s', globLoop visit paths s = some s' →
      After fs cwd ((paths.filter fun path => pathNoloop path = some true).flatMap nodes) s s' := by
  induction paths generalizing s with
  | nil =>
    refine ⟨iff_of_true rfl nofun, ?_⟩
    rintro s' heq
    obtain rfl := Option.some.inj heq
    exact ⟨hcwd, hsize, rfl⟩
  | cons q paths ih =>
    obtain ⟨noloop, hnoloop⟩ := pathNoloop_isSome (hslash q List.mem_cons_self)
    have htail := fun s => ih (s := s) fun q hq => hslash q (List.mem_cons_of_mem _ hq)
    cases noloop with
    | false =>
      rw [List.filter_cons_of_neg (by simp [hnoloop])] at hpaths ⊢
      rw [globLoop_skip visit hnoloop]
      exact htail s hpaths hcwd hsize
    | true =>
      rw [List.filter_cons_of_pos (by simp [hnoloop])] at hpaths ⊢
      obtain ⟨h0, hfits, hvisit⟩ := hpaths q List.mem_cons_self
      obtain ⟨b, hholds, hlen, hloop⟩ := globLoop_visit visit paths hnoloop h0 hfits hsize
      have hcall := hvisit { s with fullpath := b } hcwd hlen hholds
      rw [hloop]
      cases hresult : visit { s with fullpath := b } with
      | none =>
        have hends : ¬ ends q := fun h => by
          have hsome := hcall.isSome.mpr h
          rw [hresult] at hsome
          cases hsome
        exact ⟨iff_of_false nofun fun h => hends (h q List.mem_cons_self), nofun⟩
      | some result =>
        obtain ⟨r, s₁⟩ := result
        have hends : ends q := hcall.isSome.mp (by rw [hresult]; rfl)
        obtain ⟨-, hafter⟩ := hcall.after r s₁ hresult
        obtain ⟨hsome, hrest⟩ := htail s₁ (fun q hq => hpaths q (List.mem_cons_of_mem _ hq))
          hafter.stays hafter.size
        rw [Option.bind_some, hsome, List.forall_mem_cons, List.flatMap_cons]
        refine ⟨(and_iff_right hends).symm, fun s' hs' => ?_⟩
        have hcalled : After fs cwd (nodes q) s s₁ := ⟨hafter.stays, hafter.size, hafter.globals⟩
        exact hcalled.trans (hrest s' hs')

/-! ### The recursion -/

theorem listed_of_not_dir (h : fs.isDir cwd path = false) : listed fs cwd start path = [] := by
  rw [listed, h]
  rfl

theorem listed_of_dir (start : Path) (h : fs.isDir cwd path = true) :
    listed fs cwd start path =
      (fs.glob cwd (path ++ visibleEnd) ++ fs.glob cwd (start ++ hiddenEnd)).filter fun q =>
        pathNoloop q = some true := by
  rw [listed, h, if_pos rfl, found, found, List.filter_append]

theorem matching_of_not_dir (h : fs.isDir cwd path = false) : Matching fs cwd start path := by
  intro q hq hdir
  rcases Relation.ReflTransGen.cases_head hq with rfl | ⟨q', hq', -⟩
  · rw [h] at hdir
    cases hdir
  · rw [listed_of_not_dir h] at hq'
    cases hq'

theorem matching_of_dir (h : fs.isDir cwd path = true) :
    Matching fs cwd start path ↔ (fs.glob cwd (path ++ visibleEnd) ≠ [] ∧
      fs.glob cwd (start ++ hiddenEnd) ≠ []) ∧
        ∀ q ∈ listed fs cwd start path, Matching fs cwd start q := by
  constructor
  · exact fun hm => ⟨hm path .refl h, fun q hq q' hq' => hm q' (.head hq hq')⟩
  · rintro ⟨hhere, hbelow⟩ q hq hdir
    rcases Relation.ReflTransGen.cases_head hq with rfl | ⟨q', hq', hq⟩
    · exact hhere
    · exact hbelow q' hq' q hq hdir

theorem leaf_returns (hdir : fs.isDir cwd path = false) (hcwd : s.cwd = cwd)
    (hsize : s.fullpath.length = pathSize) {c : Counters}
    (hc : c = tally fs cwd s.out.globals path) :
    Returns fs cwd (preorder (listed fs cwd start) (depth + 1) path)
      (DepthLt (listed fs cwd start) (depth + 1) path ∧ Matching fs cwd start path) s
      (some (0, s.count c)) where
  isSome := by
    refine iff_of_true rfl ⟨fun q hq => ?_, matching_of_not_dir hdir⟩
    rw [listed_of_not_dir hdir] at hq
    cases hq
  after r s' heq := by
    obtain ⟨rfl, rfl⟩ := Prod.mk.inj (Option.some.inj heq)
    refine ⟨rfl, hcwd, hsize, ?_⟩
    rw [preorder, listed_of_not_dir hdir, hc]
    rfl

/-- The shared array holds a path when the pattern of its visible names has been matched. -/
theorem pattern_holds {b : Path} (hholds : Holds b path) (hsize : b.length = pathSize)
    (ending : Path) (hend : 0 ∉ ending) (hfits : path.length + ending.length < pathSize) :
    ∃ b', strcat b ending = some b' ∧ Holds b' (path ++ ending) ∧ b'.length = pathSize := by
  have h0 : 0 ∉ path ++ ending := by
    rw [List.mem_append, not_or]
    exact ⟨hholds.nonzero, hend⟩
  obtain ⟨b', hb', hholds', hlen⟩ := strcat_holds hholds h0 (by
    rw [List.length_append, hsize]
    exact hfits)
  exact ⟨b', hb', hholds', hlen.trans hsize⟩

/-- The call for a directory: two patterns are matched, and the loop goes over the matches. -/
theorem dopath_dir (depth : ℕ) {st : Stat} (hst : fs.lstat cwd path = some st)
    (hkind : st.kind = .dir) (hstart : 0 ∉ start) (hstartfits : start.length + 3 < pathSize)
    (hfits : path.length + 2 < pathSize) (hcwd : s.cwd = cwd)
    (hsize : s.fullpath.length = pathSize) (hholds : Holds s.fullpath path) :
    ∃ s₁, After fs cwd [path] s s₁ ∧ dopath fs start myfunc (depth + 1) s =
      if fs.glob cwd (path ++ visibleEnd) = [] then none
      else if fs.glob cwd (start ++ hiddenEnd) = [] then none
      else (globLoop (dopath fs start myfunc depth)
        (fs.glob cwd (path ++ visibleEnd) ++ fs.glob cwd (start ++ hiddenEnd)) s₁).map (0, ·) := by
  obtain ⟨b₁, hb₁, hholds₁, hlen₁⟩ :=
    pattern_holds hholds hsize visibleEnd (by decide) hfits
  obtain ⟨b₂, hb₂, hholds₂, hlen₂⟩ :=
    strncpy_holds (b := b₁) (n := pathSize) hstart (by omega) hlen₁.ge
  obtain ⟨b₃, hb₃, hholds₃, hlen₃⟩ :=
    pattern_holds hholds₂ (hlen₂.trans hlen₁) hiddenEnd (by decide) hstartfits
  obtain ⟨s₀, hs₀⟩ : ∃ s₀, s₀ = s.count { s.out.globals with ndir := s.out.globals.ndir + 1 } :=
    ⟨_, rfl⟩
  have hfunc : myfunc s (some st) .d = some (0, s₀) := hs₀ ▸ rfl
  have hbuf : s₀.fullpath = s.fullpath := hs₀ ▸ rfl
  have hcwd₀ : s₀.cwd = cwd := hs₀ ▸ hcwd
  refine ⟨{ s₀ with fullpath := b₃ }, ⟨hcwd₀, hlen₃, ?_⟩, ?_⟩
  · rw [List.foldl_cons, List.foldl_nil, tally, hst, hs₀]
    exact (if_neg (not_not_intro hkind)).symm
  · rw [dopath, hcwd, hholds.text_eq, hst]
    simp only [ne_eq, hkind, not_true_eq_false, ↓reduceIte]
    simp only [hfunc, Option.bind_eq_bind, Option.bind_some, not_true_eq_false, ↓reduceIte, hbuf,
      hb₁, hcwd₀, hholds₁.text_eq]
    apply if_congr Iff.rfl rfl
    simp only [hb₂, Option.bind_some, hb₃, hholds₃.text_eq]
    apply if_congr Iff.rfl rfl
    exact Option.map_eq_bind.symm

theorem isDir_of_kind {st : Stat} (hst : fs.lstat cwd path = some st) (hkind : st.kind = .dir) :
    fs.isDir cwd path = true := by
  rw [isDir_of_lstat hst]
  exact decide_eq_true hkind

theorem dir_returns (hglob : fs.Documented) {st : Stat} (hst : fs.lstat cwd path = some st)
    (hkind : st.kind = .dir)
    (hfits : Fits fs cwd start) (hstart : 0 ∉ start)
    (hpath : Below (listed fs cwd start) start path) (hcwd : s.cwd = cwd)
    (hsize : s.fullpath.length = pathSize) (hholds : Holds s.fullpath path)
    (ih : ∀ q, Below (listed fs cwd start) start q → ∀ s : State Cwd Counters, s.cwd = cwd →
      s.fullpath.length = pathSize → Holds s.fullpath q →
      Returns fs cwd (preorder (listed fs cwd start) depth q)
        (DepthLt (listed fs cwd start) depth q ∧ Matching fs cwd start q) s
        (dopath fs start myfunc depth s)) :
    Returns fs cwd (preorder (listed fs cwd start) (depth + 1) path)
      (DepthLt (listed fs cwd start) (depth + 1) path ∧ Matching fs cwd start path) s
      (dopath fs start myfunc (depth + 1) s) := by
  have hdir := isDir_of_kind hst hkind
  have hlisted := listed_of_dir start hdir
  obtain ⟨s₁, hafter, hcall⟩ := dopath_dir depth hst hkind hstart hfits.start_fits
    (hfits.fits path hpath) hcwd hsize hholds
  rw [hcall]
  by_cases hvisible : fs.glob cwd (path ++ visibleEnd) = []
  · rw [if_pos hvisible]
    exact ⟨iff_of_false nofun fun h => ((matching_of_dir hdir).mp h.2).1.1 hvisible, nofun⟩
  by_cases hhidden : fs.glob cwd (start ++ hiddenEnd) = []
  · rw [if_neg hvisible, if_pos hhidden]
    exact ⟨iff_of_false nofun fun h => ((matching_of_dir hdir).mp h.2).1.2 hhidden, nofun⟩
  rw [if_neg hvisible, if_neg hhidden]
  have hslash : ∀ q ∈ fs.glob cwd (path ++ visibleEnd) ++ fs.glob cwd (start ++ hiddenEnd),
      slash ∈ q := fun q hq => (List.mem_append.mp hq).elim
    (hglob.slash_mem cwd path visibleEnd (.inl rfl) q)
    (hglob.slash_mem cwd start hiddenEnd (.inr rfl) q)
  obtain ⟨hsome, hloop⟩ := globLoop_returns (dopath fs start myfunc depth)
    (preorder (listed fs cwd start) depth)
    (fun q => DepthLt (listed fs cwd start) depth q ∧ Matching fs cwd start q) hslash
    (fun q hq => by
      rw [← hlisted] at hq
      have hq' : Below (listed fs cwd start) start q := .tail hpath hq
      have hlen := hfits.fits q hq'
      exact ⟨hfits.nonzero q hq', by omega, ih q hq'⟩)
    hafter.stays hafter.size
  rw [← hlisted] at hsome hloop
  refine ⟨?_, fun r s' heq => ?_⟩
  · rw [Option.isSome_map, hsome, matching_of_dir hdir]
    change (∀ q ∈ listed fs cwd start path, DepthLt (listed fs cwd start) depth q ∧ _) ↔
      (∀ q ∈ listed fs cwd start path, DepthLt (listed fs cwd start) depth q) ∧ _
    exact ⟨fun h => ⟨fun q hq => (h q hq).1, ⟨hvisible, hhidden⟩, fun q hq => (h q hq).2⟩,
      fun h q hq => ⟨h.1 q hq, h.2.2 q hq⟩⟩
  · obtain ⟨s₂, hs₂, heq⟩ := Option.map_eq_some_iff.mp heq
    obtain ⟨rfl, rfl⟩ := Prod.mk.inj heq
    exact ⟨rfl, hafter.trans (hloop s₂ hs₂)⟩

/-- Every call of `dopath` in the walk. -/
theorem dopath_returns (hglob : fs.Documented) (depth : ℕ) (hfits : Fits fs cwd start)
    (hstart : 0 ∉ start)
    (hpath : Below (listed fs cwd start) start path) (hcwd : s.cwd = cwd)
    (hsize : s.fullpath.length = pathSize) (hholds : Holds s.fullpath path) :
    Returns fs cwd (preorder (listed fs cwd start) depth path)
      (DepthLt (listed fs cwd start) depth path ∧ Matching fs cwd start path) s
      (dopath fs start myfunc depth s) := by
  induction depth generalizing path s with
  | zero => exact ⟨iff_of_false nofun fun h => h.1, nofun⟩
  | succ depth ih =>
    cases hst : fs.lstat cwd path with
    | none =>
      have hdir : fs.isDir cwd path = false := by
        rw [FileSystem.isDir, hst]
        rfl
      rw [dopath, hcwd, hholds.text_eq, hst]
      exact leaf_returns hdir hcwd hsize (by rw [tally, hst])
    | some st =>
      by_cases hkind : st.kind = .dir
      · exact dir_returns hglob hst hkind hfits hstart hpath hcwd hsize hholds
          fun q hq s hs hsize hholds => ih hq hs hsize hholds
      · have hdir : fs.isDir cwd path = false := by
          rw [isDir_of_lstat hst]
          exact decide_eq_false hkind
        rw [dopath, hcwd, hholds.text_eq, hst]
        simp only [ne_eq, hkind, not_false_eq_true, ↓reduceIte]
        refine leaf_returns hdir hcwd hsize ?_
        rw [tally, hst]
        exact (if_pos hkind).symm

/-- The walk from `start`. -/
theorem myfind_returns (hglob : fs.Documented) (depth : ℕ) (hfits : Fits fs s.cwd start)
    (hstart : 0 ∉ start)
    (hsize : s.fullpath.length = pathSize) :
    Returns fs s.cwd (preorder (listed fs s.cwd start) depth start)
      (DepthLt (listed fs s.cwd start) depth start ∧ Matching fs s.cwd start start) s
      (myfind fs depth start myfunc s) := by
  have hlen := hfits.start_fits
  obtain ⟨b, hb, hholds, hsize'⟩ := strcpy_holds (p := []) (List.nil_prefix (l := s.fullpath))
    hstart (by rw [List.nil_append, hsize]; omega)
  have hb' : strcpy s.fullpath 0 start = some b := hb
  obtain ⟨hsome, hafter⟩ := dopath_returns hglob depth (s := { s with fullpath := b }) hfits
    hstart .refl rfl (hsize'.trans hsize) hholds
  rw [myfind, hb', Option.bind_eq_bind, Option.bind_some]
  exact ⟨hsome, fun r s' heq => (hafter r s' heq).imp_right fun h => ⟨h.stays, h.size, h.globals⟩⟩

end Coursework.Unix.MyfindGlob
