import Coursework.Lib.Graft
import Coursework.Unix.MyfindGlob.Walk

/-!
# The two versions of `myfind`

The version with patterns goes over the paths that match the visible patterns, and at each directory
also over the hidden names of the start. The counters agree with those of the other version exactly
if these names, so many times, make up for the paths that no visible pattern matches.
-/
namespace Coursework.Unix.MyfindGlob
open CString Myfind

variable {Cwd : Type}

/-- The paths that match the visible pattern of a directory. -/
def matched (fs : GlobSystem Cwd) (cwd : Cwd) (path : Path) : List Path :=
  if fs.isDir cwd path then found fs cwd (path ++ visibleEnd) else []

/-- The paths that match the hidden pattern of the start. -/
abbrev hidden (fs : GlobSystem Cwd) (cwd : Cwd) (start : Path) : List Path :=
  found fs cwd (start ++ hiddenEnd)

def isOf (fs : FileSystem Cwd) (cwd : Cwd) (p : Stat → Bool) (path : Path) : Bool :=
  (fs.lstat cwd path).any p

/-- The paths that match and the hidden ones, once for each directory, are as many as those of the
tree. -/
def Balanced (fs : GlobSystem Cwd) (cwd : Cwd) (n m : ℕ) (start : Path) (p : Stat → Bool) : Prop :=
  (preorder (matched fs cwd) m start).countP (isOf fs cwd p) +
    (preorder (matched fs cwd) m start).countP (fs.isDir cwd) *
      (hidden fs cwd start).countP (isOf fs cwd p) =
    (fs.paths cwd n start).countP (isOf fs cwd p)

/-- The tree looks the same to both versions; `n` is its depth, and `m` that of the matches. -/
structure Alike (fs : GlobSystem Cwd) (cwd : Cwd) (n m : ℕ) (start : Path) : Prop where
  depth : DepthLt (matched fs cwd) m start
  /-- The visible pattern of every directory has a match. -/
  visible_match : ∀ q, Below (matched fs cwd) start q → fs.isDir cwd q = true →
    fs.glob cwd (q ++ visibleEnd) ≠ []
  hidden_match : fs.glob cwd (start ++ hiddenEnd) ≠ []
  /-- There are no directories among the hidden names of the start. -/
  files : ∀ q ∈ hidden fs cwd start, fs.isDir cwd q = false
  kinds : ∀ k, Balanced fs cwd n m start (·.kind = k)
  little : Balanced fs cwd n m start isLittle

/-- The version with patterns comes to its end and leaves the counters of the other version. -/
def Agree (fs : GlobSystem Cwd) (junk : Path → ℤ) (depth : ℕ) (start : Path)
    (s s₁ : State Cwd Counters) : Prop :=
  ∃ d s' s₁', myfind fs d start myfunc s = some (0, s') ∧
    Myfind.myfind fs junk depth start myfunc1 .p s₁ = some (0, s₁') ∧
    s'.out.globals = s₁'.out.globals

variable {fs : GlobSystem Cwd} {cwd : Cwd} {start path q : Path} {n m depth : ℕ}
  {paths : List Path} {s s₁ : State Cwd Counters} {junk : Path → ℤ} {c c' : Counters}

/-! ### The counters -/

theorem counters_ext (hkind : ∀ k, c.value k = c'.value k) (hlittle : c.nlit = c'.nlit) :
    c = c' := by
  obtain ⟨⟩ := c
  obtain ⟨⟩ := c'
  exact Counters.mk.injEq .. ▸ ⟨hkind .reg, hkind .dir, hkind .blk, hkind .chr, hkind .fifo,
    hkind .lnk, hkind .sock, hlittle⟩

theorem value_tally (c : Counters) (k : Kind) (path : Path) :
    (tally fs cwd c path).value k = c.value k + if isOf fs cwd (·.kind = k) path then 1 else 0 := by
  rw [tally, isOf]
  cases hst : fs.lstat cwd path with
  | none => rfl
  | some st =>
    by_cases hdir : st.kind = .dir
    · obtain ⟨kind, size⟩ := st
      cases hdir
      cases k <;> rfl
    · simpa [hdir] using value_ofFile c st k hdir

theorem nlit_tally (c : Counters) (path : Path) :
    (tally fs cwd c path).nlit = c.nlit + if isOf fs cwd isLittle path then 1 else 0 := by
  rw [tally, isOf]
  cases hst : fs.lstat cwd path with
  | none => rfl
  | some st =>
    by_cases hdir : st.kind = .dir
    · simp [hdir, isLittle]
    · simpa [hdir] using nlit_ofFile c st hdir

theorem foldl_tally (value : Counters → ℕ) {p : Path → Bool}
    (h : ∀ c path, value (tally fs cwd c path) = value c + if p path then 1 else 0) (c : Counters) :
    value (paths.foldl (tally fs cwd) c) = value c + paths.countP p := by
  induction paths generalizing c with
  | nil => rfl
  | cons path paths ih =>
    rw [List.foldl_cons, ih, h, List.countP_cons]
    omega

/-! ### Matching paths and hidden ones -/

theorem listed_eq (fs : GlobSystem Cwd) (cwd : Cwd) (start : Path) :
    listed fs cwd start = graft (matched fs cwd) (fs.isDir cwd) (hidden fs cwd start) := by
  funext path
  rw [listed, graft, matched]
  cases fs.isDir cwd path <;> rfl

theorem leaves_of_files (h : ∀ q ∈ hidden fs cwd start, fs.isDir cwd q = false) :
    ∀ q ∈ hidden fs cwd start, fs.isDir cwd q = false ∧ matched fs cwd q = [] := by
  intro q hq
  refine ⟨h q hq, ?_⟩
  rw [matched, h q hq]
  rfl

/-- The walk ends exactly if it does over the matches and the hidden names are files. -/
theorem ends_iff (hdir : fs.isDir cwd start = true) :
    (∃ depth, DepthLt (listed fs cwd start) depth start ∧ Matching fs cwd start start) ↔
      ∃ m, DepthLt (matched fs cwd) m start ∧
        (∀ q, Below (matched fs cwd) start q → fs.isDir cwd q = true →
          fs.glob cwd (q ++ visibleEnd) ≠ []) ∧
        fs.glob cwd (start ++ hiddenEnd) ≠ [] ∧
        ∀ q ∈ hidden fs cwd start, fs.isDir cwd q = false := by
  rw [listed_eq]
  constructor
  · rintro ⟨depth, hdepth, hmatching⟩
    refine ⟨depth, hdepth.mono fun q _ => List.subset_append_left _ _, fun q hq hqdir => ?_,
      (hmatching start .refl hdir).2, fun q hq => hdepth.not_of_mem_leaves hdir hq⟩
    rw [Matching, listed_eq] at hmatching
    exact (hmatching q hq.graft hqdir).1
  · rintro ⟨m, hdepth, hvisible, hhidden, hfiles⟩
    refine ⟨m + 1, hdepth.graft (leaves_of_files hfiles), fun q hq hqdir => ⟨?_, hhidden⟩⟩
    rw [listed_eq] at hq
    rcases below_graft (leaves_of_files hfiles) hq with hq | hq
    · exact hvisible q hq hqdir
    · rw [hfiles q hq] at hqdir
      cases hqdir

/-- What the walk counts. -/
theorem countP_listed (hdepth : DepthLt (matched fs cwd) m start)
    (hfiles : ∀ q ∈ hidden fs cwd start, fs.isDir cwd q = false)
    (hlisted : DepthLt (listed fs cwd start) depth start) (p : Stat → Bool) :
    (preorder (listed fs cwd start) depth start).countP (isOf fs cwd p) =
      (preorder (matched fs cwd) m start).countP (isOf fs cwd p) +
        (preorder (matched fs cwd) m start).countP (fs.isDir cwd) *
          (hidden fs cwd start).countP (isOf fs cwd p) := by
  rw [← countP_graft hdepth (leaves_of_files hfiles) (isOf fs cwd p), ← listed_eq]
  congr 1
  have hlisted' : DepthLt (listed fs cwd start) (m + 1) start := by
    rw [listed_eq]
    exact hdepth.graft (leaves_of_files hfiles)
  rcases Nat.le_total depth (m + 1) with hle | hle
  · exact (hlisted.preorder_eq hle).symm
  · exact hlisted'.preorder_eq hle

/-! ### Agreement -/

theorem number_eq (ht : Tree fs cwd n start) (p : Stat → Bool) :
    fs.number cwd start p = (fs.paths cwd n start).countP (isOf fs cwd p) :=
  (countP_preorder ht.depth ht.nodup_paths (isOf fs.toFileSystem cwd p)).symm

theorem statistics_value (k : Kind) :
    (fs.statistics cwd start).value k = fs.number cwd start (·.kind = k) := by
  cases k <;> rfl

/-- The counters of the walk are those of the tree if and only if all kinds are balanced. -/
theorem globals_eq_iff (ht : Tree fs cwd n start) (hdepth : DepthLt (matched fs cwd) m start)
    (hfiles : ∀ q ∈ hidden fs cwd start, fs.isDir cwd q = false)
    (hlisted : DepthLt (listed fs cwd start) depth start) (h0 : c = ⟨0, 0, 0, 0, 0, 0, 0, 0⟩) :
    (preorder (listed fs cwd start) depth start).foldl (tally fs cwd) c = fs.statistics cwd start ↔
      (∀ k, Balanced fs cwd n m start (·.kind = k)) ∧ Balanced fs cwd n m start isLittle := by
  have hkind (k : Kind) :
      ((preorder (listed fs cwd start) depth start).foldl (tally fs cwd) c).value k =
        (fs.statistics cwd start).value k ↔ Balanced fs cwd n m start (·.kind = k) := by
    have hzero : c.value k = 0 := by
      rw [h0]
      cases k <;> rfl
    rw [statistics_value, number_eq ht, Balanced, ← countP_listed hdepth hfiles hlisted,
      foldl_tally (fun c => c.value k) fun c path => value_tally c k path, hzero, zero_add]
  have hlittle : ((preorder (listed fs cwd start) depth start).foldl (tally fs cwd) c).nlit =
      (fs.statistics cwd start).nlit ↔ Balanced fs cwd n m start isLittle := by
    have hzero : c.nlit = 0 := by rw [h0]
    change _ = fs.number cwd start isLittle ↔ _
    rw [number_eq ht, Balanced, ← countP_listed hdepth hfiles hlisted,
      foldl_tally Counters.nlit nlit_tally, hzero, zero_add]
  constructor
  · intro heq
    exact ⟨fun k => (hkind k).mp (by rw [heq]), hlittle.mp (by rw [heq])⟩
  · exact fun h => counters_ext (fun k => (hkind k).mpr (h.1 k)) (hlittle.mpr h.2)

/-- The version with patterns comes to its end with the counters of the other version if and only
if the tree looks the same to both. -/
theorem agree_iff_alike (junk : Path → ℤ) (hglob : fs.Documented)
    (hstart : StartPath fs s.cwd start) (ht : Tree fs s.cwd n start) (hfits : Fits fs s.cwd start)
    (hsize : s.fullpath.length = pathSize) (h0 : s.out.globals = ⟨0, 0, 0, 0, 0, 0, 0, 0⟩)
    (hdepth : n ≤ depth) (hcwd : s₁.cwd = s.cwd) (hsize₁ : s₁.fullpath.length = Myfind.pathSize)
    (h0₁ : s₁.out.globals = ⟨0, 0, 0, 0, 0, 0, 0, 0⟩) :
    Agree fs junk depth start s s₁ ↔ ∃ m, Alike fs s.cwd n m start := by
  obtain ⟨⟨s₁', hrun₁, hglobals₁, -⟩, -⟩ :=
    statistics_exact junk (hcwd ▸ hstart) (hcwd ▸ ht) hdepth hsize₁ h0₁
  rw [hcwd] at hglobals₁
  have hreturns (d : ℕ) := myfind_returns hglob d hfits hstart.nonzero hsize
  constructor
  · rintro ⟨d, s', s₂', hrun, hrun₂, heq⟩
    obtain ⟨-, rfl⟩ := Prod.mk.inj (Option.some.inj (hrun₂.symm.trans hrun₁))
    have hends := (hreturns d).isSome.mp (by rw [hrun]; rfl)
    have hafter := ((hreturns d).after 0 s' hrun).2
    obtain ⟨m, hm, hvisible, hhidden, hfiles⟩ := (ends_iff hstart.isDir).mp ⟨d, hends⟩
    rw [hafter.globals, hglobals₁, globals_eq_iff ht hm hfiles hends.1 h0] at heq
    exact ⟨m, hm, hvisible, hhidden, hfiles, heq.1, heq.2⟩
  · rintro ⟨m, hm, hvisible, hhidden, hfiles, hkinds, hlittle⟩
    obtain ⟨d, hends⟩ := (ends_iff hstart.isDir).mpr ⟨m, hm, hvisible, hhidden, hfiles⟩
    obtain ⟨⟨r, s'⟩, hrun⟩ := Option.isSome_iff_exists.mp ((hreturns d).isSome.mpr hends)
    obtain ⟨rfl, hafter⟩ := (hreturns d).after r s' hrun
    refine ⟨d, s', s₁', hrun, hrun₁, ?_⟩
    rw [hafter.globals, hglobals₁, globals_eq_iff ht hm hfiles hends.1 h0]
    exact ⟨hkinds, hlittle⟩

end Coursework.Unix.MyfindGlob
