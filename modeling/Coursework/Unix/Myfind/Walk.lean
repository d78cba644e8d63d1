import Coursework.Lib.Preorder
import Coursework.Unix.Myfind

/-!
# The walk of `dopath`

The nodes below a directory are those that can be reached through readable directories. A call of
`dopath` comes to each of them in preorder and leaves `fullpath` as it was, as long as no directory
on the way has no entries and an unset `ret` that is not zero.
-/
namespace Coursework.Unix.Myfind
open CString

variable {Cwd G : Type}

/-! ### The tree -/

namespace FileSystem

def isDir (fs : FileSystem Cwd) (cwd : Cwd) (path : Path) : Bool :=
  (fs.lstat cwd path).any fun st => st.kind = .dir

/-- The names in a directory, without `.` and `..`; none if it cannot be read. -/
def entries (fs : FileSystem Cwd) (cwd : Cwd) (path : Path) : List Path :=
  ((fs.opendir cwd path).getD []).filter isEntry

def children (fs : FileSystem Cwd) (cwd : Cwd) (path : Path) : List Path :=
  if fs.isDir cwd path then (fs.entries cwd path).map (path ++ slash :: ·) else []

/-- The path is the one of a node that is reached from `start` through readable directories. -/
abbrev Reached (fs : FileSystem Cwd) (cwd : Cwd) (start path : Path) : Prop :=
  Below (fs.children cwd) start path

/-- The paths below `start`, for a tree that is less than `n` nodes deep. -/
abbrev paths (fs : FileSystem Cwd) (cwd : Cwd) (n : ℕ) (start : Path) : List Path :=
  preorder (fs.children cwd) n start

end FileSystem

/-- What `readdir` gives for the directory `path`: names without `/` and zero bytes, no entry twice,
and all the paths that are written into `fullpath` fit. -/
structure Listing (path : Path) (names : List Path) : Prop where
  characters : ∀ name ∈ names, slash ∉ name ∧ 0 ∉ name
  nodup : (names.filter isEntry).Nodup
  slash_fits : (path ++ [slash]).length < pathSize
  fits : ∀ name ∈ names, (path ++ slash :: name).length < pathSize

/-- A directory tree of finite depth. -/
structure Tree (fs : FileSystem Cwd) (cwd : Cwd) (n : ℕ) (start : Path) : Prop where
  depth : DepthLt (fs.children cwd) n start
  listing : ∀ path names, fs.Reached cwd start path → fs.isDir cwd path = true →
    fs.opendir cwd path = some names → Listing path names

/-- A path of a directory that can be given to `myfind`. -/
structure StartPath (fs : FileSystem Cwd) (cwd : Cwd) (start : Path) : Prop where
  isDir : fs.isDir cwd start = true
  nonzero : 0 ∉ start
  fits : start.length < pathSize

/-- A readable directory without entries, in whose call `ret` is not set by the loop. -/
def Barren (fs : FileSystem Cwd) (cwd : Cwd) (path : Path) : Prop :=
  fs.isDir cwd path = true ∧ (fs.opendir cwd path).isSome ∧ fs.entries cwd path = []

/-- `ret` is set before the loop, or happens to be zero where the loop does not set it. -/
def RetZero (fs : FileSystem Cwd) (cwd : Cwd) (junk : Path → ℤ) (type : WalkType) (start : Path) :
    Prop :=
  type = .p ∨ ∀ path, fs.Reached cwd start path → Barren fs cwd path → junk path = 0

/-! ### The calls of the function -/

structure Call where
  path : Path
  statbuf : Option Stat
  find : Find
  deriving DecidableEq

/-- The calls at one node, before those for the nodes below it. -/
def callsAt (fs : FileSystem Cwd) (cwd : Cwd) (type : WalkType) (path : Path) : List Call :=
  match fs.lstat cwd path with
  | none => [⟨path, none, .ns⟩]
  | some st =>
    if st.kind ≠ .dir then [⟨path, some st, .f⟩]
    else (if type = .p then [⟨path, some st, .d⟩] else []) ++
      if fs.opendir cwd path = none then [⟨path, some st, .dnr⟩] else []

def calls (fs : FileSystem Cwd) (cwd : Cwd) (type : WalkType) (n : ℕ) (start : Path) : List Call :=
  (fs.paths cwd n start).flatMap (callsAt fs cwd type)

/-- The function returns zero and changes the output only. -/
structure Acts (fs : FileSystem Cwd) (cwd : Cwd) (type : WalkType) (func : Myfunc Cwd G)
    (act : Call → Output G → Output G) (start : Path) : Prop where
  returns : ∀ path, fs.Reached cwd start path → ∀ call ∈ callsAt fs cwd type path,
    ∀ s : State Cwd G, s.cwd = cwd → Holds s.fullpath path →
      func s call.statbuf call.find = some (0, { s with out := act call s.out })

/-- A call with what `dopath` itself prints before it. -/
def effect (fs : FileSystem Cwd) (cwd : Cwd) (type : WalkType) (act : Call → Output G → Output G)
    (o : Output G) (call : Call) : Output G :=
  act call (if call.find = .ns then o.statError type (fs.getcwd cwd) else o)

variable {fs : FileSystem Cwd} {cwd : Cwd} {junk : Path → ℤ} {type : WalkType} {func : Myfunc Cwd G}
  {act : Call → Output G → Output G} {n depth : ℕ} {path start name : Path} {names : List Path}
  {s s' : State Cwd G} {st : Stat} {r ret : ℤ}

/-- What a call of `dopath` for `path` comes to. -/
structure Outcome (fs : FileSystem Cwd) (cwd : Cwd) (junk : Path → ℤ) (type : WalkType)
    (act : Call → Output G → Output G) (n : ℕ) (path : Path) (s : State Cwd G) (r : ℤ)
    (s' : State Cwd G) : Prop where
  stays : s'.cwd = cwd
  size : s'.fullpath.length = pathSize
  holds : Holds s'.fullpath path
  zero : r = 0 ↔ RetZero fs cwd junk type path
  out : RetZero fs cwd junk type path →
    s'.out = (calls fs cwd type n path).foldl (effect fs cwd type act) s.out

/-! ### One node -/

theorem Tree.child {path' : Path} (ht : Tree fs cwd (n + 1) path)
    (hc : path' ∈ fs.children cwd path) : Tree fs cwd n path' where
  depth := ht.depth path' hc
  listing q names hq := ht.listing q names (.head hc hq)

theorem Acts.child {path' : Path} (ha : Acts fs cwd type func act path)
    (hc : path' ∈ fs.children cwd path) : Acts fs cwd type func act path' where
  returns q hq := ha.returns q (.head hc hq)

theorem isDir_of_lstat (hst : fs.lstat cwd path = some st) :
    fs.isDir cwd path = decide (st.kind = .dir) := by
  rw [FileSystem.isDir, hst]
  rfl

theorem children_of_not_dir (h : fs.isDir cwd path = false) : fs.children cwd path = [] := by
  rw [FileSystem.children, h]
  rfl

theorem children_of_dir (hdir : fs.isDir cwd path = true) (hopen : fs.opendir cwd path = some names) :
    fs.children cwd path = (names.filter isEntry).map (path ++ slash :: ·) := by
  rw [FileSystem.children, if_pos hdir, FileSystem.entries, hopen]
  rfl

theorem barren_iff (hdir : fs.isDir cwd path = true) (hopen : fs.opendir cwd path = some names) :
    Barren fs cwd path ↔ names.filter isEntry = [] := by
  rw [Barren, FileSystem.entries, hopen]
  exact ⟨fun h => h.2.2, fun h => ⟨hdir, rfl, h⟩⟩

theorem retZero_iff (htype : type ≠ .p) :
    RetZero fs cwd junk type path ↔ (Barren fs cwd path → junk path = 0) ∧
      ∀ path' ∈ fs.children cwd path, RetZero fs cwd junk type path' := by
  constructor
  · intro h
    have h := h.resolve_left htype
    exact ⟨h path .refl, fun path' hc => .inr fun q hq => h q (.head hc hq)⟩
  · rintro ⟨hself, hbelow⟩
    refine .inr fun q hq hbarren => ?_
    rcases Relation.ReflTransGen.cases_head hq with rfl | ⟨path', hc, hq⟩
    · exact hself hbarren
    · exact (hbelow path' hc).resolve_left htype q hq hbarren

theorem retZero_of_not_dir (h : fs.isDir cwd path = false) : RetZero fs cwd junk type path := by
  by_cases htype : type = .p
  · exact .inl htype
  · refine (retZero_iff htype).mpr ⟨fun hbarren => ?_, fun path' hc => ?_⟩
    · rw [hbarren.1] at h
      cases h
    · rw [children_of_not_dir h] at hc
      cases hc

/-! ### The loop over the names -/

theorem pathNoloop_append (path : Path) (h : slash ∉ name) :
    pathNoloop (path ++ slash :: name) = some (isEntry name) := by
  rw [pathNoloop, strrchr_append path h]
  rfl

/-- One round of the loop. -/
theorem readdirLoop_cons {visit : State Cwd G → Option (ℤ × State Cwd G)} {b : Path} {noloop : Bool}
    (hb : strcpy s.fullpath n name = some b) (hnoloop : pathNoloop (text b) = some noloop) :
    readdirLoop visit n (name :: names) ret s =
      if noloop then (visit { s with fullpath := b }).bind fun p =>
        if p.1 ≠ 0 then some (1, p.2) else readdirLoop visit n names 0 p.2
      else readdirLoop visit n names ret { s with fullpath := b } := by
  rw [readdirLoop, hb, Option.bind_eq_bind, Option.bind_some, hnoloop]
  rfl

/-- After the loop, for the names that are left: the directory still stands in `fullpath`. -/
structure LoopOutcome (fs : FileSystem Cwd) (cwd : Cwd) (junk : Path → ℤ) (type : WalkType)
    (act : Call → Output G → Output G) (n : ℕ) (path : Path) (names : List Path) (ret : ℤ)
    (s : State Cwd G) (r : ℤ) (s' : State Cwd G) : Prop where
  stays : s'.cwd = cwd
  size : s'.fullpath.length = pathSize
  starts : path ++ [slash] <+: s'.fullpath
  zero : r = 0 ↔ (names.filter isEntry = [] → ret = 0) ∧
    ∀ name ∈ names.filter isEntry, RetZero fs cwd junk type (path ++ slash :: name)
  out : (∀ name ∈ names.filter isEntry, RetZero fs cwd junk type (path ++ slash :: name)) →
    s'.out = (((names.filter isEntry).map (path ++ slash :: ·)).flatMap
      (calls fs cwd type n)).foldl (effect fs cwd type act) s.out

/-- An entry stands in `fullpath` behind its directory. -/
theorem starts_of_holds {b : Path} (h : Holds b (path ++ slash :: name)) :
    path ++ [slash] <+: b := by
  have hname : path ++ [slash] <+: path ++ slash :: name := ⟨name, (List.append_cons ..).symm⟩
  exact hname.trans h.startsWith

/-- A name is written behind its directory. -/
theorem strcpy_name {b : Path} (hpath : 0 ∉ path) (hname : slash ∉ name ∧ 0 ∉ name)
    (hfits : (path ++ slash :: name).length < b.length) (hstarts : path ++ [slash] <+: b) :
    ∃ b', strcpy b (path.length + 1) name = some b' ∧ b'.length = b.length ∧
      Holds b' (path ++ slash :: name) ∧ pathNoloop (text b') = some (isEntry name) := by
  have happend : path ++ [slash] ++ name = path ++ slash :: name := (List.append_cons ..).symm
  have h0 : 0 ∉ path ++ [slash] ++ name := by
    simp only [List.mem_append, List.mem_singleton, not_or]
    exact ⟨⟨hpath, by decide⟩, hname.2⟩
  obtain ⟨b', hb, hholds, hsize⟩ := strcpy_holds hstarts h0 (by rw [happend]; exact hfits)
  rw [List.length_append] at hb
  rw [happend] at hholds
  refine ⟨b', hb, hsize, hholds, ?_⟩
  rw [hholds.text_eq, pathNoloop_append path hname.1]

/-- `.` and `..` are passed over. -/
theorem LoopOutcome.skip {b : Path} (hentry : isEntry name = false)
    (h : LoopOutcome fs cwd junk type act n path names ret { s with fullpath := b } r s') :
    LoopOutcome fs cwd junk type act n path (name :: names) ret s r s' := by
  have hfilter : (name :: names).filter isEntry = names.filter isEntry :=
    List.filter_cons_of_neg (by simp [hentry])
  refine ⟨h.stays, h.size, h.starts, ?_, ?_⟩
  · rw [hfilter]
    exact h.zero
  · rw [hfilter]
    exact h.out

/-- The loop goes on after a call that returns zero. -/
theorem LoopOutcome.next {b : Path} {s₁ : State Cwd G} (hentry : isEntry name = true)
    (hcall : Outcome fs cwd junk type act n (path ++ slash :: name) { s with fullpath := b } 0 s₁)
    (h : LoopOutcome fs cwd junk type act n path names 0 s₁ r s') :
    LoopOutcome fs cwd junk type act n path (name :: names) ret s r s' := by
  have hfilter : (name :: names).filter isEntry = name :: names.filter isEntry :=
    List.filter_cons_of_pos hentry
  have hzero := hcall.zero.mp rfl
  refine ⟨h.stays, h.size, h.starts, ?_, fun hall => ?_⟩
  · rw [hfilter, h.zero]
    simp [hzero]
  · rw [hfilter] at hall ⊢
    rw [h.out fun name' hname => hall name' (List.mem_cons_of_mem name hname), hcall.out hzero,
      List.map_cons, List.flatMap_cons, List.foldl_append]

/-- The loop ends at a call that does not return zero. -/
theorem LoopOutcome.stop {b : Path} {r₁ : ℤ} {s₁ : State Cwd G} (hentry : isEntry name = true)
    (hcall : Outcome fs cwd junk type act n (path ++ slash :: name) { s with fullpath := b } r₁ s₁)
    (hr : r₁ ≠ 0) : LoopOutcome fs cwd junk type act n path (name :: names) ret s 1 s₁ := by
  have hmem : name ∈ (name :: names).filter isEntry :=
    List.mem_filter.mpr ⟨List.mem_cons_self, hentry⟩
  have hzero : ¬ RetZero fs cwd junk type (path ++ slash :: name) := fun h =>
    hr (hcall.zero.mpr h)
  refine ⟨hcall.stays, hcall.size, starts_of_holds hcall.holds, ?_, fun hall => ?_⟩
  · exact iff_of_false (by decide) fun h => hzero (h.2 name hmem)
  · exact absurd (hall name hmem) hzero

/-- The loop goes through all names, or stops at a call that does not return zero. -/
theorem readdirLoop_outcome {visit : State Cwd G → Option (ℤ × State Cwd G)} (ret : ℤ)
    (hpath : 0 ∉ path)
    (hnames : ∀ name ∈ names, (slash ∉ name ∧ 0 ∉ name) ∧
      (path ++ slash :: name).length < pathSize)
    (hvisit : ∀ name ∈ names.filter isEntry, ∀ s : State Cwd G, s.cwd = cwd →
      s.fullpath.length = pathSize → Holds s.fullpath (path ++ slash :: name) →
      ∃ r s', visit s = some (r, s') ∧
        Outcome fs cwd junk type act n (path ++ slash :: name) s r s')
    (hs : s.cwd = cwd) (hsize : s.fullpath.length = pathSize)
    (hstarts : path ++ [slash] <+: s.fullpath) :
    ∃ r s', readdirLoop visit (path.length + 1) names ret s = some (r, s') ∧
      LoopOutcome fs cwd junk type act n path names ret s r s' := by
  induction names generalizing s ret with
  | nil => exact ⟨ret, s, rfl, hs, hsize, hstarts, by simp, fun _ => rfl⟩
  | cons name names ih =>
    have hrest := fun name' h => hnames name' (List.mem_cons_of_mem name h)
    obtain ⟨hname, hfits⟩ := hnames name List.mem_cons_self
    obtain ⟨b, hb, hbsize, hholds, hnoloop⟩ := strcpy_name hpath hname (hsize ▸ hfits) hstarts
    rw [readdirLoop_cons hb hnoloop]
    cases hentry : isEntry name with
    | false =>
      have hfilter : (name :: names).filter isEntry = names.filter isEntry :=
        List.filter_cons_of_neg (by simp [hentry])
      rw [hfilter] at hvisit
      obtain ⟨r, s', hloop, hout⟩ := ih (s := { s with fullpath := b }) ret hrest hvisit hs
        (hbsize.trans hsize) (starts_of_holds hholds)
      exact ⟨r, s', hloop, hout.skip hentry⟩
    | true =>
      have hfilter : (name :: names).filter isEntry = name :: names.filter isEntry :=
        List.filter_cons_of_pos hentry
      rw [hfilter] at hvisit
      obtain ⟨r₁, s₁, hcall, hout₁⟩ := hvisit name List.mem_cons_self { s with fullpath := b } hs
        (hbsize.trans hsize) hholds
      rw [if_pos rfl, hcall, Option.bind_some]
      by_cases hr : r₁ = 0
      · subst hr
        obtain ⟨r, s', hloop, hout⟩ := ih (s := s₁) 0 hrest
          (fun name' h => hvisit name' (List.mem_cons_of_mem name h)) hout₁.stays hout₁.size
          (starts_of_holds hout₁.holds)
        exact ⟨r, s', hloop, .next hentry hout₁ hout⟩
      · exact ⟨1, s₁, if_pos hr, .stop hentry hout₁ hr⟩

/-! ### A call of `dopath` -/

theorem calls_succ (n : ℕ) (path : Path) : calls fs cwd type (n + 1) path =
    callsAt fs cwd type path ++ (fs.children cwd path).flatMap (calls fs cwd type n) := by
  rw [calls, FileSystem.paths, preorder, List.flatMap_cons, List.flatMap_assoc]
  rfl

/-- From `opendir` on: the function is told of a directory that cannot be read, and the nodes of
one that can be read are walked. -/
theorem dodir_outcome {visit : State Cwd G → Option (ℤ × State Cwd G)} (ret : ℤ)
    (hdir : fs.isDir cwd path = true)
    (hlisting : ∀ names, fs.opendir cwd path = some names → Listing path names)
    (hfunc : fs.opendir cwd path = none → func s (some st) .dnr =
      some (0, { s with out := act ⟨path, some st, .dnr⟩ s.out }))
    (hvisit : ∀ path' ∈ fs.children cwd path, ∀ s : State Cwd G, s.cwd = cwd →
      s.fullpath.length = pathSize → Holds s.fullpath path' →
      ∃ r s', visit s = some (r, s') ∧ Outcome fs cwd junk type act n path' s r s')
    (hs : s.cwd = cwd) (hsize : s.fullpath.length = pathSize) (hholds : Holds s.fullpath path) :
    ∃ r s', dodir fs visit func st ret s = some (r, s') ∧ s'.cwd = cwd ∧
      s'.fullpath.length = pathSize ∧ Holds s'.fullpath path ∧
      (r = 0 ↔ (Barren fs cwd path → ret = 0) ∧
        ∀ path' ∈ fs.children cwd path, RetZero fs cwd junk type path') ∧
      ((∀ path' ∈ fs.children cwd path, RetZero fs cwd junk type path') →
        s'.out = ((if fs.opendir cwd path = none then [(⟨path, some st, .dnr⟩ : Call)] else []) ++
          (fs.children cwd path).flatMap (calls fs cwd type n)).foldl (effect fs cwd type act)
            s.out) := by
  subst hs
  rw [dodir, hholds.text_eq]
  cases hopen : fs.opendir s.cwd path with
  | none =>
    have hchildren : fs.children s.cwd path = [] := by
      rw [FileSystem.children, if_pos hdir, FileSystem.entries, hopen]
      rfl
    refine ⟨0, _, hfunc hopen, rfl, hsize, hholds, iff_of_true rfl ⟨fun hb => ?_, ?_⟩, fun _ => ?_⟩
    · have hsome := hb.2.1
      rw [hopen] at hsome
      cases hsome
    · rw [hchildren]
      exact fun _ h => by cases h
    · rw [hchildren, if_pos rfl]
      rfl
  | some names =>
    have hok := hlisting names hopen
    have hchildren := children_of_dir hdir hopen
    obtain ⟨b₁, b, hb₁, hb, hbholds, hbsize⟩ := store_holds hholds (c := slash) (by decide)
      (hsize ▸ hok.slash_fits)
    obtain ⟨r, s', hloop, hout⟩ := readdirLoop_outcome (s := { s with fullpath := b }) ret
      hholds.nonzero (fun name h => ⟨hok.characters name h, hok.fits name h⟩)
      (fun name h => hvisit _ (hchildren ▸ List.mem_map_of_mem h)) rfl (hbsize.trans hsize)
      hbholds.startsWith
    obtain ⟨b', hb', hholds', hsize'⟩ := store_cut hout.starts hholds.nonzero
    refine ⟨r, { s' with fullpath := b' }, ?_, hout.stays, hsize'.trans hout.size, hholds', ?_, ?_⟩
    · simp only [hb₁, hb, hloop, hb', Option.bind_eq_bind, Option.bind_some]
    · rw [hout.zero, barren_iff hdir hopen, hchildren, List.forall_mem_map]
    · rw [hchildren, List.forall_mem_map, if_neg (by simp)]
      exact hout.out

theorem callsAt_dir (hst : fs.lstat cwd path = some st) (hkind : st.kind = .dir) :
    callsAt fs cwd type path = (if type = .p then [⟨path, some st, .d⟩] else []) ++
      if fs.opendir cwd path = none then [⟨path, some st, .dnr⟩] else [] := by
  simp only [callsAt, hst]
  exact if_neg (not_not.mpr hkind)

/-- At a node that is no directory the function is called once. -/
theorem leaf_outcome {call : Call} {o : Output G} (ha : Acts fs s.cwd type func act path)
    (hdir : fs.isDir s.cwd path = false) (hcalls : callsAt fs s.cwd type path = [call])
    (ho : effect fs s.cwd type act s.out call = act call o)
    (hsize : s.fullpath.length = pathSize) (hholds : Holds s.fullpath path) :
    ∃ r s', func { s with out := o } call.statbuf call.find = some (r, s') ∧
      Outcome fs s.cwd junk type act (n + 1) path s r s' := by
  have hret := ha.returns path .refl call (by rw [hcalls]; exact .head _) { s with out := o } rfl
    hholds
  refine ⟨0, _, hret, rfl, hsize, hholds, iff_of_true rfl (retZero_of_not_dir hdir), fun _ => ?_⟩
  rw [calls_succ, hcalls, children_of_not_dir hdir]
  exact ho.symm

/-- A call of `dopath` comes to all nodes and returns zero, or does not return zero because of an
unset `ret`. -/
theorem dopath_outcome (junk : Path → ℤ) (ht : Tree fs cwd n path)
    (ha : Acts fs cwd type func act path) (hdepth : n ≤ depth) (hs : s.cwd = cwd)
    (hsize : s.fullpath.length = pathSize) (hholds : Holds s.fullpath path) :
    ∃ r s', dopath fs junk func type depth s = some (r, s') ∧
      Outcome fs cwd junk type act n path s r s' := by
  induction n generalizing path depth s with
  | zero => exact ht.depth.elim
  | succ n ih =>
    obtain ⟨depth, rfl⟩ : ∃ d, depth = d + 1 := ⟨depth - 1, by omega⟩
    have hvisit : ∀ path' ∈ fs.children cwd path, ∀ s : State Cwd G, s.cwd = cwd →
        s.fullpath.length = pathSize → Holds s.fullpath path' →
        ∃ r s', dopath fs junk func type depth s = some (r, s') ∧
          Outcome fs cwd junk type act n path' s r s' :=
      fun path' hc s hs hsize hholds =>
        ih (ht.child hc) (ha.child hc) (Nat.le_of_succ_le_succ hdepth) hs hsize hholds
    subst hs
    rw [dopath, hholds.text_eq]
    cases hst : fs.lstat s.cwd path with
    | none =>
      have hcalls : callsAt fs s.cwd type path = [⟨path, none, .ns⟩] := by rw [callsAt, hst]
      have hdir : fs.isDir s.cwd path = false := by rw [FileSystem.isDir, hst]; rfl
      exact leaf_outcome ha hdir hcalls rfl hsize hholds
    | some st =>
      have hisDir := isDir_of_lstat hst
      by_cases hkind : st.kind = .dir
      · have hdir : fs.isDir s.cwd path = true := by rw [hisDir, decide_eq_true hkind]
        have hlisting := fun names => ht.listing path names .refl hdir
        have hcalls : callsAt fs s.cwd type path = _ := callsAt_dir hst hkind
        have hdnr (s₁ : State Cwd G) (hs : s₁.cwd = s.cwd) (hholds : Holds s₁.fullpath path)
            (hopen : fs.opendir s.cwd path = none) : func s₁ (some st) .dnr =
              some (0, { s₁ with out := act ⟨path, some st, .dnr⟩ s₁.out }) := by
          refine ha.returns path .refl ⟨path, some st, .dnr⟩ ?_ s₁ hs hholds
          rw [hcalls, if_pos hopen]
          exact List.mem_append_right _ (.head _)
        simp only [ne_eq, hkind, not_true_eq_false, if_false]
        cases type with
        | p =>
          have hret := ha.returns path .refl ⟨path, some st, .d⟩ (by rw [hcalls]; exact .head _)
            s rfl hholds
          obtain ⟨r, s', hdo, hcwd, hsize', hholds', hzero, hout⟩ := dodir_outcome
            (s := { s with out := act ⟨path, some st, .d⟩ s.out }) 0 hdir hlisting
            (hdnr _ rfl hholds) hvisit rfl hsize hholds
          refine ⟨r, s', ?_, hcwd, hsize', hholds', ?_, fun _ => ?_⟩
          · rw [hret]
            exact hdo
          · rw [hzero]
            exact iff_of_true ⟨fun _ => rfl, fun _ _ => .inl rfl⟩ (.inl rfl)
          · rw [hout fun _ _ => .inl rfl, calls_succ, hcalls]
            rfl
        | c | n =>
          obtain ⟨r, s', hdo, hcwd, hsize', hholds', hzero, hout⟩ := dodir_outcome (junk path) hdir
            hlisting (hdnr s rfl hholds) hvisit rfl hsize hholds
          refine ⟨r, s', hdo, hcwd, hsize', hholds', ?_, fun h => ?_⟩
          · rw [hzero, retZero_iff (by decide)]
          · rw [hout ((retZero_iff (by decide)).mp h).2, calls_succ, hcalls]
            rfl
      · have hcalls : callsAt fs s.cwd type path = [⟨path, some st, .f⟩] := by
          simp only [callsAt, hst]
          exact if_pos hkind
        have hdir : fs.isDir s.cwd path = false := by rw [hisDir, decide_eq_false hkind]
        simp only [ne_eq, hkind, not_false_eq_true, if_true]
        exact leaf_outcome ha hdir hcalls rfl hsize hholds

theorem myfind_outcome (junk : Path → ℤ) (hstart : StartPath fs s.cwd start)
    (ht : Tree fs s.cwd n start) (ha : Acts fs s.cwd type func act start) (hdepth : n ≤ depth)
    (hsize : s.fullpath.length = pathSize) :
    ∃ r s', myfind fs junk depth start func type s = some (r, s') ∧
      Outcome fs s.cwd junk type act n start s r s' := by
  obtain ⟨b, hb, hholds, hbsize⟩ := strcpy_holds (List.nil_prefix (l := s.fullpath)) (s := start)
    hstart.nonzero (hsize ▸ hstart.fits)
  obtain ⟨r, s', hdo, hout⟩ := dopath_outcome junk (s := { s with fullpath := b }) ht ha
    hdepth rfl (hbsize.trans hsize) hholds
  refine ⟨r, s', ?_, hout.stays, hout.size, hout.holds, hout.zero, hout.out⟩
  have htext : text b = start := hholds.text_eq
  have hdir := hstart.isDir
  cases hst : fs.lstat s.cwd start with
  | none =>
    rw [FileSystem.isDir, hst] at hdir
    cases hdir
  | some st =>
    rw [isDir_of_lstat hst] at hdir
    rw [myfind, show strcpy s.fullpath 0 start = some b from hb, Option.bind_eq_bind,
      Option.bind_some, htext, hst]
    exact (if_neg (not_not.mpr (of_decide_eq_true hdir))).trans hdo

/-! ### Every node once -/

/-- A path below another one goes on with a slash. -/
theorem Reached.extends {q : Path} (hq : fs.Reached cwd path q) : ∃ t, q = path ++ t ∧
    (t = [] ∨ ∃ u, t = slash :: u) := by
  induction hq with
  | refl => exact ⟨[], (List.append_nil path).symm, .inl rfl⟩
  | tail _ hz ih =>
    obtain ⟨t, rfl, ht⟩ := ih
    rw [FileSystem.children] at hz
    split_ifs at hz
    · obtain ⟨name, -, rfl⟩ := List.mem_map.mp hz
      refine ⟨t ++ slash :: name, List.append_assoc _ _ _, .inr ?_⟩
      rcases ht with rfl | ⟨u, rfl⟩
      · exact ⟨name, rfl⟩
      · exact ⟨u ++ slash :: name, rfl⟩
    · cases hz

/-- A name ends where a slash or nothing follows. -/
theorem name_unique {a b t u : Path} (ha : slash ∉ a) (hb : slash ∉ b)
    (ht : t = [] ∨ ∃ v, t = slash :: v) (hu : u = [] ∨ ∃ v, u = slash :: v)
    (heq : a ++ t = b ++ u) : a = b := by
  have hcut {a t : Path} (ha : slash ∉ a) (ht : t = [] ∨ ∃ v, t = slash :: v) :
      (a ++ t).takeWhile (· ≠ slash) = a := by
    have hall : ∀ x ∈ a, decide (x ≠ slash) = true :=
      fun x hx => decide_eq_true fun h => ha (h ▸ hx)
    rw [List.takeWhile_append_of_pos hall]
    rcases ht with rfl | ⟨v, rfl⟩ <;> exact List.append_nil a
  rw [← hcut ha ht, heq, hcut hb hu]

/-- A child is a directory that can be read, a slash and a name without a slash. -/
theorem Tree.child_cases {path' : Path} (ht : Tree fs cwd n start)
    (hpath : fs.Reached cwd start path) (hc : path' ∈ fs.children cwd path) :
    ∃ names name, fs.isDir cwd path = true ∧ fs.opendir cwd path = some names ∧
      Listing path names ∧ name ∈ names.filter isEntry ∧ path' = path ++ slash :: name := by
  by_cases hdir : fs.isDir cwd path = true
  · cases hopen : fs.opendir cwd path with
    | none =>
      rw [FileSystem.children, if_pos hdir, FileSystem.entries, hopen] at hc
      cases hc
    | some names =>
      rw [children_of_dir hdir hopen] at hc
      obtain ⟨name, hname, rfl⟩ := List.mem_map.mp hc
      exact ⟨names, name, hdir, rfl, ht.listing path names hpath hdir hopen, hname, rfl⟩
  · rw [children_of_not_dir (Bool.eq_false_iff.mpr hdir)] at hc
    cases hc

theorem Tree.nodup_paths (ht : Tree fs cwd n start) : (fs.paths cwd n start).Nodup := by
  refine nodup_preorder ht.depth (fun y hy => ?_) fun y hy z hz z' hz' w hw hw' => ?_
  · cases hl : fs.children cwd y with
    | nil => exact List.nodup_nil
    | cons z l =>
      obtain ⟨names, -, hdir, hopen, hlisting, -⟩ := ht.child_cases hy (hl ▸ List.mem_cons_self)
      rw [← hl, children_of_dir hdir hopen]
      refine hlisting.nodup.map fun a b hab => ?_
      exact (List.cons.inj (List.append_cancel_left hab)).2
  · obtain ⟨names, a, -, hopen, hlisting, ha, rfl⟩ := ht.child_cases hy hz
    obtain ⟨names', b, -, hopen', hlisting', hb, rfl⟩ := ht.child_cases hy hz'
    obtain ⟨t, rfl, ht⟩ := Reached.extends hw
    obtain ⟨u, heq, hu⟩ := Reached.extends hw'
    rw [List.append_assoc, List.append_assoc] at heq
    have heq := (List.cons.inj (List.append_cancel_left heq)).2
    have hslash := (hlisting.characters a (List.mem_filter.mp ha).1).1
    have hslash' := (hlisting'.characters b (List.mem_filter.mp hb).1).1
    rw [name_unique hslash hslash' ht hu heq]

/-! ### A record of the calls -/

/-- The function together with a list of its calls. -/
def record (func : Myfunc Cwd G) : Myfunc Cwd (G × List Call) := fun s statptr type =>
  (func ⟨s.fullpath, s.cwd, s.out.stdout, s.out.globals.1⟩ statptr type).map fun (r, s') =>
    (r, ⟨s'.fullpath, s'.cwd, s'.out.stdout, s'.out.globals,
      s.out.globals.2 ++ [⟨text s.fullpath, statptr, type⟩]⟩)

def recordAct (act : Call → Output G → Output G) (call : Call) (o : Output (G × List Call)) :
    Output (G × List Call) :=
  let o' := act call ⟨o.stdout, o.globals.1⟩
  ⟨o'.stdout, o'.globals, o.globals.2 ++ [call]⟩

theorem mem_callsAt {call : Call} (h : call ∈ callsAt fs cwd type path) :
    (∃ st, call = ⟨path, some st, .f⟩ ∧ fs.lstat cwd path = some st ∧ st.kind ≠ .dir) ∨
    (∃ st, call = ⟨path, some st, .d⟩ ∧ st.kind = .dir) ∨
    (∃ st, call = ⟨path, some st, .dnr⟩) ∨
    call = ⟨path, none, .ns⟩ ∧ fs.lstat cwd path = none := by
  cases hst : fs.lstat cwd path with
  | none =>
    rw [callsAt, hst] at h
    exact .inr (.inr (.inr ⟨List.mem_singleton.mp h, rfl⟩))
  | some st =>
    simp only [callsAt, hst] at h
    split_ifs at h with hkind
    · exact .inl ⟨st, List.mem_singleton.mp h, rfl, hkind⟩
    all_goals
      rcases List.mem_append.mp h with h | h
      all_goals first
        | exact .inr (.inl ⟨st, List.mem_singleton.mp h, not_not.mp hkind⟩)
        | exact .inr (.inr (.inl ⟨st, List.mem_singleton.mp h⟩))
        | cases h

theorem path_of_mem_callsAt {call : Call} (h : call ∈ callsAt fs cwd type path) :
    call.path = path := by
  rcases mem_callsAt h with ⟨st, rfl, -⟩ | ⟨st, rfl, -⟩ | ⟨st, rfl⟩ | ⟨rfl, -⟩ <;> rfl

theorem Acts.record (ha : Acts fs cwd type func act start) :
    Acts fs cwd type (record func) (recordAct act) start where
  returns path hreached call hcall s hs hholds := by
    have hret := ha.returns path hreached call hcall
      ⟨s.fullpath, s.cwd, s.out.stdout, s.out.globals.1⟩ hs hholds
    have hcall' : (⟨text s.fullpath, call.statbuf, call.find⟩ : Call) = call := by
      rw [hholds.text_eq, ← path_of_mem_callsAt hcall]
    rw [Myfind.record, hret, hcall']
    rfl

theorem recorded (l : List Call) (o : Output (G × List Call)) :
    (l.foldl (effect fs cwd type (recordAct act)) o).globals.2 = o.globals.2 ++ l := by
  induction l generalizing o with
  | nil => exact (List.append_nil _).symm
  | cons call l ih =>
    have hout : (effect fs cwd type (recordAct act) o call).globals.2 = o.globals.2 ++ [call] := by
      rw [effect, recordAct, Output.statError]
      split_ifs <;> rfl
    rw [List.foldl_cons, ih, hout, List.append_assoc]
    rfl

end Coursework.Unix.Myfind
