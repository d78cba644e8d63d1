import Coursework.Unix.Myfind.Walk

/-!
# What `myfind` counts

Without further arguments `myfind` calls `myfunc1` at every node that is reached. Each counter is in
the end the number of these nodes that it stands for.
-/
namespace Coursework.Unix.Myfind
open CString

variable {Cwd : Type} {fs : FileSystem Cwd} {cwd : Cwd} {junk : Path → ℤ} {n depth : ℕ}
  {path start : Path} {call : Call} {o : Output Counters}

/-- The nodes that are reached and have such a status. -/
noncomputable def FileSystem.number (fs : FileSystem Cwd) (cwd : Cwd) (start : Path)
    (p : Stat → Bool) : ℕ :=
  {path | fs.Reached cwd start path ∧ (fs.lstat cwd path).any p = true}.ncard

def isLittle (st : Stat) : Bool := st.kind ≠ .dir ∧ st.size ≤ 4096

noncomputable def FileSystem.statistics (fs : FileSystem Cwd) (cwd : Cwd) (start : Path) :
    Counters where
  nreg := fs.number cwd start (·.kind = .reg)
  ndir := fs.number cwd start (·.kind = .dir)
  nblk := fs.number cwd start (·.kind = .blk)
  nchr := fs.number cwd start (·.kind = .chr)
  nfifo := fs.number cwd start (·.kind = .fifo)
  nslink := fs.number cwd start (·.kind = .lnk)
  nsock := fs.number cwd start (·.kind = .sock)
  nlit := fs.number cwd start isLittle

/-! ### One call -/

def myfunc1Act (call : Call) (o : Output Counters) : Output Counters :=
  match call with
  | ⟨_, some st, .f⟩ => { o with globals := o.globals.ofFile st }
  | ⟨_, _, .d⟩ => { o with globals := { o.globals with ndir := o.globals.ndir + 1 } }
  | _ => o

theorem myfunc1_acts : Acts fs cwd .p myfunc1 myfunc1Act start where
  returns path _ call hcall s _ _ := by
    rcases mem_callsAt hcall with ⟨st, rfl, -⟩ | ⟨st, rfl, -⟩ | ⟨st, rfl⟩ | ⟨rfl, -⟩ <;> rfl

/-- The call is the first one at a node with such a status. -/
def Call.isOf (p : Stat → Bool) (call : Call) : Bool := call.find ≠ .dnr ∧ call.statbuf.any p

def Counters.value (c : Counters) : Kind → ℕ
  | .reg => c.nreg
  | .dir => c.ndir
  | .blk => c.nblk
  | .chr => c.nchr
  | .fifo => c.nfifo
  | .lnk => c.nslink
  | .sock => c.nsock

theorem value_ofFile (c : Counters) (st : Stat) (k : Kind) (hdir : st.kind ≠ .dir) :
    (c.ofFile st).value k = c.value k + if st.kind = k then 1 else 0 := by
  have hlittle (c : Counters) (m : ℕ) : ({ c with nlit := m } : Counters).value k = c.value k := by
    cases k <;> rfl
  have hkind : (c.ofKind st.kind).value k = c.value k + if st.kind = k then 1 else 0 := by
    rcases st with ⟨kind, size⟩
    cases kind with
    | dir => exact absurd rfl hdir
    | _ => cases k <;> rfl
  rw [← hkind, Counters.ofFile]
  by_cases hsize : st.size ≤ 4096
  · simp only [hsize, if_true]
    exact hlittle _ _
  · simp only [hsize, if_false]

theorem nlit_ofFile (c : Counters) (st : Stat) (hdir : st.kind ≠ .dir) :
    (c.ofFile st).nlit = c.nlit + if isLittle st then 1 else 0 := by
  have hkind (c : Counters) : (c.ofKind st.kind).nlit = c.nlit := by
    cases st.kind <;> rfl
  have hlittle : isLittle st = decide (st.size ≤ 4096) := by
    simp [isLittle, hdir]
  by_cases hsize : st.size ≤ 4096 <;> simp [hlittle, Counters.ofFile, hsize, hkind]

theorem myfunc1Act_value (k : Kind) (h : call ∈ callsAt fs cwd .p path) :
    (myfunc1Act call o).globals.value k =
      o.globals.value k + if call.isOf (·.kind = k) then 1 else 0 := by
  rcases mem_callsAt h with ⟨st, rfl, -, hdir⟩ | ⟨st, rfl, hdir⟩ | ⟨st, rfl⟩ | ⟨rfl, -⟩
  · simpa [Call.isOf, myfunc1Act] using value_ofFile o.globals st k hdir
  · rcases st with ⟨kind, size⟩
    cases hdir
    cases k <;> rfl
  · rfl
  · rfl

theorem myfunc1Act_nlit (h : call ∈ callsAt fs cwd .p path) :
    (myfunc1Act call o).globals.nlit =
      o.globals.nlit + if call.isOf isLittle then 1 else 0 := by
  rcases mem_callsAt h with ⟨st, rfl, -, hdir⟩ | ⟨st, rfl, hdir⟩ | ⟨st, rfl⟩ | ⟨rfl, -⟩
  · simpa [Call.isOf, myfunc1Act] using nlit_ofFile o.globals st hdir
  · simp [myfunc1Act, Call.isOf, isLittle, hdir]
  · rfl
  · rfl

/-! ### The whole walk -/

/-- The calls that come first at their nodes. -/
theorem first_calls (p : Stat → Bool) (path : Path) :
    ((callsAt fs cwd .p path).filter (Call.isOf p)).map Call.path =
      if (fs.lstat cwd path).any p then [path] else [] := by
  cases hst : fs.lstat cwd path with
  | none =>
    rw [callsAt, hst]
    rfl
  | some st =>
    by_cases hdir : st.kind = .dir
    · cases hopen : fs.opendir cwd path <;> cases hp : p st <;>
        simp [callsAt, hst, hdir, hopen, Call.isOf, hp]
    · cases hp : p st <;> simp [callsAt, hst, hdir, Call.isOf, hp]

theorem effect_p (act : Call → Output Counters → Output Counters) (o : Output Counters)
    (call : Call) : effect fs cwd .p act o call = act call o := by
  rw [effect, Output.statError]
  split_ifs with h h'
  · cases h'
  · rfl
  · rfl

/-- A counter that grows by one at the first call of certain nodes ends as their number. -/
theorem counted (value : Counters → ℕ) {p : Stat → Bool} (ht : Tree fs cwd n start)
    (hact : ∀ path, ∀ call ∈ callsAt fs cwd .p path, ∀ o : Output Counters,
      value (myfunc1Act call o).globals = value o.globals + if call.isOf p then 1 else 0)
    (h0 : value o.globals = 0) :
    value ((calls fs cwd .p n start).foldl (effect fs cwd .p myfunc1Act) o).globals =
      fs.number cwd start p := by
  have hfold (l : List Call) (hl : ∀ call ∈ l, ∃ path, call ∈ callsAt fs cwd .p path)
      (o : Output Counters) : value (l.foldl (effect fs cwd .p myfunc1Act) o).globals =
        value o.globals + l.countP (Call.isOf p) := by
    induction l generalizing o with
    | nil => rfl
    | cons call l ih =>
      obtain ⟨path, hcall⟩ := hl call List.mem_cons_self
      rw [List.foldl_cons, ih (fun c hc => hl c (List.mem_cons_of_mem call hc)), effect_p,
        hact path call hcall, List.countP_cons]
      omega
  rw [calls, hfold _ (fun call hc => (List.mem_flatMap.mp hc).imp fun _ h => h.2), h0, zero_add,
    countP_flatMap (first_calls p), countP_preorder ht.depth ht.nodup_paths]
  rfl

theorem eq_statistics {c : Counters} (hkind : ∀ k, c.value k = fs.number cwd start (·.kind = k))
    (hlittle : c.nlit = fs.number cwd start isLittle) : c = fs.statistics cwd start := by
  rw [FileSystem.statistics, ← hkind .reg, ← hkind .dir, ← hkind .blk, ← hkind .chr,
    ← hkind .fifo, ← hkind .lnk, ← hkind .sock, ← hlittle]
  rfl

/-- The branch `TYPE_P` calls its function once at each node, apart from `FIND_DNR`. -/
theorem visits_p (path : Path) :
    ((callsAt fs cwd .p path).filter fun call => call.find ≠ .dnr).map Call.path = [path] := by
  cases hst : fs.lstat cwd path with
  | none =>
    rw [callsAt, hst]
    rfl
  | some st =>
    by_cases hdir : st.kind = .dir
    · cases hopen : fs.opendir cwd path <;> simp [callsAt, hst, hdir, hopen]
    · simp [callsAt, hst, hdir]

/-- From any directory `myfind` returns zero with every counter the number of nodes that it stands
for and the starting path in `fullpath`, and it has come to every node once: the first calls at the
nodes are for the paths that can be reached, each of them once. -/
theorem statistics_exact (junk : Path → ℤ) {s : State Cwd Counters} (hstart : StartPath fs s.cwd start)
    (ht : Tree fs s.cwd n start) (hdepth : n ≤ depth) (hsize : s.fullpath.length = pathSize)
    (h0 : s.out.globals = ⟨0, 0, 0, 0, 0, 0, 0, 0⟩) :
    (∃ s', myfind fs junk depth start myfunc1 .p s = some (0, s') ∧
      s'.out.globals = fs.statistics s.cwd start ∧ text s'.fullpath = start ∧ s'.cwd = s.cwd) ∧
    ∃ s', myfind fs junk depth start (record myfunc1) .p
        ⟨s.fullpath, s.cwd, s.out.stdout, s.out.globals, []⟩ = some (0, s') ∧
      ((s'.out.globals.2.filter fun call => call.find ≠ .dnr).map Call.path).Nodup ∧
      ∀ path, path ∈ (s'.out.globals.2.filter fun call => call.find ≠ .dnr).map Call.path ↔
        fs.Reached s.cwd start path := by
  refine ⟨?_, ?_⟩
  · obtain ⟨r, s', hrun, hout⟩ := myfind_outcome junk hstart ht myfunc1_acts hdepth hsize
    obtain rfl := hout.zero.mpr (.inl rfl)
    refine ⟨s', hrun, ?_, hout.holds.text_eq, hout.stays⟩
    rw [hout.out (.inl rfl)]
    refine eq_statistics (fun k => ?_) ?_
    · refine counted (fun c => c.value k) ht (fun path call h o => ?_) ?_
      · exact myfunc1Act_value k h
      · rw [h0]
        cases k <;> rfl
    · refine counted Counters.nlit ht (fun path call h o => myfunc1Act_nlit h) ?_
      rw [h0]
  · obtain ⟨r, s', hrun, hout⟩ := myfind_outcome junk
      (s := ⟨s.fullpath, s.cwd, s.out.stdout, s.out.globals, []⟩) hstart ht
      (Acts.record myfunc1_acts) hdepth hsize
    obtain rfl := hout.zero.mpr (.inl rfl)
    have htrace : (s'.out.globals.2.filter fun call => call.find ≠ .dnr).map Call.path =
        fs.paths s.cwd n start := by
      rw [hout.out (.inl rfl), recorded, List.nil_append, calls,
        filter_map_flatMap (p := fun _ => true) fun path => visits_p path]
      exact List.filter_true _
    refine ⟨s', hrun, ?_, fun path => ?_⟩
    · rw [htrace]
      exact ht.nodup_paths
    · rw [htrace]
      exact mem_preorder ht.depth

/-- A directory `d` with a file `x`, a directory `...` that cannot be read and an entry `y` that
cannot be stat'ed. -/
def oneFile : FileSystem Unit where
  lstat _ path :=
    if path = [100] then some ⟨.dir, 4096⟩
    else if path = [100, 47, 120] then some ⟨.reg, 10⟩
    else if path = [100, 47, 46, 46, 46] then some ⟨.dir, 4096⟩
    else none
  opendir _ path :=
    if path = [100] then some [[46], [120], [46, 46], [46, 46, 46], [121]] else none
  chdir _ _ := none
  getcwd _ := [47]

set_option maxRecDepth 4000 in
theorem statistics_exact_oneFile :
    oneFile.statistics () [100] = ⟨1, 2, 0, 0, 0, 0, 0, 1⟩ := by
  have hstart : StartPath oneFile () [100] := ⟨by decide, by decide, by decide⟩
  have ht : Tree oneFile () 2 [100] := by
    refine ⟨by decide, fun path names _ _ hopen => ?_⟩
    obtain ⟨rfl, heq⟩ := Option.ite_none_right_eq_some.mp hopen
    cases heq
    exact ⟨by decide, by decide, by decide, by decide⟩
  obtain ⟨⟨s', hrun, hglobals, -⟩, -⟩ := statistics_exact (fun _ => 0)
    (s := ⟨List.replicate 255 0, (), [], 0, 0, 0, 0, 0, 0, 0, 0⟩) hstart ht (le_refl 2)
    List.length_replicate rfl
  rw [← hglobals]
  have heval : (myfind oneFile (fun _ => 0) 2 [100] myfunc1 .p
      ⟨List.replicate 255 0, (), [], 0, 0, 0, 0, 0, 0, 0, 0⟩).map (fun p => p.2.out.globals) =
        some ⟨1, 2, 0, 0, 0, 0, 0, 1⟩ := rfl
  rw [hrun] at heval
  exact Option.some.inj heval

end Coursework.Unix.Myfind
