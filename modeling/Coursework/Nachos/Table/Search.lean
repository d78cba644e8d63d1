import Coursework.Nachos.Table

/-!
# Does `Alloc` search inside its array?

The loop of `Alloc` tests the slot first and the bound second. The thread has the lock,
so the table stays as it is while the loop runs.
-/
namespace Coursework.Nachos.Table
open Monitor

variable {Obj Tid : Type} [DecidableEq Tid] {n index rounds : ℕ} {t t' : Table Obj}
  {k k' : Loc Obj} {i : Input Obj} {x : Call Cond} {object : Option Obj}

/-- The slot that is read at a location of `Alloc`. -/
def Loc.reads : Loc Obj → List ℕ
  | .scanning _ index => [index]
  | _ => []

/-- `Alloc` of a thread with the lock, from a location up to its `cnt += 1` or to the failed
assertion: the slots that the loop reads, where the thread comes to and what it leaves. -/
def searchFrom : ℕ → Loc Obj → Table Obj → Option (List ℕ × Loc Obj × Table Obj)
  | 0, _, _ => none
  | _ + 1, .stored object ret, t => some ([], .stored object ret, t)
  | _ + 1, .assertFailed, t => some ([], .assertFailed, t)
  | rounds + 1, k, t => do
    let (_, k', t') ← code k t .go
    let (reads, k'', t'') ← searchFrom rounds k' t'
    some (k.reads ++ reads, k'', t'')

/-- `Alloc` reads slots of the table only; it stores its object in the lowest slot that is `NULL`,
or finds none, leaves the table as it is and comes to `ret = -1`. -/
def SearchesInside (n : ℕ) (t : Table Obj) (object : Option Obj) : Prop :=
  ∃ rounds reads k' t', searchFrom rounds (.scanning object 0) t = some (reads, k', t') ∧
    (∀ j ∈ reads, j < n) ∧
    ((∃ index < n, t.slot index = some none ∧ (∀ j < index, t.slot j ≠ some none) ∧
        k' = .stored object index ∧
        t' = { t with tableBase := t.tableBase.set index object }) ∨
      (∀ j < n, t.slot j ≠ some none) ∧ k' = .assertFailed ∧ t' = t)

/-- The array has the size that the table was made with. -/
structure Sized (n : ℕ) (t : Table Obj) : Prop where
  tableSize : t.tableSize = n
  length : t.tableBase.length = n

theorem Sized.setSlot {j : ℤ} (ht : t.Sized n) (h : t.setSlot j object = some t') :
    t'.Sized n := by
  rw [Table.setSlot] at h
  split_ifs at h
  cases h
  exact ⟨ht.tableSize, (List.length_set ..).trans ht.length⟩

theorem Sized.code (ht : t.Sized n) (h : code k t i = some (x, k', t')) : t'.Sized n := by
  unfold Table.code at h
  split at h
  case h_1 | h_2 | h_3 | h_11 => cases h; exact ht
  case h_4 => split_ifs at h <;> cases h <;> exact ht
  case h_5 =>
    split_ifs at h
    · cases h; exact ht
    · split at h
      case h_1 hset => cases h; exact ht.setSlot hset
      case h_2 => cases h; exact ht
  case h_6 | h_9 => split at h <;> cases h <;> exact ⟨ht.tableSize, ht.length⟩
  case h_7 => split at h <;> cases h <;> exact ht
  case h_8 =>
    split at h
    case h_1 hset => cases h; exact ht.setSlot hset
    case h_2 => cases h; exact ht
  case h_10 =>
    split_ifs at h
    · cases h; exact ht
    · split at h <;> cases h <;> exact ht
  case h_12 => cases h

theorem sized {s : State Tid Cond (Loc Obj) (Table Obj)} (hr : (machine n).Reachable s) :
    s.data.Sized n := by
  apply hr.invariant fun s => s.data.Sized n
  · rintro s ⟨-, -, hdata, -⟩
    rw [hdata]
    exact ⟨rfl, List.length_replicate⟩
  · intro s e s' _ hs _ hstep
    rcases State.code_or_kernel (State.steps_of_step hstep) with
      ⟨k, x, k', -, hcode, -⟩ | ⟨-, hdata, -⟩
    · exact hs.code hcode
    · rwa [hdata]

theorem Sized.isFull (ht : t.Sized n) (hi : index < n) :
    t.isFull index = false ↔ t.slot index = some none := by
  have hlt : index < t.tableBase.length := by
    rw [ht.length]
    exact hi
  rw [Table.isFull, slot, if_pos (Int.natCast_nonneg index), Int.toNat_natCast,
    List.getElem?_eq_getElem hlt]
  cases t.tableBase[index] <;> simp

/-- One pass of the loop. -/
theorem searchFrom_scanning (ht : t.Sized n) (hi : index < n)
    (hfull : t.slot index ≠ some none) :
    searchFrom (rounds + 1) (.scanning object index) t =
      (searchFrom rounds (.scanning object (index + 1)) t).map
        fun r => (index :: r.1, r.2) := by
  have hcond : t.isFull index = true ∧ (index : ℤ) < t.tableSize := by
    rw [ht.tableSize]
    exact ⟨Bool.eq_true_of_not_eq_false (mt (ht.isFull hi).mp hfull), by omega⟩
  simp only [searchFrom, Table.code, if_pos hcond, Option.bind_eq_bind, Option.bind_some]
  cases searchFrom rounds (.scanning object (index + 1)) t <;> rfl

/-- The loop stops at a slot that is `NULL`. -/
theorem searchFrom_null (ht : t.Sized n) (hi : index < n) (hnull : t.slot index = some none) :
    searchFrom (rounds + 3) (.scanning object index) t = some ([index], .stored object index,
      { t with tableBase := t.tableBase.set index object }) := by
  have hcond : ¬ (t.isFull index = true ∧ (index : ℤ) < t.tableSize) := by
    rw [(ht.isFull hi).mpr hnull]
    simp
  have hlt : ¬ (index : ℤ) ≥ t.tableSize := by
    rw [ht.tableSize]
    omega
  have hset : t.setSlot index object =
      some { t with tableBase := t.tableBase.set index object } := by
    rw [Table.setSlot, if_pos ⟨Int.natCast_nonneg index, by rw [ht.length]; omega⟩,
      Int.toNat_natCast]
  simp only [searchFrom, Table.code, if_neg hcond, if_neg hlt, hset, Option.bind_eq_bind,
    Option.bind_some, Loc.reads, List.append_nil]

/-- Past the last slot the loop reads once more and stops. -/
theorem searchFrom_end (ht : t.Sized n) :
    searchFrom (rounds + 3) (.scanning object n) t = some ([n], .assertFailed, t) := by
  have hcond : ¬ (t.isFull n = true ∧ (n : ℤ) < t.tableSize) := by
    rw [ht.tableSize]
    simp
  have hge : (n : ℤ) ≥ t.tableSize := by
    rw [ht.tableSize]
  simp only [searchFrom, Table.code, if_neg hcond, if_pos hge, Option.bind_eq_bind,
    Option.bind_some, Loc.reads, List.append_nil]

/-- The loop passes the slots that are not `NULL`. -/
theorem searchFrom_skip (ht : t.Sized n) {m : ℕ} (hm : index + m ≤ n)
    (hfull : ∀ j < m, t.slot (index + j : ℕ) ≠ some none) :
    searchFrom (rounds + m) (.scanning object index) t =
      (searchFrom rounds (.scanning object (index + m)) t).map
        fun r => (List.range' index m ++ r.1, r.2) := by
  induction m generalizing index with
  | zero => simp
  | succ m ih =>
    have hnext (j : ℕ) (hj : j < m) : t.slot (index + 1 + j : ℕ) ≠ some none := by
      have h := hfull (j + 1) (by omega)
      rwa [Nat.add_comm j 1, ← Nat.add_assoc] at h
    rw [← Nat.add_assoc rounds, searchFrom_scanning ht (by omega)
      (by simpa using hfull 0 (by omega)),
      ih (by omega) hnext, Option.map_map, List.range'_succ, Nat.add_assoc, Nat.add_comm 1]
    rfl

/-- On a full table `Alloc` reads all slots and the one behind them, and its `ASSERT` fails. -/
theorem searchFrom_full (ht : t.Sized n) (hfull : ∀ j < n, t.slot j ≠ some none) :
    searchFrom (rounds + 3 + n) (.scanning object 0) t =
      some (List.range n ++ [n], .assertFailed, t) := by
  have hpass : ∀ j < n, t.slot (0 + j : ℕ) ≠ some none := by simpa using hfull
  have hread : searchFrom (rounds + 3) (.scanning object n) t = some ([n], .assertFailed, t) :=
    searchFrom_end ht
  rw [searchFrom_skip ht (Nat.zero_add n).le hpass, Nat.zero_add, hread,
    List.range_eq_range']
  rfl

/-- When every slot is taken the loop reads behind the last one. -/
theorem mem_reads_of_full (ht : t.Sized n) (hfull : ∀ j < n, t.slot j ≠ some none)
    (hi : index ≤ n) {r : List ℕ × Loc Obj × Table Obj}
    (h : searchFrom rounds (.scanning object index) t = some r) : n ∈ r.1 := by
  induction rounds generalizing index r with
  | zero => cases h
  | succ rounds ih =>
    rcases Nat.lt_or_ge index n with hlt | hge
    · rw [searchFrom_scanning ht hlt (hfull index hlt)] at h
      obtain ⟨r', hr', rfl⟩ := Option.map_eq_some_iff.mp h
      exact List.mem_cons_of_mem _ (ih hlt hr')
    · obtain rfl : index = n := by omega
      simp only [searchFrom] at h
      obtain ⟨next, -, h⟩ := Option.bind_eq_some_iff.mp h
      obtain ⟨r', -, h⟩ := Option.bind_eq_some_iff.mp h
      cases h
      exact List.mem_cons_self

theorem SearchesInside.exists_null (ht : t.Sized n) (hs : SearchesInside n t object) :
    ∃ index < n, t.slot index = some none := by
  by_contra hnone
  push Not at hnone
  obtain ⟨rounds, reads, k', t', hrun, hreads, -⟩ := hs
  exact absurd (hreads n (mem_reads_of_full ht hnone (Nat.zero_le n) hrun)) (lt_irrefl n)

theorem searchesInside_of_null (ht : t.Sized n) (hnull : ∃ index < n, t.slot index = some none)
    (object : Option Obj) : SearchesInside n t object := by
  classical
  have hfirst := Nat.find_spec hnull
  have hmin : ∀ j < Nat.find hnull, t.slot j ≠ some none := by
    intro j hj hslot
    exact Nat.find_min hnull hj ⟨hj.trans hfirst.1, hslot⟩
  have hrun : searchFrom (0 + 3 + Nat.find hnull) (.scanning object (0 : ℕ)) t = _ :=
    searchFrom_skip ht (by omega) fun j hj => by simpa using hmin j hj
  rw [Nat.zero_add (Nat.find hnull), searchFrom_null ht hfirst.1 hfirst.2] at hrun
  refine ⟨_, _, _, _, hrun, fun j hj => ?_, .inl ⟨_, hfirst.1, hfirst.2, hmin, rfl, rfl⟩⟩
  rcases List.mem_append.mp hj with hj | hj
  · rw [List.mem_range'_1] at hj
    omega
  · rw [List.mem_singleton.mp hj]
    exact hfirst.1

/-- In every reachable state `Alloc` would search inside its array exactly when one of the slots
is `NULL`. -/
theorem alloc_searches_inside_iff {s : State Tid Cond (Loc Obj) (Table Obj)}
    (hr : (machine n).Reachable s) (object : Option Obj) :
    SearchesInside n s.data object ↔ ∃ index < n, s.data.slot index = some none :=
  ⟨fun hs => hs.exists_null (sized hr), fun hnull => searchesInside_of_null (sized hr) hnull object⟩

/-- One call of `Alloc`. -/
def allocOne : List (Event (Fin 2) (Input ℕ)) :=
  ⟨t0, .alloc (some 5)⟩ :: List.replicate 9 ⟨t0, .go⟩

theorem alloc_searches_inside_iff_second :
    ∃ s, (machine 2).run (startState none (new 2) (.outside none)) allocOne = some s ∧
      s.data.tableBase = [some 5, none] ∧ SearchesInside 2 s.data (some 6) := by
  have h0 : (machine 2).init (startState none (new 2) (.outside none) :
      State (Fin 2) Cond (Loc ℕ) (Table ℕ)) := start_startState rfl
  have hr : (machine 2).Reachable _ := Machine.Reachable.run allocOne (.init h0) rfl
  exact ⟨_, rfl, rfl, (alloc_searches_inside_iff hr (some 6)).mpr ⟨1, by decide, rfl⟩⟩

/-- In a table of one slot that is taken, the next `Alloc` reads the slot after it. -/
theorem alloc_reads_behind_table :
    ¬ ∀ (n : ℕ) (s : State (Fin 2) Cond (Loc ℕ) (Table ℕ)) (object : Option ℕ), 1 ≤ n →
      (machine n).Reachable s → SearchesInside n s.data object := by
  intro hall
  have h0 : (machine 1).init (startState none (new 1) (.outside none) :
      State (Fin 2) Cond (Loc ℕ) (Table ℕ)) := start_startState rfl
  have hr : (machine 1).Reachable _ := Machine.Reachable.run allocOne (.init h0) rfl
  obtain ⟨index, hi, hnull⟩ := (hall 1 _ (some 6) le_rfl hr).exists_null (sized hr)
  obtain rfl : index = 0 := by omega
  cases hnull

end Coursework.Nachos.Table
