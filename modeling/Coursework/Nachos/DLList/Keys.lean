import Coursework.Nachos.DLList.Sequence
import Mathlib.Order.Bounds.Basic

/-!
# Does a `DLList` stay sorted?

The keys of a list under the calls of one thread. `Prepend` takes the key below the first
one; `Append` always takes the key 1.
-/
namespace Coursework.Nachos.DLList

variable {Addr Item : Type} [DecidableEq Addr] {l l' : DLList Addr Item}
  {cells : List (Addr × DLLElement Addr Item)} {a : Addr} {item : Option Item} {sortKey : ℤ}
  {e : Operation Addr Item} {s : Option (DLList Addr Item)} {ks ks' : List ℤ}

/-- The keys from `first` to `last`. -/
def HasKeys (l : DLList Addr Item) (ks : List ℤ) : Prop :=
  ∃ cells, l.Holds cells ∧ cells.map (·.2.key) = ks

/-- What a call does to the keys. -/
inductive KeyStep : Operation Addr Item → List ℤ → List ℤ → Prop where
  | prepend_nil {item : Option Item} {a : Addr} : KeyStep (.prepend item a) [] [1]
  | prepend {item : Option Item} {a : Addr} {k : ℤ} {ks : List ℤ} :
      KeyStep (.prepend item a) (k :: ks) ((k - 1) :: k :: ks)
  | append {item : Option Item} {a : Addr} {ks : List ℤ} : KeyStep (.append item a) ks (ks ++ [1])
  | sortedInsert {item : Option Item} {sortKey : ℤ} {a : Addr} {rounds : ℕ} {ks₁ ks₂ : List ℤ}
      (hlow : ∀ k ∈ ks₁.getLast?, k ≤ sortKey) (hhigh : ∀ k ∈ ks₂.head?, sortKey < k) :
      KeyStep (.sortedInsert item sortKey a rounds) (ks₁ ++ ks₂) (ks₁ ++ sortKey :: ks₂)
  | remove {k : ℤ} {ks : List ℤ} : KeyStep .remove (k :: ks) ks

theorem Inserted.keyStep {rounds : ℕ} (hi : Inserted l a item sortKey cells l')
    (hl : l.Holds cells) (ha : l.heap a = none) :
    ∃ ks', HasKeys l' ks' ∧
      KeyStep (.sortedInsert item sortKey a rounds) (cells.map (·.2.key)) ks' := by
  cases hi with
  | empty =>
    exact ⟨[sortKey], ⟨_, .single (new_heap_self item sortKey) rfl, rfl⟩,
      @KeyStep.sortedInsert _ _ item sortKey a rounds [] [] nofun nofun⟩
  | front hm hput =>
    refine ⟨_, ⟨_, hput.holds hl ha, rfl⟩, ?_⟩
    exact @KeyStep.sortedInsert _ _ item sortKey a rounds [] _ nofun (by simpa using hm)
  | @middle l₁ l₂ b c m k l' hm hk hput =>
    refine ⟨_, ⟨_, hput.holds hl ha, rfl⟩, ?_⟩
    have hstep := @KeyStep.sortedInsert _ _ item sortKey a rounds ((l₁ ++ [(b, m)]).map (·.2.key))
      (((c, k) :: l₂).map (·.2.key)) (by simpa using hm) (by simpa using hk)
    simpa using hstep
  | @tail l₁ b m l' hm hput =>
    refine ⟨_, ⟨_, hput.holds hl ha, rfl⟩, ?_⟩
    have hstep := @KeyStep.sortedInsert _ _ item sortKey a rounds ((l₁ ++ [(b, m)]).map (·.2.key))
      [] (by simpa using hm) nofun
    simpa using hstep

/-- Every call does to the keys what `KeyStep` says. -/
theorem apply_keyStep (hl : HasKeys l ks) (h : l.apply e = some s) :
    ∃ l' ks', s = some l' ∧ HasKeys l' ks' ∧ KeyStep e ks ks' := by
  obtain ⟨cells, hcells, rfl⟩ := hl
  cases e with
  | prepend item a =>
    rw [apply, Option.ite_none_left_eq_some] at h
    obtain ⟨ha, hs⟩ := h
    have ha' : l.heap a = none := by simpa using ha
    cases cells with
    | nil =>
      rw [prepend_nil hcells] at hs
      exact ⟨_, _, (Option.some.inj hs).symm, ⟨_, .single (new_heap_self item 1) rfl, rfl⟩,
        .prepend_nil⟩
    | cons c cells =>
      obtain ⟨l', hpre, hput⟩ := prepend_putFront hcells ha' item
      rw [hpre] at hs
      exact ⟨l', _, (Option.some.inj hs).symm, ⟨_, hput.holds hcells ha', rfl⟩, .prepend⟩
  | append item a =>
    rw [apply, Option.ite_none_left_eq_some] at h
    obtain ⟨ha, hs⟩ := h
    have ha' : l.heap a = none := by simpa using ha
    rcases cells.eq_nil_or_concat' with rfl | ⟨l₀, c, rfl⟩
    · rw [append_nil hcells] at hs
      exact ⟨_, _, (Option.some.inj hs).symm, ⟨_, .single (new_heap_self item 1) rfl, rfl⟩,
        .append⟩
    · obtain ⟨l', happ, hput⟩ := append_putBack hcells ha' item
      rw [happ] at hs
      refine ⟨l', _, (Option.some.inj hs).symm, ⟨_, hput.holds hcells ha', rfl⟩, ?_⟩
      have hstep := @KeyStep.append _ _ item a ((l₀ ++ [c]).map (·.2.key))
      simpa using hstep
  | sortedInsert item sortKey a rounds =>
    rw [apply, Option.ite_none_left_eq_some] at h
    obtain ⟨ha, hs⟩ := h
    have ha' : l.heap a = none := by simpa using ha
    obtain ⟨l', rfl, hi⟩ := sortedInsert_inserted hcells ha' hs
    obtain ⟨ks', hkeys, hstep⟩ := hi.keyStep hcells ha'
    exact ⟨l', ks', rfl, hkeys, hstep⟩
  | remove =>
    rw [apply, Option.ite_none_left_eq_some] at h
    obtain ⟨hne, hs⟩ := h
    cases cells with
    | nil => exact absurd ((isEmpty_iff hcells).mpr rfl) hne
    | cons c cells =>
      obtain ⟨l', hrem, hl'⟩ := remove_holds hcells
      rw [hrem] at hs
      exact ⟨l', _, (Option.some.inj hs).symm, ⟨_, hl', rfl⟩, .remove⟩

omit [DecidableEq Addr] in
theorem HasKeys.unique (hl : HasKeys l ks) (hl' : HasKeys l ks') : ks = ks' := by
  obtain ⟨cells, hcells, rfl⟩ := hl
  obtain ⟨cells', hcells', rfl⟩ := hl'
  rw [hcells.unique hcells']

/-! ### Sorted keys -/

/-- The key that the header of the class promises to a new element at either end. -/
def Promised : Operation Addr Item → List ℤ → List ℤ → Prop
  | .prepend _ _, ks, ks' => ∀ m, IsLeast {k | k ∈ ks} m → ks' = (m - 1) :: ks
  | .append _ _, ks, ks' => ∀ m, IsGreatest {k | k ∈ ks} m → ks' = ks ++ [m + 1]
  | _, _, _ => True

theorem isLeast_of_sorted {k : ℤ} (hs : (k :: ks).Pairwise (· ≤ ·)) :
    IsLeast {x | x ∈ k :: ks} k := by
  refine ⟨List.mem_cons_self, fun x hx => ?_⟩
  rcases List.mem_cons.mp hx with rfl | hx
  · exact le_rfl
  · exact List.rel_of_pairwise_cons hs hx

theorem isGreatest_of_sorted {k : ℤ} (hs : (ks ++ [k]).Pairwise (· ≤ ·)) :
    IsGreatest {x | x ∈ ks ++ [k]} k := by
  refine ⟨List.mem_append_right _ (List.mem_singleton.mpr rfl), fun x hx => ?_⟩
  rcases List.mem_append.mp hx with hx | hx
  · exact (List.pairwise_append.mp hs).2.2 x hx k (List.mem_singleton.mpr rfl)
  · exact (List.mem_singleton.mp hx).le

/-- An `Append` finds nothing or 0 as the last key. -/
def EndsWithZero : Operation Addr Item → List ℤ → Prop
  | .append _ _, ks => ∀ k ∈ ks.getLast?, k = 0
  | _, _ => True

omit [DecidableEq Addr] in
theorem KeyStep.sorted (h : KeyStep e ks ks') (hs : ks.Pairwise (· ≤ ·))
    (hz : EndsWithZero e ks) : ks'.Pairwise (· ≤ ·) := by
  cases h with
  | prepend_nil => exact List.pairwise_singleton _ _
  | @prepend item a k ks =>
    refine List.pairwise_cons.mpr ⟨fun x hx => ?_, hs⟩
    have hle : k ≤ x := (isLeast_of_sorted hs).2 hx
    omega
  | append =>
    refine List.pairwise_append.mpr ⟨hs, List.pairwise_singleton _ _, fun x hx y hy => ?_⟩
    rcases ks.eq_nil_or_concat' with rfl | ⟨ks₀, k, rfl⟩
    · cases hx
    · have hk : k = 0 := hz k (by simp)
      have hle : x ≤ k := (isGreatest_of_sorted hs).2 hx
      have hy' := List.mem_singleton.mp hy
      omega
  | @sortedInsert item sortKey a rounds ks₁ ks₂ hlow hhigh =>
    obtain ⟨hs₁, hs₂, hcross⟩ := List.pairwise_append.mp hs
    have hlow' : ∀ x ∈ ks₁, x ≤ sortKey := by
      intro x hx
      rcases ks₁.eq_nil_or_concat' with rfl | ⟨ks₀, k, rfl⟩
      · cases hx
      · exact ((isGreatest_of_sorted hs₁).2 hx).trans (hlow k (by simp))
    have hhigh' : ∀ x ∈ ks₂, sortKey ≤ x := by
      intro x hx
      cases ks₂ with
      | nil => cases hx
      | cons k ks₂ => exact (hhigh k rfl).le.trans ((isLeast_of_sorted hs₂).2 hx)
    refine List.pairwise_append.mpr ⟨hs₁, List.pairwise_cons.mpr ⟨hhigh', hs₂⟩, ?_⟩
    intro x hx y hy
    rcases List.mem_cons.mp hy with rfl | hy
    · exact hlow' x hx
    · exact hcross x hx y hy
  | remove => exact hs.of_cons

omit [DecidableEq Addr] in
/-- The promise is kept exactly when no `Append` finds a last key other than 0. -/
theorem KeyStep.promised_iff (h : KeyStep e ks ks') (hs : ks.Pairwise (· ≤ ·)) :
    Promised e ks ks' ↔ EndsWithZero e ks := by
  cases h with
  | prepend_nil => exact ⟨fun _ => trivial, fun _ m hm => by cases hm.1⟩
  | prepend =>
    refine ⟨fun _ => trivial, fun _ m hm => ?_⟩
    rw [hm.unique (isLeast_of_sorted hs)]
  | append =>
    rcases ks.eq_nil_or_concat' with rfl | ⟨ks₀, k, rfl⟩
    · exact ⟨fun _ => nofun, fun _ m hm => by cases hm.1⟩
    · constructor
      · intro hp x hx
        have heq := hp k (isGreatest_of_sorted hs)
        have hone : [1] = [k + 1] := List.append_cancel_left heq
        have hkx : k = x := by simpa using hx
        have h1 : (1 : ℤ) = k + 1 := (List.cons.inj hone).1
        omega
      · intro hz m hm
        have hk : k = 0 := hz k (by simp)
        rw [hm.unique (isGreatest_of_sorted hs), hk, zero_add]
  | sortedInsert hlow hhigh => exact Iff.rfl
  | remove => exact Iff.rfl

/-- The list is there and its keys do not decrease. -/
def IsSorted (s : Option (DLList Addr Item)) : Prop :=
  ∃ l ks, s = some l ∧ HasKeys l ks ∧ ks.Pairwise (· ≤ ·)

/-- The call gives its new element the key that is promised. -/
def GivesKey (s : Option (DLList Addr Item)) (e : Operation Addr Item) : Prop :=
  ∀ s' ∈ sequence.step s e, ∃ l l' ks ks', s = some l ∧ s' = some l' ∧ HasKeys l ks ∧
    HasKeys l' ks' ∧ Promised e ks ks'

/-- An `Append` is called on an empty list, or on one whose last key is 0. -/
def AppendsToZero : Option (DLList Addr Item) → Operation Addr Item → Prop
  | some l, .append _ _ => ∀ n ∈ l.last.bind l.heap, n.key = 0
  | _, _ => True

instance (s : Option (DLList Addr Item)) (e : Operation Addr Item) :
    Decidable (AppendsToZero s e) := by
  unfold AppendsToZero
  split <;> infer_instance

omit [DecidableEq Addr] in
theorem appendsToZero_iff (hl : HasKeys l ks) :
    AppendsToZero (some l) e ↔ EndsWithZero e ks := by
  cases e with
  | append item a =>
    obtain ⟨cells, hcells, rfl⟩ := hl
    rw [AppendsToZero, EndsWithZero]
    rcases hcells.cases_last with ⟨rfl, -, hlast⟩ | ⟨l₀, b, m, rfl, hlast, hb, -⟩
    · simp [hlast]
    · simp [hlast, hb]
  | prepend _ _ | sortedInsert _ _ _ _ | remove => exact Iff.rfl

/-- On a sorted list the two conditions say the same, and with them it stays sorted. -/
theorem IsSorted.step {s' : Option (DLList Addr Item)} (hs : IsSorted s)
    (h : sequence.step s e = some s') :
    (GivesKey s e ↔ AppendsToZero s e) ∧ (AppendsToZero s e → IsSorted s') := by
  obtain ⟨l, ks, rfl, hl, hsorted⟩ := hs
  obtain ⟨l', ks', rfl, hl', hkeys⟩ := apply_keyStep hl h
  rw [appendsToZero_iff hl, ← hkeys.promised_iff hsorted]
  refine ⟨⟨fun hg => ?_, fun hp u hu => ?_⟩, fun hp => ?_⟩
  · obtain ⟨l₁, l₂, ks₁, ks₂, heq₁, heq₂, hk₁, hk₂, hp⟩ := hg _ h
    cases heq₁
    cases heq₂
    rwa [hl.unique hk₁, hl'.unique hk₂]
  · cases (Option.mem_def.mp hu).symm.trans h
    exact ⟨l, l', ks, ks', rfl, rfl, hl, hl', hp⟩
  · exact ⟨l', ks', rfl, hl', hkeys.sorted hsorted ((hkeys.promised_iff hsorted).mp hp)⟩

/-- Along a run the list stays sorted and every new element gets the key that is promised exactly
when every `Append` finds an empty list or 0 as the last key. -/
theorem sorted_with_promised_keys_iff (h0 : sequence.init s) (es : List (Operation Addr Item)) :
    sequence.Visits IsSorted s es ∧ sequence.Meets GivesKey s es ↔
      sequence.Meets AppendsToZero s es := by
  have hstart : IsSorted s := by
    obtain ⟨l, rfl, hnew⟩ := h0
    exact ⟨l, [], rfl, ⟨[], Holds.nil hnew, rfl⟩, List.Pairwise.nil⟩
  constructor
  · rintro ⟨-, hm⟩
    refine hm.imp (I := IsSorted) (fun s e s' hs hg h => ?_) hstart
    have hz := (hs.step h).1.mp hg
    exact ⟨hz, (hs.step h).2 hz⟩
  · intro hm
    refine ⟨hm.visits (I := IsSorted) (fun _ hs => hs)
      (fun s e s' hs hz h => (hs.step h).2 hz) hstart, ?_⟩
    refine hm.imp (I := IsSorted) (fun s e s' hs hz h => ?_) hstart
    exact ⟨(hs.step h).1.mpr hz, (hs.step h).2 hz⟩

/-- Every kind of call, with one `Append` to an empty list and one behind the key 0; the last
`SortedInsert` puts its element in the middle. -/
theorem sorted_with_promised_keys_iff_mixed :
    let es : List (Operation ℕ ℕ) := [.append none 1, .prepend none 2, .remove, .remove,
      .sortedInsert none 0 4 5, .append none 5, .prepend none 6, .sortedInsert none 5 7 5,
      .sortedInsert none 4 8 5]
    (∃ l, sequence.run (some ⟨fun _ => none, none, none⟩) es = some (some l) ∧
      l.keys 6 l.first = [-1, 0, 1, 4, 5]) ∧
    sequence.Visits IsSorted (some ⟨fun _ => none, none, none⟩) es ∧
    sequence.Meets GivesKey (some ⟨fun _ => none, none, none⟩) es :=
  ⟨⟨_, rfl, by decide⟩, (sorted_with_promised_keys_iff ⟨_, rfl, rfl, rfl⟩ _).mpr (by decide)⟩

/-- After `SortedInsert` with the key 5, `Append` puts the key 1 behind it. -/
theorem append_breaks_order :
    ¬ ∀ (s : Option (DLList ℕ ℕ)) es, sequence.init s →
      sequence.Visits IsSorted s es ∧ sequence.Meets GivesKey s es := by
  intro hall
  have hvisits := (hall (some ⟨fun _ => none, none, none⟩)
    [.sortedInsert none 5 1 0, .append none 2] ⟨_, rfl, rfl, rfl⟩).1
  obtain ⟨l, ks, hl, hkeys, hsorted⟩ := hvisits.last rfl
  cases hl
  have hks : ks = [5, 1] := hkeys.unique
    ⟨[(1, ⟨none, some 2, 5, none⟩), (2, ⟨some 1, none, 1, none⟩)],
      ⟨⟨rfl, rfl, rfl, rfl, rfl⟩, by decide, rfl⟩, rfl⟩
  rw [hks] at hsorted
  exact absurd hsorted (by decide)

end Coursework.Nachos.DLList
