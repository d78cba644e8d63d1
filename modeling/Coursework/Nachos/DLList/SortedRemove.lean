import Coursework.Nachos.DLList.Sequence

/-!
# When does `SortedRemove` do what its header says?

A first element with the key makes the list empty, and an element with the key before the last one
is read after it was deleted. What is left is the last element.
-/
namespace Coursework.Nachos.DLList

variable {Addr Item : Type} [DecidableEq Addr] {l : DLList Addr Item}
  {cells mid l₁ : List (Addr × DLLElement Addr Item)} {a b : Addr} {m n : DLLElement Addr Item}
  {c₀ c₁ : Addr × DLLElement Addr Item} {sortKey : ℤ} {rounds : ℕ} {p : Option Addr}
  {garbage : Option Item} {r : Removal Addr Item}

/-- An element without its links. -/
def kept (c : Addr × DLLElement Addr Item) : Addr × ℤ × Option Item := (c.1, c.2.key, c.2.item)

/-- What the header of the class says of a list of these elements: the first one with the key is
taken out and its item returned, or `NULL` when there is none. -/
def RemovesFirst (cells : List (Addr × DLLElement Addr Item)) (sortKey : ℤ) :
    Removal Addr Item → Prop
  | .removed thing l' => ∃ l₁ c l₂ cells', cells = l₁ ++ c :: l₂ ∧ (∀ d ∈ l₁, d.2.key ≠ sortKey) ∧
      c.2.key = sortKey ∧ thing = c.2.item ∧ l'.Linked cells' ∧
      cells'.map kept = (l₁ ++ l₂).map kept
  | .absent => ∀ c ∈ cells, c.2.key ≠ sortKey
  | .fault => False

/-- The only element has the key, and the variable that is not set holds its item; or there are
two elements or more, and none but the last may have the key. -/
def OnlyLast (cells : List (Addr × DLLElement Addr Item)) (sortKey : ℤ) (garbage : Option Item) :
    Prop :=
  (∃ c, cells = [c] ∧ c.2.key = sortKey ∧ garbage = c.2.item) ∨
  ∃ c₀ mid c₁, cells = c₀ :: (mid ++ [c₁]) ∧ c₀.2.key ≠ sortKey ∧ ∀ c ∈ mid, c.2.key ≠ sortKey

/-! ### The loop -/

theorem scan_last (hl : l.Linked (l₁ ++ [(b, m), (a, n)])) (rounds : ℕ) :
    l.scan sortKey (rounds + 1) (some a) =
      if n.key = sortKey then
        some (.removed n.item ⟨Function.update (Function.update l.heap b
          (some { m with next := none })) a none, l.first, some b⟩)
      else some .absent := by
  have ha : l.heap a = some n := hl.forward.seg.mem (c := (a, n)) (by simp)
  have hb : l.heap b = some m := hl.forward.seg.mem (c := (b, m)) (by simp)
  have hprev : n.prev = some b := hl.links.2
  have hnext : n.next = none := by
    have hl' : l.Linked ((l₁ ++ [(b, m)]) ++ [(a, n)]) := by simpa using hl
    exact hl'.next_last
  simp only [scan, ha, hnext, hprev, write_of_some hb]

omit [DecidableEq Addr] in
theorem seg_head {q : Option Addr} (hs : Seg DLLElement.next l.heap p (mid ++ [c₁]) q) :
    p = ((mid ++ [c₁]).map Prod.fst).head? := by
  cases mid with
  | nil => exact hs.1
  | cons c mid => exact hs.1

/-- The loop over elements without the key. -/
theorem scan_skip (hl : l.Holds (l₁ ++ (mid ++ [c₁]))) (hmid : ∀ c ∈ mid, c.2.key ≠ sortKey)
    (rounds : ℕ) :
    l.scan sortKey (mid.length + rounds) ((mid ++ [c₁]).map Prod.fst).head? =
      l.scan sortKey rounds (some c₁.1) := by
  induction mid generalizing l₁ with
  | nil => simp
  | cons c mid ih =>
    have hl' : l.Holds ((l₁ ++ [c]) ++ (mid ++ [c₁])) := by simpa using hl
    obtain ⟨q, -, hseg⟩ := seg_append.mp hl.seg
    obtain ⟨-, hc, hrest⟩ := hseg
    have hhead := seg_head hrest
    have hkey : c.2.key ≠ sortKey := hmid c List.mem_cons_self
    rw [← ih hl' fun d hd => hmid d (List.mem_cons_of_mem _ hd)]
    simp only [List.cons_append, List.map_cons, List.head?_cons, List.length_cons,
      Nat.succ_add, scan, hc, hhead]
    cases hq : ((mid ++ [c₁]).map Prod.fst).head? with
    | none => simp at hq
    | some q => simp [hkey]

/-- The loop over elements one of which has the key. -/
theorem scan_found (hl : l.Holds (l₁ ++ (mid ++ [c₁]))) (hmid : ∃ c ∈ mid, c.2.key = sortKey)
    (h : l.scan sortKey rounds ((mid ++ [c₁]).map Prod.fst).head? = some r) : r = .fault := by
  induction mid generalizing l₁ rounds with
  | nil => simp at hmid
  | cons c mid ih =>
    have hl' : l.Holds ((l₁ ++ [c]) ++ (mid ++ [c₁])) := by simpa using hl
    obtain ⟨q, -, hseg⟩ := seg_append.mp hl.seg
    obtain ⟨-, hc, hrest⟩ := hseg
    have hhead := seg_head hrest
    cases rounds with
    | zero => cases h
    | succ rounds =>
      simp only [List.cons_append, List.map_cons, List.head?_cons, scan, hc, hhead] at h
      cases hq : ((mid ++ [c₁]).map Prod.fst).head? with
      | none => simp at hq
      | some q =>
        simp only [hq] at h
        split_ifs at h with hkey
        · cases h
          rfl
        · rw [← hq] at h
          obtain ⟨d, hd, hdkey⟩ := hmid
          rcases List.mem_cons.mp hd with rfl | hd
          · exact absurd hdkey hkey
          · exact ih hl' ⟨d, hd, hdkey⟩ h

/-! ### The call -/

theorem sortedRemove_first (hl : l.Holds (c₀ :: cells)) (hkey : c₀.2.key = sortKey) (rounds : ℕ)
    (garbage : Option Item) : l.sortedRemove sortKey rounds garbage =
      some (.removed garbage { l with first := none, last := none }) := by
  obtain ⟨hfirst, hc, -⟩ := hl.seg
  simp only [sortedRemove, hfirst, hc, if_pos hkey]

theorem sortedRemove_other (hl : l.Holds (c₀ :: cells)) (hkey : c₀.2.key ≠ sortKey)
    (rounds : ℕ) (garbage : Option Item) :
    l.sortedRemove sortKey rounds garbage = l.scan sortKey rounds c₀.2.next := by
  obtain ⟨hfirst, hc, -⟩ := hl.seg
  simp only [sortedRemove, hfirst, hc, if_neg hkey]

/-- A list of one element without the key: the loop begins at the null pointer. -/
theorem scan_null (h : l.scan sortKey rounds none = some r) : r = .fault := by
  cases rounds with
  | zero => cases h
  | succ rounds =>
    cases h
    rfl

theorem removed_linked {c : Addr × DLLElement Addr Item} (hl : l.Linked (l₁ ++ [(b, m), c])) :
    (⟨Function.update (Function.update l.heap b (some { m with next := none })) c.1 none, l.first,
      some b⟩ : DLList Addr Item).Linked (l₁ ++ [(b, { m with next := none })]) := by
  have hne : b ≠ c.1 := by
    rintro rfl
    have hnd := hl.forward.nodup
    simp [List.nodup_append'] at hnd
  refine hl.pop_back ?_ rfl rfl fun x hxa hxb => ?_
  · exact (Function.update_of_ne hne _ _).trans (Function.update_self ..)
  · exact (Function.update_of_ne hxa _ _).trans (Function.update_of_ne hxb _ _)

theorem OnlyLast.removesFirst (ho : OnlyLast cells sortKey garbage) (hl : l.Linked cells) :
    ∃ r, RemovesFirst cells sortKey r ∧ ∀ rounds, cells.length ≤ rounds →
      l.sortedRemove sortKey rounds garbage = some r := by
  rcases ho with ⟨c, rfl, hkey, rfl⟩ | ⟨c₀, mid, c₁, rfl, hfirst, hmid⟩
  · exact ⟨.removed _ _, ⟨[], c, [], [], rfl, nofun, hkey, rfl, .nil, rfl⟩,
      fun rounds _ => sortedRemove_first hl.forward hkey rounds _⟩
  · obtain ⟨-, -, hseg⟩ := hl.forward.seg
    have hscan (k : ℕ) : l.sortedRemove sortKey (mid.length + k) garbage =
        l.scan sortKey k (some c₁.1) := by
      rw [sortedRemove_other hl.forward hfirst, seg_head hseg]
      exact scan_skip (show l.Holds ([c₀] ++ (mid ++ [c₁])) from hl.forward) hmid k
    obtain ⟨l₀, ⟨b, m⟩, hl₀⟩ : ∃ l₀ d, c₀ :: mid = l₀ ++ [d] :=
      (List.eq_nil_or_concat' (c₀ :: mid)).resolve_left (List.cons_ne_nil _ _)
    have hcells : c₀ :: (mid ++ [c₁]) = l₀ ++ [(b, m), c₁] := by
      rw [← List.cons_append, hl₀, List.append_assoc, List.singleton_append]
    have hbefore : ∀ d ∈ l₀ ++ [(b, m)], d.2.key ≠ sortKey := by
      intro d hd
      rw [← hl₀] at hd
      rcases List.mem_cons.mp hd with rfl | hd
      · exact hfirst
      · exact hmid d hd
    rw [hcells] at hl
    -- however many rounds the loop may make, it ends at the last element
    have hlast (rounds : ℕ) (hrounds : (c₀ :: (mid ++ [c₁])).length ≤ rounds) :
        ∃ k, l.sortedRemove sortKey rounds garbage = l.scan sortKey (k + 1) (some c₁.1) := by
      simp only [List.length_cons, List.length_append, List.length_nil] at hrounds
      refine ⟨rounds - mid.length - 1, ?_⟩
      rw [← hscan]
      congr 1
      omega
    by_cases hkey : c₁.2.key = sortKey
    · have hpop := removed_linked hl
      refine ⟨.removed _ _, ⟨l₀ ++ [(b, m)], c₁, [], _, by rw [hcells]; simp, hbefore, hkey, rfl, hpop,
        by simp [kept]⟩, fun rounds hrounds => ?_⟩
      obtain ⟨k, hk⟩ := hlast rounds hrounds
      rw [hk, scan_last hl k, if_pos hkey]
    · refine ⟨.absent, fun d hd => ?_, fun rounds hrounds => ?_⟩
      · rw [hcells] at hd
        have hd' : d ∈ l₀ ++ [(b, m)] ∨ d = c₁ := by simpa [or_assoc] using hd
        rcases hd' with hd' | rfl
        · exact hbefore d hd'
        · exact hkey
      · obtain ⟨k, hk⟩ := hlast rounds hrounds
        rw [hk, scan_last hl k, if_neg hkey]

omit [DecidableEq Addr] in
/-- When the first element has the key and there are others, they are lost. -/
theorem not_removesFirst_of_first {l' : DLList Addr Item} {thing : Option Item}
    (hempty : l'.first = none) : ¬ RemovesFirst (c₀ :: c₁ :: cells) sortKey (.removed thing l') := by
  rintro ⟨l₁, c, l₂, cells', hcells, -, -, -, hl', hkept⟩
  obtain rfl : cells' = [] := hl'.forward.eq_nil_iff.mp hempty
  have hlen := congrArg List.length hcells
  have hlen' := congrArg List.length hkept
  simp only [List.length_cons, List.length_append, List.length_map, List.length_nil] at hlen hlen'
  omega

/-- `SortedRemove` takes out the first element with the key, or returns `NULL` when there is none,
exactly when no element but the last has the key and there are two at least; a single element with
the key is taken out and its item returned by chance. -/
theorem sortedRemove_iff (hl : l.Linked cells) (hne : cells ≠ []) (sortKey : ℤ)
    (garbage : Option Item) :
    (∃ r, RemovesFirst cells sortKey r ∧ ∀ rounds, cells.length ≤ rounds →
      l.sortedRemove sortKey rounds garbage = some r) ↔ OnlyLast cells sortKey garbage := by
  refine ⟨?_, fun ho => ho.removesFirst hl⟩
  rintro ⟨r, hr, hrounds⟩
  have h := hrounds _ le_rfl
  obtain ⟨c₀, rest, rfl⟩ := List.exists_cons_of_ne_nil hne
  by_cases hkey : c₀.2.key = sortKey
  · rw [sortedRemove_first hl.forward hkey] at h
    cases h
    cases rest with
    | nil =>
      obtain ⟨l₁, c, l₂, cells', hcells, -, -, hthing, -, -⟩ := hr
      have hc : c = c₀ := by
        have hmem : c ∈ [c₀] := hcells ▸ List.mem_append_right _ List.mem_cons_self
        exact List.mem_singleton.mp hmem
      exact .inl ⟨c₀, rfl, hkey, hc ▸ hthing⟩
    | cons c₁ rest => exact absurd hr (not_removesFirst_of_first rfl)
  · rw [sortedRemove_other hl.forward hkey] at h
    obtain ⟨-, -, hseg⟩ := hl.forward.seg
    rcases rest.eq_nil_or_concat' with rfl | ⟨mid, c₁, rfl⟩
    · have hnull : c₀.2.next = none := hseg
      rw [hnull] at h
      rw [scan_null h] at hr
      exact hr.elim
    · refine .inr ⟨c₀, mid, c₁, rfl, hkey, ?_⟩
      by_contra hfound
      push Not at hfound
      rw [seg_head hseg] at h
      have hl' : l.Holds ([c₀] ++ (mid ++ [c₁])) := hl.forward
      rw [scan_found hl' hfound h] at hr
      exact hr.elim

/-- Two elements with the keys 1 and 2. -/
def twoElements : DLList ℕ ℕ where
  heap x := if x = 1 then some ⟨none, some 2, 1, some 10⟩
    else if x = 2 then some ⟨some 1, none, 2, some 20⟩ else none
  first := some 1
  last := some 2

theorem linked_twoElements :
    twoElements.Linked [(1, ⟨none, some 2, 1, some 10⟩), (2, ⟨some 1, none, 2, some 20⟩)] :=
  ⟨⟨⟨rfl, rfl, rfl, rfl, rfl⟩, by decide, rfl⟩, ⟨⟨rfl, rfl, rfl, rfl, rfl⟩, by decide, rfl⟩⟩

/-- The last of two elements is taken out. -/
theorem sortedRemove_iff_last :
    ∃ r, RemovesFirst [(1, ⟨none, some 2, 1, some 10⟩), (2, ⟨some 1, none, 2, some 20⟩)] 2 r ∧
      ∀ rounds, 2 ≤ rounds → twoElements.sortedRemove 2 rounds none = some r :=
  (sortedRemove_iff linked_twoElements (List.cons_ne_nil _ _) 2 none).mpr
    (.inr ⟨_, [], _, rfl, by decide, nofun⟩)

/-- The first of two elements has the key, and both are gone. -/
theorem sortedRemove_loses_list :
    ¬ ∀ (l : DLList ℕ ℕ) cells, l.Linked cells → cells ≠ [] → ∀ sortKey garbage,
      ∃ r, RemovesFirst cells sortKey r ∧ ∀ rounds, cells.length ≤ rounds →
        l.sortedRemove sortKey rounds garbage = some r := by
  intro hall
  obtain ⟨r, hr, h⟩ := hall _ _ linked_twoElements (List.cons_ne_nil _ _) 1 (some 10)
  have h := h _ le_rfl
  rw [sortedRemove_first linked_twoElements.forward rfl] at h
  cases h
  exact not_removesFirst_of_first rfl hr

end Coursework.Nachos.DLList
