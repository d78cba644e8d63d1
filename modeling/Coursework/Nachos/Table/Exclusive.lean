import Coursework.Nachos.Table

/-!
# A `Table` hands out exclusive slots

The completed calls are a legal history of slot acts, and when nobody is past
the loops the slots are those after the history and `cnt` counts the full ones. Between the
write to a slot and the end of the call the thread inside is one act ahead.
-/
namespace Coursework.Nachos.Table
open Monitor SlotAct

variable {Obj Tid : Type} [DecidableEq Tid] {n : ℕ} {t t' : Table Obj} {k k' : Loc Obj}
  {i : Input Obj} {x : Call Cond} {h : List (Done Obj)} {f : ℤ → Option Obj} {index : ℕ}
  {object : Option Obj} {ret : ℤ}

/-- `lock->Release()` is the last statement of every call; a call is completed with it. -/
def Loc.completed : Loc Obj → Input Obj → List (Done Obj)
  | .leaving done, .go => [done]
  | _, _ => []

def completed : State Tid Cond (Loc Obj) (Table Obj) → Event Tid (Input Obj) → List (Done Obj) :=
  State.seen Loc.completed

/-- What callers promise: objects are not `NULL` and indices are those of slots. -/
def Input.Ok (n : ℕ) : Input Obj → Prop
  | .alloc object => object ≠ none
  | .release index => 0 ≤ index ∧ index < n
  | .get index => 0 ≤ index
  | .go => True

instance (n : ℕ) [DecidableEq Obj] (i : Input Obj) : Decidable (i.Ok n) := by
  cases i <;> unfold Input.Ok <;> infer_instance

/-- The number of slots that are not `NULL`. -/
def used (t : Table Obj) : ℕ := t.tableBase.countP Option.isSome

/-- The table has `n` slots, and they are those of `f`. -/
structure Holds (t : Table Obj) (n : ℕ) (f : ℤ → Option Obj) : Prop where
  tableSize : t.tableSize = n
  length : t.tableBase.length = n
  slot : ∀ index : ℕ, index < n → t.tableBase[index]? = some (f index)
  beyond : ∀ index : ℤ, n ≤ index → f index = none

/-! ### The operations -/

theorem countP_set_add {α : Type} {p : α → Bool} {l : List α} {j : ℕ} (a : α)
    (hj : j < l.length) : (l.set j a).countP p + (p l[j]).toNat = l.countP p + (p a).toNat := by
  rw [List.countP_set hj]
  cases hp : p l[j] with
  | false => cases p a <;> simp
  | true =>
    have hpos : 0 < l.countP p := List.countP_pos_iff.mpr ⟨l[j], List.getElem_mem hj, hp⟩
    cases p a <;> simp <;> omega

theorem Holds.slot_eq (ht : t.Holds n f) (hi : index < n) : t.slot index = some (f index) := by
  rw [Table.slot, if_pos (Int.natCast_nonneg index), Int.toNat_natCast, ht.slot index hi]

theorem Holds.setSlot (ht : t.Holds n f) (hi : index < n) (object : Option Obj) :
    ∃ t', t.setSlot index object = some t' ∧ t'.Holds n (Function.update f index object) ∧
      t'.cnt = t.cnt ∧
      t'.used + (f index).isSome.toNat = t.used + object.isSome.toNat := by
  have hlt : index < t.tableBase.length := by
    rw [ht.length]
    exact hi
  have hget : t.tableBase[index] = f index := by
    have hslot := ht.slot index hi
    rwa [List.getElem?_eq_getElem hlt, Option.some.injEq] at hslot
  refine ⟨{ t with tableBase := t.tableBase.set index object }, ?_,
    ⟨ht.tableSize, ?_, ?_, fun j hj => ?_⟩, rfl, ?_⟩
  · rw [Table.setSlot, if_pos ⟨Int.natCast_nonneg index, by omega⟩, Int.toNat_natCast]
  · rw [List.length_set, ht.length]
  · intro j hj
    by_cases hij : j = index
    · subst hij
      rw [List.getElem?_set_self hlt, Function.update_self]
    · rw [List.getElem?_set_ne (Ne.symm hij), ht.slot j hj,
        Function.update_of_ne (by exact_mod_cast hij)]
  · rw [Function.update_of_ne (by omega), ht.beyond j hj]
  · rw [← hget]
    exact countP_set_add object hlt

theorem Holds.used_le (ht : t.Holds n f) : t.used ≤ n := by
  rw [used, ← ht.length]
  exact List.countP_le_length

/-! ### What a thread knows -/

/-- The completed calls are a legal history, and those of `Alloc` returned indices of slots. -/
structure History (n : ℕ) (h : List (Done Obj)) : Prop where
  legal : LegalRun h
  range : ∀ object (index : ℤ), .alloc object index ∈ h → 0 ≤ index ∧ index < n

theorem History.concat {a : Done Obj} (hh : History n h) (ha : a.Legal (slots h))
    (hr : ∀ object (index : ℤ), a = .alloc object index → 0 ≤ index ∧ index < n) :
    History n (h ++ [a]) where
  legal := hh.legal.concat ha
  range object index hin := by
    rcases List.mem_append.mp hin with hin | hin
    · exact hh.range object index hin
    · exact hr object index (List.mem_singleton.mp hin).symm

theorem History.of_append {h' : List (Done Obj)} (hh : History n (h ++ h')) : History n h where
  legal := hh.legal.of_append
  range object index hin := hh.range object index (List.mem_append_left _ hin)

/-- The slots and the count are those after the completed calls. -/
structure Settled (n : ℕ) (t : Table Obj) (h : List (Done Obj)) : Prop where
  history : History n h
  holds : t.Holds n (slots h)
  cnt : t.cnt = t.used

def Fits (n : ℕ) (t : Table Obj) (h : List (Done Obj)) : Loc Obj → Prop
  | .outside _ => True
  | .scanning object index => object ≠ none ∧ index ≤ n
  | .storing object index => object ≠ none ∧ Settled n t h ∧ (index < n → slots h index = none)
  | .stored object ret => ∃ index : ℕ, ret = index ∧ index < n ∧ object ≠ none ∧ History n h ∧
      slots h index = none ∧ t.Holds n (Function.update (slots h) index object) ∧
      t.cnt + 1 = t.used
  | .releasing index => 0 ≤ index ∧ index < n
  | .clearing ret => ∃ index : ℕ, ret = index ∧ index < n ∧ Settled n t h ∧ slots h index ≠ none
  | .cleared ret => ∃ index : ℕ, ret = index ∧ index < n ∧ History n h ∧ slots h index ≠ none ∧
      t.Holds n (Function.update (slots h) index none) ∧ t.cnt = t.used + 1
  | .getting index => 0 ≤ index
  | .leaving done => Settled n t (h ++ [done])
  | .assertFailed => History n h
  | .crashed => False

/-- The table is that of a thread that has come to `k`. -/
def Next (n : ℕ) (t : Table Obj) (h : List (Done Obj)) (k : Loc Obj) : Prop :=
  Fits n t h k ∧ (k.held = false → Settled n t h)

theorem scanning_next (hs : Settled n t h) (hk : Fits n t h (.scanning object index))
    (hcode : code (.scanning object index) t .go = some (x, k', t')) : Next n t' h k' := by
  rcases hk with ⟨hobj, hle⟩
  rw [code] at hcode
  split_ifs at hcode with hfull
  · cases hcode
    rw [hs.holds.tableSize] at hfull
    exact ⟨⟨hobj, by omega⟩, fun _ => hs⟩
  · cases hcode
    refine ⟨⟨hobj, hs, fun hlt => ?_⟩, nofun⟩
    cases hslot : slots h index with
    | none => rfl
    | some o =>
      rw [isFull, hs.holds.slot_eq hlt, hslot, hs.holds.tableSize] at hfull
      exact absurd ⟨rfl, by omega⟩ hfull

theorem storing_next (hk : Fits n t h (.storing object index))
    (hcode : code (.storing object index) t .go = some (x, k', t')) : Next n t' h k' := by
  rcases hk with ⟨hobj, hs, hfree⟩
  rw [code, hs.holds.tableSize] at hcode
  split_ifs at hcode with hfull
  · cases hcode
    exact ⟨hs.history, nofun⟩
  · have hlt : index < n := by omega
    obtain ⟨t₁, hset, hholds, hcnt, hused⟩ := hs.holds.setSlot hlt object
    rw [hset] at hcode
    cases hcode
    refine ⟨⟨index, rfl, hlt, hobj, hs.history, hfree hlt, hholds, ?_⟩, nofun⟩
    rw [hfree hlt, Option.isSome_iff_ne_none.mpr hobj] at hused
    rw [hcnt, hs.cnt]
    simp at hused
    omega

theorem stored_next (hint : (n : ℤ) ≤ intMax) (hk : Fits n t h (.stored object ret))
    (hcode : code (.stored object ret) t .go = some (x, k', t')) : Next n t' h k' := by
  rcases hk with ⟨index, rfl, hlt, hobj, hh, hfree, hholds, hcnt⟩
  have hused := hholds.used_le
  have hnext : int (t.cnt + 1) = some (t.used : ℤ) := by
    rw [hcnt]
    exact int_eq_some (by unfold intMax; omega) (by omega)
  rw [code, hnext] at hcode
  cases hcode
  have hrange (o : Option Obj) (j : ℤ) (heq : SlotAct.alloc object (index : ℤ) = .alloc o j) :
      0 ≤ j ∧ j < n := by
    cases heq
    omega
  refine ⟨⟨hh.concat ⟨hobj, hfree⟩ hrange, ?_, rfl⟩, nofun⟩
  rw [slots_concat]
  exact { hholds with }

theorem releasing_next (hs : Settled n t h) (hk : Fits n t h (.releasing ret))
    (hcode : code (.releasing ret) t .go = some (x, k', t')) : Next n t' h k' := by
  rcases hk with ⟨hpos, hlt⟩
  obtain ⟨index, rfl⟩ := Int.eq_ofNat_of_zero_le hpos
  have hi : index < n := by omega
  rw [code, hs.holds.slot_eq hi] at hcode
  cases hslot : slots h index with
  | none =>
    rw [hslot] at hcode
    cases hcode
    exact ⟨⟨hpos, hlt⟩, fun _ => hs⟩
  | some o =>
    rw [hslot] at hcode
    cases hcode
    exact ⟨⟨index, rfl, hi, hs, by simp [hslot]⟩, nofun⟩

theorem clearing_next (hk : Fits n t h (.clearing ret))
    (hcode : code (.clearing ret) t .go = some (x, k', t')) : Next n t' h k' := by
  rcases hk with ⟨index, rfl, hlt, hs, hfull⟩
  obtain ⟨t₁, hset, hholds, hcnt, hused⟩ := hs.holds.setSlot hlt none
  rw [code, hset] at hcode
  cases hcode
  refine ⟨⟨index, rfl, hlt, hs.history, hfull, hholds, ?_⟩, nofun⟩
  rw [Option.isSome_iff_ne_none.mpr hfull] at hused
  rw [hcnt, hs.cnt]
  simp at hused
  omega

theorem cleared_next (hint : (n : ℤ) ≤ intMax) (hk : Fits n t h (.cleared ret))
    (hcode : code (.cleared ret) t .go = some (x, k', t')) : Next n t' h k' := by
  rcases hk with ⟨index, rfl, hlt, hh, hfull, hholds, hcnt⟩
  have hused := hholds.used_le
  have hnext : int (t.cnt - 1) = some (t.used : ℤ) := by
    rw [hcnt, add_sub_cancel_right]
    exact int_eq_some (by unfold intMax; omega) (by omega)
  rw [code, hnext] at hcode
  cases hcode
  refine ⟨⟨hh.concat hfull nofun, ?_, rfl⟩, nofun⟩
  rw [slots_concat]
  exact { hholds with }

theorem getting_next (hs : Settled n t h) (hk : Fits n t h (.getting ret))
    (hcode : code (.getting ret) t .go = some (x, k', t')) : Next n t' h k' := by
  have hpos : 0 ≤ ret := hk
  have hsame {r : Option Obj} (hr : r = slots h ret) :
      Next n t h (.leaving (.get ret r)) := by
    refine ⟨⟨hs.history.concat hr nofun, ?_, hs.cnt⟩, nofun⟩
    rw [slots_concat]
    exact hs.holds
  rw [code, hs.holds.tableSize] at hcode
  split_ifs at hcode with hlt
  · cases hcode
    exact hsame (hs.holds.beyond ret (by omega)).symm
  · obtain ⟨index, rfl⟩ := Int.eq_ofNat_of_zero_le hpos
    rw [hs.holds.slot_eq (by omega)] at hcode
    cases hcode
    exact hsame rfl

theorem go_of_inside (hin : k.inside = true) (hcode : code k t i = some (x, k', t')) :
    i = .go := by
  cases k with
  | outside => cases hin
  | _ => cases i <;> first | rfl | cases hcode

/-- One step of the code with the lock. -/
theorem inside_next (hint : (n : ℤ) ≤ intMax) (hk : Fits n t h k) (hin : k.inside = true)
    (hs : k.held = false → Settled n t h) (hcode : code k t i = some (x, k', t')) :
    Next n t' (h ++ k.completed i) k' := by
  obtain rfl := go_of_inside hin hcode
  cases k with
  | outside => cases hin
  | scanning => simpa [Loc.completed] using scanning_next (hs rfl) hk hcode
  | storing => simpa [Loc.completed] using storing_next hk hcode
  | stored => simpa [Loc.completed] using stored_next hint hk hcode
  | releasing => simpa [Loc.completed] using releasing_next (hs rfl) hk hcode
  | clearing => simpa [Loc.completed] using clearing_next hk hcode
  | cleared => simpa [Loc.completed] using cleared_next hint hk hcode
  | getting => simpa [Loc.completed] using getting_next (hs rfl) hk hcode
  | leaving done =>
    cases hcode
    exact ⟨trivial, fun _ => hk⟩
  | assertFailed => cases hcode
  | crashed => exact hk.elim

theorem outside_next (hok : i.Ok n) (hin : k.inside = false)
    (hcode : code k t i = some (x, k', t')) :
    t' = t ∧ k.completed i = [] ∧ Fits n t h k' := by
  cases k with
  | outside =>
    cases i with
    | alloc =>
      cases hcode
      exact ⟨rfl, rfl, hok, Nat.zero_le n⟩
    | release | get =>
      cases hcode
      exact ⟨rfl, rfl, hok⟩
    | go => cases hcode
  | _ => cases hin

theorem Fits.of_not_held {h' : List (Done Obj)} (hk : Fits n t h k) (hheld : k.held = false) :
    Fits n t' h' k := by
  cases k with
  | outside | scanning | releasing | getting => exact hk
  | _ => cases hheld

theorem critical (hint : (n : ℤ) ≤ intMax) :
    Critical (@code Obj) (Input.Ok n) Loc.inside Loc.held Loc.completed (fun (_ : Unit) _ => True)
      (fun _ => Fits n) (fun _ => Settled n) where
  locked := lockedAt
  stable _ _ _ _ _ _ _ hk hheld := hk.of_not_held hheld
  inside_step _ _ _ _ _ _ _ _ _ _ hk hin hs hcode :=
    ⟨(), trivial, inside_next hint hk hin hs hcode⟩
  outside_step _ _ _ _ _ _ _ _ hok _ _ hin hcode := outside_next hok hin hcode

/-! ### Every run -/

theorem settled_new (n : ℕ) : Settled n (new n : Table Obj) [] where
  history := ⟨legalRun_nil, nofun⟩
  holds := ⟨rfl, List.length_replicate, fun index hi => by simp [new, hi], fun _ _ => rfl⟩
  cnt := by simp [new, used, List.countP_replicate]

variable [Fintype Tid] {s : State Tid Cond (Loc Obj) (Table Obj)}

theorem table_known (hint : (n : ℤ) ≤ intMax)
    {p : State Tid Cond (Loc Obj) (Table Obj) × List (Done Obj)}
    (hr : ((machine n).observe completed).Reach (fun _ e => e.input.Ok n) p) :
    (∀ u, Fits n p.1.data p.2 (p.1.locs u)) ∧
      ((∀ u, (p.1.locs u).held = false) → Settled n p.1.data p.2) := by
  have hstart (t : Table Obj) (ht : New n t) :
      ∃ g, Known Loc.held (fun (_ : Unit) _ => True) (fun _ => Fits n) (fun _ => Settled n) g t
        (fun _ : Tid => .outside none) [] := by
    obtain rfl := ht
    exact ⟨(), trivial, fun _ => trivial, fun _ => settled_new n⟩
  rcases known (critical hint) rfl hstart (fun _ _ hok => hok) hr with ⟨-, -, hfits, hidle⟩
  exact ⟨hfits, hidle⟩

/-- The history stays legal while some thread is past the loops. -/
theorem history_of_held (hk : Fits n t h k) (hheld : k.held = true) : History n h := by
  cases k with
  | outside | scanning | releasing | getting => cases hheld
  | storing => exact hk.2.1.history
  | stored =>
    rcases hk with ⟨_, -, -, -, hh, -⟩
    exact hh
  | clearing =>
    rcases hk with ⟨_, -, -, hs, -⟩
    exact hs.history
  | cleared =>
    rcases hk with ⟨_, -, -, hh, -⟩
    exact hh
  | leaving => exact (Settled.history hk).of_append
  | assertFailed => exact hk
  | crashed => exact hk.elim

/-- While no thread owns the lock, `cnt` is the number of full slots and the slots are those
after the completed calls. In every reachable state the slot that `Alloc` returned was empty
before, and until it is released `Get` returns its object and no `Alloc` returns it. -/
theorem table_exclusive_slots {n : ℕ} (hint : (n : ℤ) ≤ intMax)
    (hr : ((machine n).observe completed).Reach (fun _ e => e.input.Ok n) (s, h)) :
    ((∀ u, s.owns u = false) → s.data.cnt = s.data.used ∧ 0 ≤ s.data.cnt ∧ s.data.cnt ≤ n ∧
      ∀ index : ℕ, index < n → s.data.slot index = some (slots h index)) ∧
    (∀ h₁ object (index : ℤ) h₂, h = h₁ ++ .alloc object index :: h₂ →
      0 ≤ index ∧ index < n ∧ slots h₁ index = none ∧
      (.release index ∉ h₂ → (∀ ret, .get index ret ∈ h₂ → ret = object) ∧
        ∀ object', .alloc object' index ∉ h₂)) := by
  obtain ⟨hfits, hidle⟩ := table_known hint hr
  have hh : History n h := by
    by_cases hnone : ∀ u, (s.locs u).held = false
    · exact (hidle hnone).history
    · obtain ⟨u, hu⟩ := not_forall.mp hnone
      exact history_of_held (hfits u) (Bool.eq_true_of_not_eq_false hu)
  constructor
  · intro hfree
    have hs : Settled n s.data h := by
      apply hidle
      intro u
      apply Bool.eq_false_iff.mpr
      intro hheld
      have hown := held_owns lockedAt rfl hr.forget u hheld
      rw [hfree u] at hown
      cases hown
    have hle := hs.holds.used_le
    have hcnt := hs.cnt
    exact ⟨hcnt, by omega, by omega, fun index hi => hs.holds.slot_eq hi⟩
  · rintro h₁ object index h₂ rfl
    obtain ⟨hlow, hhigh⟩ := hh.range object index (by simp)
    exact ⟨hlow, hhigh, (hh.legal h₁ _ h₂ rfl).2, hh.legal.exclusive⟩

/-- Thread 1 waits to release slot 0; thread 0 fills it and looks at it. -/
def releaseAllocGet : List (Event (Fin 2) (Input ℕ)) :=
  ⟨t1, .release 0⟩ :: List.replicate 5 ⟨t1, .go⟩ ++
    ⟨t0, .alloc (some 7)⟩ :: List.replicate 9 ⟨t0, .go⟩ ++
    ⟨t0, .get 0⟩ :: List.replicate 5 ⟨t0, .go⟩

theorem table_exclusive_slots_two :
    ∃ p, ((machine 2).observe completed).run
        (startState none (new 2) (.outside none), []) releaseAllocGet = some p ∧
      p.1.data.cnt = p.1.data.used ∧ p.2 = .alloc (some 7) 0 :: p.2.tail ∧
      ∀ ret, .get 0 ret ∈ p.2.tail → ret = some 7 := by
  have h0 : ((machine 2).observe completed).init
      ((startState none (new 2) (.outside none), []) :
        State (Fin 2) Cond (Loc ℕ) (Table ℕ) × List (Done ℕ)) := ⟨start_startState rfl, rfl⟩
  have hr : ((machine 2).observe completed).Reach (fun _ e => e.input.Ok 2) _ :=
    Machine.Reach.run (.init h0) (show Machine.Meets _ _ _ releaseAllocGet by decide) rfl
  have hslots := table_exclusive_slots (by decide) hr
  refine ⟨_, rfl, (hslots.1 (by decide)).1, rfl, ?_⟩
  exact ((hslots.2 [] _ _ _ rfl).2.2.2 (by decide)).1

end Coursework.Nachos.Table
