import Coursework.Nachos.DLList.Release
import Coursework.Nachos.DLList.Sequence
import Mathlib.Data.Multiset.AddSub
import Mathlib.Data.List.Perm.Basic

/-!
# Does every insertion into a `DLList` survive?

Threads call `Prepend`, `Append` and `SortedInsert`, which yields between its links.
`Prepend` takes no lock, so it can run while another thread is at that `Yield`. An
element whose own links are set and that the list does not reach yet is in flight: the
invariant says for each place what the list must look like for the links to be
still right. A `Prepend` breaks it for a new element at the front only.
-/
namespace Coursework.Nachos.DLList
open Monitor

variable {Tid Addr Item : Type} [DecidableEq Tid] [DecidableEq Addr] {l : DLList Addr Item}
  {cells : List (Addr × DLLElement Addr Item)} {a b : Addr} {n m : DLLElement Addr Item}
  {item : Option Item} {p : Place Addr} {sortKey : ℤ} {rounds : ℕ}

/-! ### Elements in flight -/

/-- The place is one between the elements of the list. -/
def PlaceOk (cells : List (Addr × DLLElement Addr Item)) : Place Addr → Prop
  | .front | .tail => cells ≠ []
  | .middle ptr => ∃ m, (ptr, m) ∈ cells ∧ m.next ≠ none

/-- The links of the new element `n` fit the place. -/
def LinksOk (first : Option Addr) (cells : List (Addr × DLLElement Addr Item))
    (n : DLLElement Addr Item) : Place Addr → Prop
  | .front => cells ≠ [] ∧ n.next = first
  | .middle ptr => ∃ m, (ptr, m) ∈ cells ∧ m.next ≠ none ∧ n.next = m.next
  | .tail => cells ≠ [] ∧ n.next = none

/-- The element at `a` is linked to the list and not from it. -/
def Flight (l : DLList Addr Item) (cells : List (Addr × DLLElement Addr Item)) (item : Option Item)
    (a : Addr) (p : Place Addr) : Prop :=
  ∃ n, l.heap a = some n ∧ n.item = item ∧ a ∉ cells.map Prod.fst ∧ LinksOk l.first cells n p

omit [DecidableEq Addr] in
/-- `SortedInsert` finds a place in the list, or the list is empty. -/
theorem find_placeOk {f : Found Addr} (hl : l.Holds cells)
    (h : l.find sortKey rounds = some f) :
    (f = .empty ∧ cells = []) ∨ ∃ p, f = .place p ∧ PlaceOk cells p := by
  cases cells with
  | nil =>
    rw [find_nil hl] at h
    cases h
    exact .inl ⟨rfl, rfl⟩
  | cons c cells =>
    right
    rcases c with ⟨q, m⟩
    rw [find_cons hl] at h
    split_ifs at h with hk
    · cases h
      exact ⟨.front, rfl, by simp [PlaceOk]⟩
    · obtain ⟨l₁, b, k, l₂, hsplit, -, -, rfl⟩ := search_first [] hl (not_lt.mp hk) h
      rw [hsplit] at hl ⊢
      obtain ⟨-, -, -, -, hseg⟩ := seg_append.mp hl.seg
      cases l₂ with
      | nil => exact ⟨.tail, rfl, by simp [PlaceOk]⟩
      | cons d l₂ => exact ⟨.middle b, rfl, k, by simp, by simp [hseg.1]⟩

/-- A write to an element that the list does not reach. -/
theorem write_flight (hl : l.Holds cells) (ha : l.heap a = some n)
    (hmem : a ∉ cells.map Prod.fst) {f : DLLElement Addr Item → DLLElement Addr Item}
    (hitem : (f n).item = item) (hlinks : LinksOk l.first cells (f n) p) :
    ∃ l', l.write (some a) f = some l' ∧ l'.Holds cells ∧ Flight l' cells item a p := by
  refine ⟨_, write_of_some ha f, ?_, f n, by simp, hitem, hmem, hlinks⟩
  exact hl.congr fun x hx => by simp [ne_of_mem_of_not_mem hx hmem]

/-- Before the `Yield`: the list is as it was, and the new element is in flight. -/
theorem linkNew_flight (hl : l.Holds cells) (ha : l.heap a = some n) (hitem : n.item = item)
    (hnext : n.next = none) (hmem : a ∉ cells.map Prod.fst) (hp : PlaceOk cells p) :
    ∃ l', l.linkNew a p = some l' ∧ l'.Holds cells ∧ Flight l' cells item a p := by
  cases p with
  | front => exact write_flight hl ha hmem hitem ⟨hp, rfl⟩
  | tail => exact write_flight hl ha hmem hitem ⟨hp, hnext⟩
  | middle ptr =>
    rcases hp with ⟨m, hm, hend⟩
    have hptr : l.heap ptr = some m := hl.seg.mem hm
    simp only [linkNew, hptr]
    exact write_flight hl ha hmem hitem ⟨m, hm, hend, rfl⟩

omit [DecidableEq Addr] in
theorem items_insert (l₁ l₂ : List (Addr × DLLElement Addr Item)) {m' : DLLElement Addr Item}
    (hm : m'.item = m.item) :
    (items (l₁ ++ (b, m') :: (a, n) :: l₂)).Perm (n.item :: items (l₁ ++ (b, m) :: l₂)) := by
  have hmid := @List.perm_middle _ n.item (items (l₁ ++ [(b, m')])) (items l₂)
  simpa [items, hm] using hmid

/-- After the `Yield`: the element in flight is linked, and no other is lost. -/
theorem linkTo_holds (hl : l.Holds cells) (hf : Flight l cells item a p) :
    ∃ l' cells', l.linkTo a p = some l' ∧ l'.Holds cells' ∧
      (items cells').Perm (item :: items cells) := by
  rcases hf with ⟨n, ha, rfl, hmem, hlinks⟩
  cases p with
  | front =>
    rcases hlinks with ⟨hne, hnext⟩
    obtain ⟨⟨q, m⟩, rest, rfl⟩ := List.exists_cons_of_ne_nil hne
    obtain ⟨hfirst, hq, -⟩ := hl.seg
    have hne : a ≠ q := fun h => hmem (by simp [h])
    refine ⟨⟨Function.update l.heap q (some { m with prev := some a }), some a, l.last⟩,
      (a, n) :: (q, { m with prev := some a }) :: rest, ?_, ?_, ?_⟩
    · simp only [linkTo, hfirst, write_of_some hq, Option.bind_eq_bind, Option.bind_some]
    · have hprev : Chain DLLElement.next (Function.update l.heap q (some { m with prev := some a }))
          l.first l.last ((q, { m with prev := some a }) :: rest) :=
        hl.touch [] (by simp) rfl fun x hx => by simp [hx]
      simpa using hprev.push_front (by simpa using hmem) (by simp [hne, ha]) hnext
        fun x _ => rfl
    · simp [items]
  | tail =>
    rcases hlinks with ⟨hne, hnext⟩
    rcases hl.cases_last with ⟨rfl, -, -⟩ | ⟨l₀, b, m, rfl, hlast, hb, hend⟩
    · exact absurd rfl hne
    · have hba : a ≠ b := fun h => hmem (by simp [h])
      refine ⟨⟨Function.update l.heap b (some { m with next := some a }), l.first, some a⟩,
        l₀ ++ (b, { m with next := some a }) :: [(a, n)], ?_, ?_, items_insert _ _ rfl⟩
      · simp only [linkTo, hlast, write_of_some hb, Option.bind_eq_bind, Option.bind_some]
      · simpa using hl.insert_after hmem (by simp [hba, ha]) (by simp) (hnext.trans hend.symm) rfl
          fun x _ hx => by simp [hx]
  | middle ptr =>
    rcases hlinks with ⟨m, hm, hend, hnext⟩
    obtain ⟨l₁, l₂, rfl⟩ := List.append_of_mem hm
    obtain ⟨r, -, -, hptr, hseg⟩ := seg_append.mp hl.seg
    cases l₂ with
    | nil => exact absurd hseg hend
    | cons c l₂ =>
      rcases c with ⟨q, k⟩
      rcases hseg with ⟨hq, hk, -⟩
      simp only [List.map_append, List.map_cons, List.mem_append, List.mem_cons, not_or] at hmem
      have hqp : ptr ≠ q := by
        have hnd := hl.nodup
        simp only [List.map_append, List.map_cons, List.nodup_append', List.nodup_cons,
          List.mem_cons, not_or] at hnd
        exact hnd.2.1.1.1
      -- the write to `ptr->next->prev`, then the link from `ptr`
      have hl' : l.Holds ((l₁ ++ [(ptr, m)]) ++ (q, k) :: l₂) := by simpa using hl
      have hprev : Chain DLLElement.next
          (Function.update l.heap q (some { k with prev := some a })) l.first l.last
          ((l₁ ++ [(ptr, m)]) ++ (q, { k with prev := some a }) :: l₂) :=
        hl'.touch _ (by simp) rfl fun x hx => by simp [hx]
      rw [List.append_assoc] at hprev
      have hptr' : Function.update l.heap q (some { k with prev := some a }) ptr = some m := by
        rw [Function.update_of_ne hqp, hptr]
      have hlink : Chain DLLElement.next
          (Function.update (Function.update l.heap q (some { k with prev := some a })) ptr
            (some { m with next := some a })) l.first
          (if (q, { k with prev := some a }) :: l₂ = [] then some a else l.last)
          (l₁ ++ (ptr, { m with next := some a }) :: (a, n) ::
            (q, { k with prev := some a }) :: l₂) :=
        hprev.insert_after (by simpa using hmem) (by simp [hmem.2.1, hmem.2.2.1, ha]) (by simp)
          hnext rfl fun x _ hx => by simp [hx]
      rw [if_neg (List.cons_ne_nil _ _)] at hlink
      refine ⟨⟨_, l.first, l.last⟩, _, ?_, hlink, ?_⟩
      · simp only [linkTo, hptr, hq, write_of_some hk, Option.bind_eq_bind, Option.bind_some]
        exact write_of_some hptr' _
      · simpa [items] using
          items_insert (b := ptr) (a := a) (n := n) (m := m) l₁ ((q, k) :: l₂) rfl

/-- `Prepend` leaves an element in flight good, unless it is to become the first. -/
theorem prepend_flight (hl : l.Holds cells) (hb : l.heap b = none) (item : Option Item) :
    ∃ l' cells', l.prepend b item = some l' ∧ l'.Holds cells' ∧
      items cells' = item :: items cells ∧
      ∀ i a p, p ≠ .front → Flight l cells i a p → Flight l' cells' i a p := by
  cases cells with
  | nil =>
    obtain ⟨l', cells', hpre, hl', hitems⟩ := prepend_holds hl hb item
    refine ⟨l', cells', hpre, hl', hitems, ?_⟩
    rintro i a p hp ⟨n, -, -, -, hlinks⟩
    cases p <;> simp [LinksOk] at hlinks
  | cons c cells =>
    rcases c with ⟨q, k⟩
    obtain ⟨l', hpre, hl', hheap⟩ := prepend_cons hl hb item
    refine ⟨l', _, hpre, hl', rfl, ?_⟩
    rintro i a p hp ⟨n, ha, hitem, hmem, hlinks⟩
    have hab : a ≠ b := by
      rintro rfl
      rw [ha] at hb
      cases hb
    have haq : a ≠ q := fun h => hmem (by simp [h])
    refine ⟨n, (hheap a hab haq).trans ha, hitem, ?_, ?_⟩
    · simp only [List.map_cons, List.mem_cons, not_or] at hmem ⊢
      exact ⟨hab, hmem⟩
    · cases p with
      | front => exact absurd rfl hp
      | tail => exact ⟨List.cons_ne_nil _ _, hlinks.2⟩
      | middle ptr =>
        rcases hlinks with ⟨m, hm, hend, hnext⟩
        rcases List.mem_cons.mp hm with he | hm
        · cases he
          exact ⟨_, List.mem_cons_of_mem _ (List.mem_cons_self), hend, hnext⟩
        · exact ⟨m, List.mem_cons_of_mem _ (List.mem_cons_of_mem _ hm), hend, hnext⟩

/-! ### Every run -/

def Op.isInsert : Op → Bool
  | .prepend | .append | .sortedInsert => true
  | _ => false

/-- Threads that insert into a new list, with `yield_flag` set and `testnum` 2 or 3. -/
def insertMachine :
    Machine (State Tid Cond (Loc Addr Item) (DLList Addr Item)) (Event Tid (Input Addr Item)) :=
  Monitor.machine (code Op.isInsert true) New (.outside none)

/-- The item of an insertion that starts. -/
def Loc.starts : Loc Addr Item → Input Addr Item → List (Option Item)
  | .outside _, .prepend item _ => [item]
  | .outside _, .append item => [item]
  | .outside _, .sortedInsert item _ => [item]
  | _, _ => []

def started : State Tid Cond (Loc Addr Item) (DLList Addr Item) → Event Tid (Input Addr Item) →
    List (Option Item) :=
  State.seen Loc.starts

/-- At the `Yield` of `SortedInsert`. -/
def Loc.atYield : Loc Addr Item → Bool
  | .yielded _ _ _ => true
  | _ => false

/-- At the `Yield` of `SortedInsert` with a new first element. -/
def Loc.atFrontYield : Loc Addr Item → Bool
  | .yielded _ _ .front => true
  | _ => false

def startsPrepend (s : State Tid Cond (Loc Addr Item) (DLList Addr Item))
    (e : Event Tid (Input Addr Item)) : Bool :=
  match (s.thread e.tid).pc, e.input with
  | .client (.outside _), .prepend _ _ => true
  | _, _ => false

/-- `Prepend` runs while no thread is about to link a new first element. -/
def PrependApart (s : State Tid Cond (Loc Addr Item) (DLList Addr Item))
    (e : Event Tid (Input Addr Item)) : Prop :=
  startsPrepend s e = true → ∀ t, (s.locs t).atFrontYield = false

instance [Fintype Tid] (s : State Tid Cond (Loc Addr Item) (DLList Addr Item))
    (e : Event Tid (Input Addr Item)) : Decidable (PrependApart s e) :=
  inferInstanceAs (Decidable (startsPrepend s e = true → ∀ t, (s.locs t).atFrontYield = false))

/-- The item of an insertion that has started and is not linked yet. -/
def Loc.pending : Loc Addr Item → Multiset (Option Item)
  | .appending item | .inserting item _ | .yielded item _ _ => {item}
  | _ => 0

variable [Fintype Tid]

/-- The list is a chain, elements in flight fit it, and every item is in the list or pending. -/
structure InsertInv (l : DLList Addr Item) (loc : Tid → Loc Addr Item) (h : List (Option Item))
    (cells : List (Addr × DLLElement Addr Item)) : Prop where
  holds : l.Holds cells
  flight : ∀ t i a p, loc t = .yielded i a p → Flight l cells i a p
  count : (items cells : Multiset (Option Item)) + ∑ t, (loc t).pending = h

variable {loc : Tid → Loc Addr Item} {t : Tid} {k k' : Loc Addr Item} {i : Input Addr Item}
  {x : Call Cond} {h new : List (Option Item)} {cells' : List (Addr × DLLElement Addr Item)}
  {l' : DLList Addr Item}

/-- What is in the list and what is pending, from a step's share in both. -/
theorem count_step {A A' P P' K K' S : Multiset (Option Item)} (hpending : P' + K = P + K')
    (hlist : A' + K' = A + K + S) : A' + P' = A + P + S := by
  apply add_right_cancel (b := K)
  calc A' + P' + K = A' + K' + P := by rw [add_assoc, hpending]; ac_rfl
    _ = A + P + S + K := by rw [hlist]; ac_rfl

theorem bag_of_perm {xs ys : List (Option Item)} {x : Option Item} (h : xs.Perm (x :: ys)) :
    (xs : Multiset (Option Item)) = ys + {x} := by
  rw [Multiset.coe_eq_coe.mpr h, ← Multiset.cons_coe, ← Multiset.singleton_add, add_comm]

omit [DecidableEq Addr] in
/-- A step of thread `t` to location `k'`, from the list `cells` to `cells'`. -/
theorem InsertInv.move (hi : InsertInv l loc h cells) (hl' : l'.Holds cells')
    (hothers : ∀ u ≠ t, ∀ i a p, loc u = .yielded i a p → Flight l' cells' i a p)
    (hself : ∀ i a p, k' = .yielded i a p → Flight l' cells' i a p)
    (hcount : (items cells' : Multiset (Option Item)) + k'.pending =
      items cells + (loc t).pending + (new : Multiset (Option Item))) :
    InsertInv l' (Function.update loc t k') (h ++ new) cells' := by
  refine ⟨hl', fun u i a p hu => ?_, ?_⟩
  · by_cases hut : u = t
    · rw [hut, Function.update_self] at hu
      exact hself i a p hu
    · rw [Function.update_of_ne hut] at hu
      exact hothers u hut i a p hu
  · rw [← Multiset.coe_add, ← hi.count]
    exact count_step (sum_update Loc.pending loc t k') hcount

theorem linkTo_of_finish {a : Addr} {p : Place Addr} (h : l.linkTo a p = some l') :
    l.finish a p =
      if p = .tail then (.signal .dllistEmpty, .signalled, l')
      else (.pause, .outside none, l') := by
  simp only [finish, h]

/-- The locations of the insertions. -/
def Loc.InInsert : Loc Addr Item → Prop
  | .removing | .sortedRemoving _ => False
  | _ => True

/-- A step of the code. -/
theorem InsertInv.client (hi : InsertInv l loc h cells) (hk : (loc t).InInsert)
    (hcode : code Op.isInsert true (loc t) l i = some (x, k', l'))
    (halone : (loc t).inside = true → ∀ u, (loc u).atYield = true → u = t)
    (hapart : ∀ r item a, loc t = .outside r → i = .prepend item a →
      ∀ u, (loc u).atFrontYield = false) :
    ∃ cells', InsertInv l' (Function.update loc t k') (h ++ (loc t).starts i) cells' := by
  have hother (hin : (loc t).inside = true) (l' : DLList Addr Item)
      (cells' : List (Addr × DLLElement Addr Item)) :
      ∀ u ≠ t, ∀ i a p, loc u = .yielded i a p → Flight l' cells' i a p :=
    fun u hu i a p hp => absurd (halone hin u (by rw [hp]; rfl)) hu
  have hnot {k : Loc Addr Item} {Q : Option Item → Addr → Place Addr → Prop}
      (hk : k.atYield = false) : ∀ i a p, k = .yielded i a p → Q i a p := by
    rintro i a p rfl
    cases hk
  generalize hloc : loc t = k at *
  unfold code at hcode
  split at hcode
  case h_1 r item b =>
    split_ifs at hcode with hb
    obtain ⟨l₂, cells', hpre, hl', hitems, hflight⟩ :=
      prepend_flight hi.holds (by simpa [Op.isInsert] using hb) item
    rw [hpre] at hcode
    cases hcode
    refine ⟨cells', hi.move hl' (fun u _ i a p hp => ?_) (hnot rfl) ?_⟩
    · refine hflight i a p ?_ (hi.flight u i a p hp)
      rintro rfl
      have hfront := hapart r item b rfl rfl u
      rw [hp] at hfront
      cases hfront
    · simp [hloc, Loc.starts, Loc.pending, bag_of_perm (.of_eq hitems)]
  case h_2 r item | h_4 r item sortKey =>
    cases hcode
    refine ⟨cells, hi.move hi.holds (fun u _ => hi.flight u) (hnot rfl) ?_⟩
    simp [hloc, Loc.starts, Loc.pending]
  case h_6 item b _ =>
    split_ifs at hcode with hb
    obtain ⟨l₂, cells', happ, hl', hitems⟩ :=
      append_holds hi.holds (by simpa using hb) item
    rw [happ] at hcode
    cases hcode
    have hperm : (items cells').Perm (item :: items cells) := by
      rw [hitems]
      exact List.perm_append_singleton item _
    refine ⟨cells', hi.move hl' (hother rfl _ _) (hnot rfl) ?_⟩
    simp [hloc, Loc.starts, Loc.pending, bag_of_perm hperm]
  case h_7 =>
    cases hcode
    refine ⟨cells, hi.move hi.holds (fun u _ => hi.flight u) (hnot rfl) ?_⟩
    simp [hloc, Loc.starts, Loc.pending]
  case h_9 item sortKey b rounds =>
    split_ifs at hcode with hb
    have hfree : l.heap b = none := by simpa using hb
    have hnew := holds_new hi.holds hfree item sortKey
    obtain ⟨f, hfind, hf⟩ := Option.map_eq_some_iff.mp hcode
    rcases find_placeOk hnew hfind with ⟨rfl, rfl⟩ | ⟨p, rfl, hp⟩
    · cases hf
      refine ⟨_, hi.move (.single (new_heap_self item sortKey) rfl) (hother rfl _ _) (hnot rfl) ?_⟩
      simp [hloc, Loc.starts, Loc.pending, items]
    · obtain ⟨l₂, hlink, hl', hflight⟩ :=
        linkNew_flight hnew (new_heap_self item sortKey) rfl rfl
          (hi.holds.seg.ne_of_free hfree) hp
      simp only [insert, hlink, if_true] at hf
      cases hf
      refine ⟨cells, hi.move hl' (hother rfl _ _) ?_ ?_⟩
      · rintro i a q he
        cases he
        exact hflight
      · simp [hloc, Loc.starts, Loc.pending]
  case h_10 item b p _ _ =>
    obtain ⟨l₂, cells', hlink, hl', hperm⟩ := linkTo_holds hi.holds (hi.flight _ _ _ _ hloc)
    have hbag := bag_of_perm hperm
    rw [linkTo_of_finish hlink] at hcode
    split_ifs at hcode with hp
    · cases hcode
      refine ⟨cells', hi.move hl' (hother rfl _ _) (hnot rfl) ?_⟩
      simp [hloc, Loc.starts, Loc.pending, hbag]
    · cases hcode
      refine ⟨cells', hi.move hl' (hother rfl _ _) (hnot rfl) ?_⟩
      simp [hloc, Loc.starts, Loc.pending, hbag]
  case h_8 | h_11 => exact hk.elim
  case h_3 | h_5 | h_12 => cases hcode

theorem code_inInsert (h : code Op.isInsert true k l i = some (x, k', l')) (hk : k.InInsert) :
    k'.InInsert := by
  have hfinish {l : DLList Addr Item} {a : Addr} {p : Place Addr}
      (hf : l.finish a p = (x, k', l')) : k'.InInsert := by
    unfold finish at hf
    split at hf
    · cases hf; trivial
    · split_ifs at hf <;> cases hf <;> trivial
  unfold code at h
  split at h
  case h_1 | h_6 =>
    split_ifs at h
    split at h <;> cases h <;> trivial
  case h_2 | h_4 | h_7 => cases h; trivial
  case h_9 =>
    split_ifs at h
    obtain ⟨f, -, hf⟩ := Option.map_eq_some_iff.mp h
    unfold insert at hf
    split at hf
    · cases hf; trivial
    · cases hf; trivial
    · split at hf <;> cases hf <;> trivial
  case h_10 => exact hfinish (Option.some.inj h)
  case h_8 | h_11 => exact hk.elim
  case h_3 | h_5 | h_12 => cases h

/-- The calls that lead to the `Yield` leave the lock alone. -/
theorem stays_of_atYield {calls : Op → Bool} {yields : Bool}
    (h : code calls yields k l i = some (x, k', l')) (hk' : k'.atYield = true) :
    x.stays = true := by
  cases k' with
  | yielded item b p =>
    obtain ⟨rfl, -⟩ := code_yielded h
    rfl
  | outside | appending | removing | inserting | signalled | sortedRemoving | crashed => cases hk'

theorem lockedAt (calls : Op → Bool) (yields : Bool) :
    LockedAt (code calls yields : Code Cond (Loc Addr Item) (DLList Addr Item) (Input Addr Item))
      Loc.inside Loc.atYield where
  disciplined := disciplined calls yields
  inside k hk := by cases k <;> trivial
  stays _ _ _ _ _ _ := stays_of_atYield

theorem insertInv {p : State Tid Cond (Loc Addr Item) (DLList Addr Item) × List (Option Item)}
    (hr : (insertMachine.observe started).Reach (fun p e => PrependApart p.1 e) p) :
    (∀ u, (p.1.locs u).InInsert) ∧ ∃ cells, InsertInv p.1.data p.1.locs p.2 cells := by
  refine seen_ok (Q := fun l loc h => (∀ u, (loc u).InInsert) ∧ ∃ cells, InsertInv l loc h cells)
    ?_ ?_ hr
  · intro l hl
    refine ⟨fun _ => trivial, [], Holds.nil hl, ?_, ?_⟩
    · intro t i a q he
      cases he
    · simp [items, Loc.pending]
  · rintro p e k x k' l' hr hok hpc hcode ⟨hin, cells, hi⟩
    obtain rfl := State.locs_client hpc
    refine ⟨?_, hi.client (hin e.tid) hcode (fun hinside u hu => ?_) fun r item a hout hinput => ?_⟩
    · exact (Function.forall_update_iff p.1.locs fun _ => Loc.InInsert).mpr
        ⟨code_inInsert hcode (hin e.tid), fun u _ => hin u⟩
    · exact held_alone (lockedAt Op.isInsert true) rfl hr.forget hpc hinside hu
    · apply hok
      rw [hout] at hpc
      rw [startsPrepend, hpc, hinput]

/-- If no `Prepend` runs while a `SortedInsert` is at its `Yield` with a new first element,
then, whenever all calls have returned, the walk from `first` visits the items of all
calls, each as often as it was inserted, and ends at `last`. -/
theorem no_lost_insertion {s : State Tid Cond (Loc Addr Item) (DLList Addr Item)}
    (hr : (insertMachine.observe started).Reach (fun p e => PrependApart p.1 e) (s, h))
    (hall : ∀ t, ∃ r, (s.thread t).pc = .client (.outside r)) :
    ∃ cells, s.data.Holds cells ∧ (items cells).Perm h := by
  obtain ⟨-, cells, hi⟩ := insertInv hr
  refine ⟨cells, hi.holds, ?_⟩
  have hnone : ∑ t, (s.locs t).pending = 0 := by
    apply Finset.sum_eq_zero
    intro t _
    obtain ⟨r, hpc⟩ := hall t
    rw [State.locs_client hpc]
    rfl
  have hcount := hi.count
  rw [hnone, add_zero] at hcount
  exact Multiset.coe_eq_coe.mp hcount

/-- Thread 0 inserts an element with key 2 and then one with key 1 at the front; thread 1
prepends before the second call of thread 0. -/
def prependBefore : List (Event (Fin 2) (Input ℕ ℕ)) :=
  [⟨t0, .sortedInsert (some 7) 2⟩, ⟨t0, .go 0 none⟩, ⟨t0, .go 0 none⟩, ⟨t0, .new 10 3⟩,
    ⟨t0, .go 0 none⟩, ⟨t0, .go 0 none⟩, ⟨t0, .go 0 none⟩, ⟨t0, .go 0 none⟩,
    ⟨t1, .prepend (some 9) 30⟩,
    ⟨t0, .sortedInsert (some 8) 0⟩, ⟨t0, .go 0 none⟩, ⟨t0, .go 0 none⟩, ⟨t0, .new 20 3⟩,
    ⟨t0, .go 0 none⟩]

theorem no_lost_insertion_prepend_before :
    ∃ p, (insertMachine.observe started).run
        (startState none ⟨fun _ => none, none, none⟩ (.outside none), []) prependBefore = some p ∧
      ∃ cells, p.1.data.Holds cells ∧ (items cells).Perm [some 7, some 9, some 8] := by
  have h0 : (insertMachine.observe started).init
      ((startState none ⟨fun _ => none, none, none⟩ (.outside none), []) :
        State (Fin 2) Cond (Loc ℕ ℕ) (DLList ℕ ℕ) × List (Option ℕ)) :=
    ⟨start_startState ⟨rfl, rfl⟩, rfl⟩
  have hr : (insertMachine.observe started).Reach (fun p e => PrependApart p.1 e) _ :=
    Machine.Reach.run (.init h0) (show Machine.Meets _ _ _ prependBefore by decide) rfl
  refine ⟨_, rfl, no_lost_insertion hr fun t => ⟨none, ?_⟩⟩
  match t with
  | 0 => rfl
  | 1 => rfl

/-- Thread 1 prepends while thread 0 is at the `Yield` with its second element. -/
def prependBetween : List (Event (Fin 2) (Input ℕ ℕ)) :=
  [⟨t0, .sortedInsert (some 7) 2⟩, ⟨t0, .go 0 none⟩, ⟨t0, .go 0 none⟩, ⟨t0, .new 10 3⟩,
    ⟨t0, .go 0 none⟩, ⟨t0, .go 0 none⟩, ⟨t0, .go 0 none⟩, ⟨t0, .go 0 none⟩,
    ⟨t0, .sortedInsert (some 8) 0⟩, ⟨t0, .go 0 none⟩, ⟨t0, .go 0 none⟩, ⟨t0, .new 20 3⟩,
    ⟨t1, .prepend (some 9) 30⟩, ⟨t0, .go 0 none⟩]

/-- All calls have returned, and the walk from `first` meets two of the three items. -/
theorem prepend_lost :
    ∃ p : State (Fin 2) Cond (Loc ℕ ℕ) (DLList ℕ ℕ) × List (Option ℕ),
      (insertMachine.observe started).Reachable p ∧
      (insertMachine.observe started).run
        (startState none ⟨fun _ => none, none, none⟩ (.outside none), []) prependBetween = some p ∧
      (∀ t, ∃ r, (p.1.thread t).pc = .client (.outside r)) ∧
      ¬ ∃ cells, p.1.data.Holds cells ∧ (items cells).Perm p.2 := by
  have h0 : (insertMachine.observe started).init
      ((startState none ⟨fun _ => none, none, none⟩ (.outside none), []) :
        State (Fin 2) Cond (Loc ℕ ℕ) (DLList ℕ ℕ) × List (Option ℕ)) :=
    ⟨start_startState ⟨rfl, rfl⟩, rfl⟩
  refine ⟨_, Machine.Reachable.run prependBetween (.init h0) rfl, rfl, fun t => ⟨none, ?_⟩, ?_⟩
  · match t with
    | 0 => rfl
    | 1 => rfl
  · rintro ⟨cells, hl, hperm⟩
    have hwalk : cells =
        [(20, ⟨none, some 10, 0, some 8⟩), (10, ⟨some 30, none, 2, some 7⟩)] :=
      hl.unique ⟨⟨rfl, rfl, rfl, rfl, rfl⟩, by decide, rfl⟩
    rw [hwalk] at hperm
    exact absurd hperm.length_eq (by decide)

end Coursework.Nachos.DLList
