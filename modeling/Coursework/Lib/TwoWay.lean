import Coursework.Lib.Chain

/-!
# Cells that are linked both ways

A two-way chain is a chain along `next`, and read backwards a chain along `prev`. What holds
for one end of it holds for the other with the two directions exchanged.
-/
namespace Coursework

variable {α ν : Type*} {next prev : ν → Option α} {h h' : α → Option ν} {first last : Option α}
  {l l₁ l₂ : List (α × ν)} {a b c : α} {k k' m m' n : ν}

/-- The walk from `first` along `next` and the walk from `last` along `prev` visit the same cells
in opposite order. -/
structure TwoWay (next prev : ν → Option α) (h : α → Option ν) (first last : Option α)
    (l : List (α × ν)) : Prop where
  forward : Chain next h first last l
  backward : Chain prev h last first l.reverse

namespace TwoWay

theorem nil : TwoWay next prev h none none [] := ⟨.nil, .nil⟩

theorem single (ha : h a = some n) (hnext : next n = none) (hprev : prev n = none) :
    TwoWay next prev h (some a) (some a) [(a, n)] :=
  ⟨.single ha hnext, .single ha hprev⟩

theorem symm (ht : TwoWay next prev h first last l) :
    TwoWay prev next h last first l.reverse :=
  ⟨ht.backward, by rw [List.reverse_reverse]; exact ht.forward⟩

/-- The two links between neighbours. -/
theorem links (ht : TwoWay next prev h first last (l₁ ++ (b, m) :: (c, k) :: l₂)) :
    next m = some c ∧ prev k = some b := by
  have hback := ht.backward
  rw [List.reverse_append, List.reverse_cons, List.reverse_cons, List.append_assoc,
    List.append_assoc] at hback
  obtain ⟨r, -, -, -, hnext, -⟩ := seg_append.mp ht.forward.seg
  obtain ⟨r', -, -, -, hprev, -⟩ := seg_append.mp hback.seg
  exact ⟨hnext, hprev⟩

theorem prev_head (ht : TwoWay next prev h first last ((a, n) :: l)) : prev n = none := by
  have hback := ht.backward
  rw [List.reverse_cons] at hback
  obtain ⟨r, -, -, -, hend⟩ := seg_append.mp hback.seg
  exact hend

theorem next_last (ht : TwoWay next prev h first last (l ++ [(a, n)])) : next n = none := by
  obtain ⟨r, -, -, -, hend⟩ := seg_append.mp ht.forward.seg
  exact hend

/-- A new cell is linked at the end. -/
theorem push_back (ht : TwoWay next prev h first last (l ++ [(b, m)])) (ha : h a = none)
    (hn : h' a = some n) (hm : h' b = some m') (hna : next n = none) (hpa : prev n = some b)
    (hmb : next m' = some a) (hpb : prev m' = prev m) (hh : ∀ x, x ≠ a → x ≠ b → h' x = h x) :
    TwoWay next prev h' first (some a) (l ++ [(b, m'), (a, n)]) := by
  classical
  refine ⟨ht.forward.push_back ha hn hm hna hmb hh, ?_⟩
  have hback := ht.backward
  rw [List.reverse_append, List.reverse_singleton, List.singleton_append] at hback
  have hlast : last = some b := hback.seg.1
  have hmem := hback.seg.ne_of_free ha
  -- backwards the cell at `b` is the first one, and the new cell goes before it
  have htouch : Chain prev (Function.update h b (some m')) last first ((b, m') :: l.reverse) :=
    hback.touch [] (Function.update_self ..) hpb fun x hx => Function.update_of_ne hx _ _
  have hpush := htouch.push_front (a := a) (by simpa using hmem) hn (hpa.trans hlast.symm)
    fun x hxa => by
      by_cases hxb : x = b
      · rw [hxb, hm, Function.update_self]
      · rw [hh x hxa hxb, Function.update_of_ne hxb]
  simpa using hpush

/-- A new cell is linked at the front. -/
theorem push_front (ht : TwoWay next prev h first last ((b, m) :: l)) (ha : h a = none)
    (hn : h' a = some n) (hm : h' b = some m') (hna : next n = some b) (hpa : prev n = none)
    (hmb : next m' = next m) (hpb : prev m' = some a) (hh : ∀ x, x ≠ a → x ≠ b → h' x = h x) :
    TwoWay next prev h' (some a) last ((a, n) :: (b, m') :: l) := by
  have hsymm := ht.symm
  rw [List.reverse_cons] at hsymm
  simpa using (hsymm.push_back ha hn hm hpa hna hpb hmb hh).symm

/-- A new cell is linked between two cells. -/
theorem insert_between (ht : TwoWay next prev h first last (l₁ ++ (b, m) :: (c, k) :: l₂))
    (ha : h a = none) (hn : h' a = some n) (hm : h' b = some m') (hk : h' c = some k')
    (hna : next n = some c) (hpa : prev n = some b) (hmb : next m' = some a)
    (hpb : prev m' = prev m) (hkc : next k' = next k) (hpc : prev k' = some a)
    (hh : ∀ x, x ≠ a → x ≠ b → x ≠ c → h' x = h x) :
    TwoWay next prev h' first last (l₁ ++ (b, m') :: (a, n) :: (c, k') :: l₂) := by
  refine ⟨ht.forward.insert_between (ht.forward.seg.ne_of_free ha) hn hm hk hna hmb hkc hh, ?_⟩
  have hback := ht.backward
  rw [List.reverse_append, List.reverse_cons, List.reverse_cons, List.append_assoc,
    List.append_assoc] at hback
  have hins := hback.insert_between (hback.seg.ne_of_free ha) hn hk hm hpa hpc hpb
    fun x hxa hxc hxb => hh x hxa hxb hxc
  simpa using hins

/-- The last cell is taken off and freed. -/
theorem pop_back (ht : TwoWay next prev h first last (l ++ [(b, m), (a, n)]))
    (hm : h' b = some m') (hmb : next m' = none) (hpb : prev m' = prev m)
    (hh : ∀ x, x ≠ a → x ≠ b → h' x = h x) :
    TwoWay next prev h' first (some b) (l ++ [(b, m')]) := by
  classical
  refine ⟨ht.forward.pop_back hm hmb hh, ?_⟩
  have hback := ht.backward
  rw [List.reverse_append, List.reverse_cons, List.reverse_singleton, List.singleton_append,
    List.cons_append] at hback
  have hnd : a ∉ b :: l.reverse.map Prod.fst := (List.nodup_cons.mp hback.nodup).1
  have hfree (x : α) (hx : x ≠ a) : Function.update h a none x = h x := Function.update_of_ne hx _ _
  have hpop := hback.pop_front hfree
  have hprev : prev n = some b := hback.seg.2.2.1
  simp only [hprev, List.cons_ne_nil, if_false, List.singleton_append] at hpop
  have htouch : Chain prev (Function.update (Function.update h a none) b (some m')) (some b) first
      ((b, m') :: l.reverse) :=
    hpop.touch [] (Function.update_self ..) hpb fun x hx => Function.update_of_ne hx _ _
  rw [List.reverse_append, List.reverse_singleton, List.singleton_append]
  refine htouch.congr fun x hx => ?_
  by_cases hxb : x = b
  · rw [hxb, hm, Function.update_self]
  · have hxa : x ≠ a := ne_of_mem_of_not_mem (show x ∈ b :: l.reverse.map Prod.fst from hx) hnd
    rw [hh x hxa hxb, Function.update_of_ne hxb, Function.update_of_ne hxa]

end TwoWay
end Coursework
