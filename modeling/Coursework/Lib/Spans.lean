import Mathlib.Algebra.BigOperators.Group.List.Basic
import Mathlib.Data.List.Infix
import Mathlib.Tactic.Abel

/-!
# Spans that follow each other

Spans are merged from the left. A span that starts where the merged one ends is refused, and a
merged span of size zero is forgotten. Addresses and sizes may wrap.
-/
namespace Coursework

structure Span (G : Type*) where
  addr : G
  size : G

namespace Span
variable {G : Type*} [AddCommGroup G]

/-- The sum of the sizes. -/
def total (l : List (Span G)) : G := (l.map Span.size).sum

/-- The span `x` and those behind it have never been empty together. -/
def Lasting (l : List (Span G)) : Prop := ∀ p, p <+: l → p ≠ [] → total p ≠ 0

/-- The span `y` starts where the merged span of `l` ends. -/
def Follows (l : List (Span G)) (y : Span G) : Prop :=
  ∃ pre x mid, l = pre ++ x :: mid ∧ total pre = 0 ∧ Lasting (x :: mid) ∧
    y.addr = x.addr + total (x :: mid)

/-- Some span starts where the merged span of those before it ends. -/
def Collides (l : List (Span G)) : Prop := ∃ done y post, l = done ++ y :: post ∧ Follows done y

/-- Each span starts where the one before it ends. -/
def Contiguous (l : List (Span G)) : Prop := l.IsChain fun x y => y.addr = x.addr + x.size

/-- One step of the merge. -/
def merge [DecidableEq G] (m s : Span G) : Option (Span G) :=
  if m.size ≠ 0 then
    if s.addr = m.addr + m.size then none else some ⟨m.addr, m.size + s.size⟩
  else some s

variable {l l' pre pre' mid mid' : List (Span G)} {x x' y m m₀ : Span G}

theorem total_nil : total ([] : List (Span G)) = 0 := rfl

theorem total_append : total (l ++ l') = total l + total l' := by
  rw [total, List.map_append, List.sum_append, total, total]

theorem total_singleton : total [x] = x.size := by
  rw [total, List.map_singleton, List.sum_singleton]

/-- The place where the merged span starts is determined. -/
theorem starts_unique (h : pre ++ x :: mid = pre' ++ x' :: mid') (hpre : total pre = 0)
    (hpre' : total pre' = 0) (hlast : Lasting (x :: mid)) (hlast' : Lasting (x' :: mid')) :
    x = x' ∧ mid = mid' := by
  have hshort : ∀ {a b c d : List (Span G)}, a ++ b = c ++ d → total a = 0 → total c = 0 →
      Lasting b → c.length ≤ a.length := by
    intro a b c d habcd ha hc hb
    by_contra hlt
    have hprefix : a <+: c := List.prefix_of_prefix_length_le (habcd ▸ List.prefix_append a b)
      (List.prefix_append c d) (by omega)
    obtain ⟨p, rfl⟩ := hprefix
    rw [List.append_assoc, List.append_cancel_left_eq] at habcd
    apply hb p (habcd ▸ List.prefix_append p d)
    · rintro rfl
      simp at hlt
    · rw [total_append, ha, zero_add] at hc
      exact hc
  have hlen : pre.length = pre'.length :=
    le_antisymm (hshort h.symm hpre' hpre hlast') (hshort h hpre hpre' hlast)
  have htail := (List.append_inj h hlen).2
  exact ⟨(List.cons.inj htail).1, (List.cons.inj htail).2⟩

theorem collides_concat : Collides (l ++ [y]) ↔ Collides l ∨ Follows l y := by
  constructor
  · rintro ⟨done, z, post, h, hfollows⟩
    rcases List.eq_nil_or_concat post with rfl | ⟨post, w, rfl⟩
    · obtain ⟨rfl, hz⟩ := List.append_inj' h rfl
      cases hz
      exact .inr hfollows
    · rw [List.concat_eq_append, ← List.cons_append, ← List.append_assoc] at h
      exact .inl ⟨done, z, post, (List.append_inj' h rfl).1, hfollows⟩
  · rintro (⟨done, z, post, rfl, hfollows⟩ | hfollows)
    · exact ⟨done, z, post ++ [y], by simp, hfollows⟩
    · exact ⟨l, y, [], rfl, hfollows⟩

theorem lasting_singleton (h : x.size ≠ 0) : Lasting [x] := by
  intro p hp hne
  obtain rfl | hp := List.prefix_concat_iff.mp (show p <+: [] ++ [x] from hp)
  · rwa [List.nil_append, total_singleton]
  · exact absurd (List.prefix_nil.mp hp) hne

/-- Two spans that follow each other collide. -/
theorem Contiguous.collides (h : Contiguous l) (hlen : 2 ≤ l.length)
    (hsize : ∀ s ∈ l, s.size ≠ 0) : Collides l := by
  match l with
  | x :: y :: post =>
    refine ⟨[x], y, post, rfl, [], x, [], rfl, total_nil, ?_, ?_⟩
    · exact lasting_singleton (hsize x List.mem_cons_self)
    · rw [total_singleton]
      exact (List.isChain_cons_cons.mp h).1

theorem not_collides_of_length (h : l.length ≤ 1) : ¬ Collides l := by
  rintro ⟨done, y, post, rfl, pre, x, mid, rfl, -⟩
  simp only [List.length_append, List.length_cons] at h
  omega

theorem contiguous_of_length (h : l.length ≤ 1) : Contiguous l := by
  match l with
  | [] => exact .nil
  | [x] => exact .singleton x

/-! ### The merge -/

/-- The merged span has the sum of the sizes and the address at which it starts. -/
structure Merged (l : List (Span G)) (m : Span G) : Prop where
  size : m.size = total l
  addr : m.size ≠ 0 → ∃ pre x mid, l = pre ++ x :: mid ∧ total pre = 0 ∧ Lasting (x :: mid) ∧
    m.addr = x.addr

theorem Merged.follows_iff (h : Merged l m) :
    Follows l y ↔ m.size ≠ 0 ∧ y.addr = m.addr + m.size := by
  constructor
  · rintro ⟨pre, x, mid, rfl, hpre, hlast, haddr⟩
    have hsize : m.size = total (x :: mid) := by rw [h.size, total_append, hpre, zero_add]
    have hne : m.size ≠ 0 := by
      rw [hsize]
      exact hlast _ (List.prefix_refl _) (List.cons_ne_nil x mid)
    obtain ⟨pre', x', mid', heq, hpre', hlast', haddr'⟩ := h.addr hne
    obtain ⟨rfl, rfl⟩ := starts_unique heq hpre hpre' hlast hlast'
    exact ⟨hne, by rw [haddr, haddr', hsize]⟩
  · rintro ⟨hne, haddr⟩
    obtain ⟨pre, x, mid, rfl, hpre, hlast, haddr'⟩ := h.addr hne
    refine ⟨pre, x, mid, rfl, hpre, hlast, ?_⟩
    rw [haddr, haddr', h.size, total_append, hpre, zero_add]

variable [DecidableEq G]

theorem Merged.merge (h : Merged l m) (hs : Span.merge m y = some m') : Merged (l ++ [y]) m' := by
  rw [Span.merge] at hs
  split_ifs at hs with hsize hfollows
  · cases hs
    have htotal : m.size + y.size = total (l ++ [y]) := by
      rw [total_append, total_singleton, h.size]
    refine ⟨htotal, fun hne => ?_⟩
    obtain ⟨pre, x, mid, rfl, hpre, hlast, haddr⟩ := h.addr hsize
    refine ⟨pre, x, mid ++ [y], by simp, hpre, fun p hp hnil => ?_, haddr⟩
    rcases List.prefix_concat_iff.mp (show p <+: (x :: mid) ++ [y] from hp) with rfl | hp
    · rw [List.append_assoc, total_append, hpre, zero_add] at htotal
      rw [← htotal]
      exact hne
    · exact hlast p hp hnil
  · cases hs
    rw [not_not] at hsize
    refine ⟨?_, fun hne => ⟨l, y, [], rfl, ?_, lasting_singleton hne, rfl⟩⟩
    · rw [total_append, total_singleton, ← h.size, hsize, zero_add]
    · rw [← h.size, hsize]

theorem merge_eq_none : Span.merge m y = none ↔ m.size ≠ 0 ∧ y.addr = m.addr + m.size := by
  rw [Span.merge]
  split_ifs with hsize hfollows
  · exact iff_of_true rfl ⟨hsize, hfollows⟩
  · exact iff_of_false nofun fun h => hfollows h.2
  · exact iff_of_false nofun fun h => hsize h.1

/-- The spans are merged, from a span of size zero, or one of them is refused. -/
theorem foldlM_merge (hm₀ : m₀.size = 0) (l : List (Span G)) :
    (∃ m, l.foldlM Span.merge m₀ = some m ∧ Merged l m ∧ ¬ Collides l) ∨
      l.foldlM Span.merge m₀ = none ∧ Collides l := by
  induction l using List.reverseRecOn with
  | nil =>
    left
    refine ⟨m₀, rfl, ⟨hm₀, fun hne => absurd hm₀ hne⟩, ?_⟩
    exact not_collides_of_length (Nat.zero_le 1)
  | append_singleton l y ih =>
    rw [List.foldlM_append]
    rcases ih with ⟨m, hfold, hmerged, hnot⟩ | ⟨hfold, hcollides⟩
    · rw [hfold, collides_concat]
      cases hs : Span.merge m y with
      | none =>
        right
        refine ⟨by simp [hs], .inr ?_⟩
        rw [hmerged.follows_iff]
        exact merge_eq_none.mp hs
      | some m' =>
        left
        refine ⟨m', by simp [hs], hmerged.merge hs, ?_⟩
        rintro (hcollides | hfollows)
        · exact hnot hcollides
        · rw [merge_eq_none.mpr (hmerged.follows_iff.mp hfollows)] at hs
          cases hs
    · right
      rw [hfold]
      exact ⟨rfl, collides_concat.mpr (.inl hcollides)⟩

theorem foldlM_merge_eq_none (hm₀ : m₀.size = 0) :
    l.foldlM Span.merge m₀ = none ↔ Collides l := by
  rcases foldlM_merge hm₀ l with ⟨m, hfold, -, hnot⟩ | ⟨hfold, hcollides⟩
  · rw [hfold]
    exact iff_of_false (Option.some_ne_none m) hnot
  · exact iff_of_true hfold hcollides

end Span
end Coursework
