import Coursework.Lib.Preorder
import Mathlib.Data.List.Perm.Basic
import Mathlib.Tactic.Ring

/-!
# Trees with the same leaves added to many nodes

Each inner node of a tree gets the same further leaves. The list of the nodes then has as many more
of a kind as there are leaves of it at one node, times the number of the inner nodes.
-/
namespace Coursework

variable {α : Type*}

/-- The leaves are added to the nodes that `p` selects. -/
def graft (children : α → List α) (p : α → Bool) (leaves : List α) (x : α) : List α :=
  children x ++ if p x then leaves else []

variable {children children' : α → List α} {p : α → Bool} {leaves : List α} {n m : ℕ} {x y : α}

/-! ### Other lists of children -/

theorem DepthLt.mono (h : DepthLt children' n x)
    (hsub : ∀ y, Below children' x y → children y ⊆ children' y) : DepthLt children n x := by
  induction n generalizing x with
  | zero => exact h.elim
  | succ n ih =>
    intro y hy
    have hy' := hsub x .refl hy
    exact ih (h y hy') fun z hz => hsub z (.head hy' hz)

theorem DepthLt.preorder_succ (h : DepthLt children n x) :
    preorder children (n + 1) x = preorder children n x := by
  induction n generalizing x with
  | zero => exact h.elim
  | succ n ih =>
    rw [preorder, preorder]
    congr 1
    exact List.flatMap_congr fun y hy => ih (h y hy)

theorem DepthLt.le (h : DepthLt children n x) (hm : n ≤ m) : DepthLt children m x := by
  induction m, hm using Nat.le_induction with
  | base => exact h
  | succ m hm ih => exact ih.succ

theorem DepthLt.preorder_eq (h : DepthLt children n x) (hm : n ≤ m) :
    preorder children m x = preorder children n x := by
  induction m, hm using Nat.le_induction with
  | base => rfl
  | succ m hm ih => rw [(h.le hm).preorder_succ, ih]

/-- The order of the children does not matter. -/
theorem preorder_perm (h : ∀ y, Below children' x y → (children y).Perm (children' y)) :
    (preorder children n x).Perm (preorder children' n x) := by
  induction n generalizing x with
  | zero => exact .nil
  | succ n ih =>
    refine .cons x ((h x .refl).flatMap fun y hy => ih fun z hz => h z (.head ?_ hz))
    exact (h x .refl).subset hy

/-! ### Grafted leaves -/

theorem DepthLt.graft (h : DepthLt children n x)
    (hleaves : ∀ y ∈ leaves, p y = false ∧ children y = []) :
    DepthLt (graft children p leaves) (n + 1) x := by
  induction n generalizing x with
  | zero => exact h.elim
  | succ n ih =>
    intro y hy
    rcases List.mem_append.mp hy with hy | hy
    · exact ih (h y hy)
    · obtain ⟨hp, hchildren⟩ := hleaves y (List.mem_ite_nil_right.mp hy).2
      intro z hz
      rw [Coursework.graft, hp, hchildren] at hz
      cases hz

/-- There are no inner nodes among the leaves if the tree is still one of finite depth. -/
theorem DepthLt.not_of_mem_leaves (h : DepthLt (Coursework.graft children p leaves) n x)
    (hx : p x = true) (hy : y ∈ leaves) : p y = false := by
  by_contra hp
  rw [Bool.not_eq_false] at hp
  have hmem (z : α) (hz : p z = true) : y ∈ Coursework.graft children p leaves z := by
    rw [Coursework.graft, hz, if_pos rfl]
    exact List.mem_append_right _ hy
  exact (h.below (.single (hmem x hx))).not_below (hmem y hp) .refl

theorem below_graft (hleaves : ∀ y ∈ leaves, p y = false ∧ children y = [])
    (h : Below (graft children p leaves) x y) : Below children x y ∨ y ∈ leaves := by
  induction h with
  | refl => exact .inl .refl
  | @tail z w _ hz ih =>
    rcases List.mem_append.mp hz with hw | hw
    · rcases ih with hb | hb
      · exact .inl (hb.tail hw)
      · rw [(hleaves z hb).2] at hw
        cases hw
    · exact .inr (List.mem_ite_nil_right.mp hw).2

theorem Below.graft (h : Below children x y) : Below (graft children p leaves) x y :=
  h.lift id fun _ _ hz => List.mem_append_left _ hz

theorem countP_flatMap_add {β : Type*} {f g : α → List β} {q r : β → Bool} {k : ℕ} {l : List α}
    (h : ∀ y ∈ l, (f y).countP q = (g y).countP q + (g y).countP r * k) :
    (l.flatMap f).countP q = (l.flatMap g).countP q + (l.flatMap g).countP r * k := by
  induction l with
  | nil => simp
  | cons y l ih =>
    simp only [List.flatMap_cons, List.countP_append]
    rw [h y List.mem_cons_self, ih fun z hz => h z (List.mem_cons_of_mem y hz)]
    ring

theorem countP_graft (h : DepthLt children n x)
    (hleaves : ∀ y ∈ leaves, p y = false ∧ children y = []) (q : α → Bool) :
    (preorder (graft children p leaves) (n + 1) x).countP q =
      (preorder children n x).countP q + (preorder children n x).countP p * leaves.countP q := by
  have hleaf (n : ℕ) : leaves.flatMap (preorder (graft children p leaves) (n + 1)) = leaves := by
    have hsingle : ∀ y ∈ leaves, preorder (graft children p leaves) (n + 1) y = [y] := by
      intro y hy
      rw [preorder, graft, (hleaves y hy).1, (hleaves y hy).2]
      rfl
    rw [List.flatMap_congr hsingle]
    exact List.flatMap_singleton' leaves
  induction n generalizing x with
  | zero => exact h.elim
  | succ n ih =>
    rw [preorder, graft, List.flatMap_append, List.countP_cons, List.countP_append,
      countP_flatMap_add fun y hy => ih (h y hy), preorder, List.countP_cons, List.countP_cons]
    cases p x with
    | true =>
      rw [if_pos rfl, if_pos rfl, hleaf]
      ring
    | false =>
      rw [if_neg Bool.false_ne_true, if_neg Bool.false_ne_true, List.flatMap_nil, List.countP_nil]
      ring

end Coursework
