import Mathlib.Data.Set.Card
import Mathlib.Logic.Relation

/-!
# Trees given by the children of a node

A tree of finite depth is listed node by node, each one before those below it. The list has
exactly the nodes of the tree, and each of them once when no node is below two children of
another.
-/
namespace Coursework

variable {α : Type*} (children : α → List α)

/-- The second node is the first one or below it. -/
abbrev Below : α → α → Prop := Relation.ReflTransGen fun x y => y ∈ children x

/-- Fewer than `n` nodes follow each other downward from `x`. -/
def DepthLt : ℕ → α → Prop
  | 0, _ => False
  | n + 1, x => ∀ y ∈ children x, DepthLt n y

/-- A node, then the trees of its children. -/
def preorder : ℕ → α → List α
  | 0, _ => []
  | n + 1, x => x :: (children x).flatMap (preorder n)

instance DepthLt.decidable : (n : ℕ) → (x : α) → Decidable (DepthLt children n x)
  | 0, _ => .isFalse id
  | n + 1, x =>
    have (y : α) : Decidable (DepthLt children n y) := DepthLt.decidable n y
    inferInstanceAs (Decidable (∀ y ∈ children x, DepthLt children n y))

variable {children} {n : ℕ} {x y : α}

theorem DepthLt.succ (h : DepthLt children n x) : DepthLt children (n + 1) x := by
  induction n generalizing x with
  | zero => exact h.elim
  | succ n ih => exact fun y hy => ih (h y hy)

theorem DepthLt.below (h : DepthLt children n x) (hb : Below children x y) :
    DepthLt children n y := by
  induction hb with
  | refl => exact h
  | tail _ hz ih =>
    cases n with
    | zero => exact ih.elim
    | succ n => exact (ih _ hz).succ

/-- In a tree of finite depth a node is not below a child of its own. -/
theorem DepthLt.not_below (h : DepthLt children n x) (hy : y ∈ children x) :
    ¬ Below children y x := by
  intro hb
  induction n with
  | zero => exact h
  | succ n ih => exact ih ((h y hy).below hb)

theorem mem_preorder (h : DepthLt children n x) :
    y ∈ preorder children n x ↔ Below children x y := by
  induction n generalizing x with
  | zero => exact h.elim
  | succ n ih =>
    have hhead : Below children x y ↔ x = y ∨ ∃ z, z ∈ children x ∧ Below children z y :=
      Relation.ReflTransGen.cases_head_iff
    have hbelow : (∃ z ∈ children x, y ∈ preorder children n z) ↔
        ∃ z, z ∈ children x ∧ Below children z y := by
      apply exists_congr
      intro z
      exact and_congr_right fun hz => ih (h z hz)
    rw [preorder, List.mem_cons, List.mem_flatMap, hhead, hbelow, eq_comm]

/-- What can be checked node by node holds below the root. -/
theorem DepthLt.forall_below {p : α → Prop} (h : DepthLt children n x)
    (hall : ∀ y ∈ preorder children n x, p y) (y : α) (hy : Below children x y) : p y :=
  hall y ((mem_preorder h).mpr hy)

theorem nodup_preorder (h : DepthLt children n x)
    (hchildren : ∀ y, Below children x y → (children y).Nodup)
    (hapart : ∀ y, Below children x y → ∀ z ∈ children y, ∀ z' ∈ children y, ∀ w,
      Below children z w → Below children z' w → z = z') :
    (preorder children n x).Nodup := by
  induction n generalizing x with
  | zero => exact h.elim
  | succ n ih =>
    have hhead {z : α} (hz : z ∈ children x) {w : α} (hw : Below children z w) :
        Below children x w := .head hz hw
    rw [preorder, List.nodup_cons, List.mem_flatMap, List.nodup_flatMap]
    refine ⟨?_, fun z hz => ?_, ?_⟩
    · rintro ⟨z, hz, hx⟩
      exact h.not_below hz ((mem_preorder (h z hz)).mp hx)
    · exact ih (h z hz) (fun y hy => hchildren y (hhead hz hy))
        fun y hy => hapart y (hhead hz hy)
    · refine (hchildren x .refl).imp_of_mem fun {z z'} hz hz' hne w hw hw' => hne ?_
      exact hapart x .refl z hz z' hz' w ((mem_preorder (h z hz)).mp hw)
        ((mem_preorder (h z' hz')).mp hw')

/-- The nodes of a tree can be counted in its list. -/
theorem countP_preorder (h : DepthLt children n x) (hnodup : (preorder children n x).Nodup)
    (p : α → Bool) :
    (preorder children n x).countP p = {y | Below children x y ∧ p y = true}.ncard := by
  classical
  have hset : {y | Below children x y ∧ p y = true} =
      (((preorder children n x).filter p).toFinset : Set α) := by
    ext y
    simp [mem_preorder h]
  rw [hset, Set.ncard_coe_finset, List.toFinset_card_of_nodup (hnodup.filter p),
    List.countP_eq_length_filter]

/-- What is kept of what the nodes of a list yield, where each node yields nothing or one thing that
is kept and names the node. -/
theorem filter_map_flatMap {β : Type*} {f : α → List β} {g : β → α} {p : α → Bool} {q : β → Bool}
    (hone : ∀ x, ((f x).filter q).map g = if p x then [x] else []) (l : List α) :
    ((l.flatMap f).filter q).map g = l.filter p := by
  induction l with
  | nil => rfl
  | cons x l ih =>
    rw [List.flatMap_cons, List.filter_append, List.map_append, hone, ih, List.filter_cons]
    split_ifs <;> rfl

theorem countP_flatMap {β : Type*} {f : α → List β} {g : β → α} {p : α → Bool} {q : β → Bool}
    (hone : ∀ x, ((f x).filter q).map g = if p x then [x] else []) (l : List α) :
    (l.flatMap f).countP q = l.countP p := by
  rw [List.countP_eq_length_filter, List.countP_eq_length_filter, ← filter_map_flatMap hone,
    List.length_map]

end Coursework
