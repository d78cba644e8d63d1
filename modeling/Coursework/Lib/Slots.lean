import Mathlib.Logic.Function.Basic
import Mathlib.Data.List.Induction

/-!
# Slots that are handed out

A slot holds a pointer or nothing. A history of acts is legal when slots are filled only
while they are empty, cleared only while they are full, and looked at as they are. In a
legal history a slot belongs to whoever filled it until it is cleared.
-/
namespace Coursework

/-- What is done to the slots: `ι` are their indices, `α` what a pointer points to. -/
inductive SlotAct (ι α : Type*) where
  | alloc (object : Option α) (index : ι)
  | release (index : ι)
  | get (index : ι) (ret : Option α)
  deriving DecidableEq

namespace SlotAct
variable {ι α : Type*} [DecidableEq ι]

def act : SlotAct ι α → (ι → Option α) → ι → Option α
  | alloc object index, f => Function.update f index object
  | release index, f => Function.update f index none
  | get _ _, f => f

def Legal (f : ι → Option α) : SlotAct ι α → Prop
  | alloc object index => object ≠ none ∧ f index = none
  | release index => f index ≠ none
  | get index ret => ret = f index

/-- The slots after a history, when all are empty at first. -/
def slots (h : List (SlotAct ι α)) : ι → Option α := h.foldl (fun f a => a.act f) fun _ => none

/-- Every act of the history is legal where it happens. -/
def LegalRun (h : List (SlotAct ι α)) : Prop :=
  ∀ h₁ a h₂, h = h₁ ++ a :: h₂ → a.Legal (slots h₁)

variable {h h₁ h₂ : List (SlotAct ι α)} {a : SlotAct ι α} {object : Option α} {index : ι}

@[simp] theorem slots_nil : slots ([] : List (SlotAct ι α)) = fun _ => none := rfl

theorem slots_concat (h : List (SlotAct ι α)) (a : SlotAct ι α) :
    slots (h ++ [a]) = a.act (slots h) := by
  rw [slots, List.foldl_append, List.foldl_cons, List.foldl_nil, slots]

theorem legalRun_nil : LegalRun ([] : List (SlotAct ι α)) := by
  intro h₁ a h₂ heq
  simp at heq

theorem LegalRun.concat (hh : LegalRun h) (ha : a.Legal (slots h)) : LegalRun (h ++ [a]) := by
  intro h₁ b h₂ heq
  induction h₂ using List.reverseRecOn with
  | nil =>
    obtain ⟨rfl, hab⟩ := List.append_inj' heq rfl
    cases hab
    exact ha
  | append_singleton h₂ c _ =>
    rw [← List.cons_append, ← List.append_assoc] at heq
    obtain ⟨rfl, -⟩ := List.append_inj' heq rfl
    exact hh h₁ b h₂ rfl

theorem LegalRun.of_append (hh : LegalRun (h ++ h₁)) : LegalRun h := by
  rintro l a r rfl
  exact hh l a (r ++ h₁) (by simp)

/-- A slot keeps what was put into it, and stays out of reach, until it is cleared. -/
theorem LegalRun.keeps (hh : LegalRun (h₁ ++ alloc object index :: h₂))
    (hkeep : release index ∉ h₂) : slots (h₁ ++ alloc object index :: h₂) index = object := by
  induction h₂ using List.reverseRecOn with
  | nil => rw [slots_concat, act, Function.update_self]
  | append_singleton h₂ a ih =>
    have hassoc : h₁ ++ alloc object index :: (h₂ ++ [a]) =
        (h₁ ++ alloc object index :: h₂) ++ [a] := by simp
    have hne : a ≠ release index := fun ha => hkeep (by simp [ha])
    have hlegal := hh (h₁ ++ alloc object index :: h₂) a [] (by simp)
    have hfull := (hh h₁ (alloc object index) _ rfl).1
    rw [hassoc] at hh
    have hold := ih hh.of_append fun hin => hkeep (List.mem_append_left _ hin)
    rw [hassoc, slots_concat]
    cases a with
    | alloc object' index' =>
      have hother : index ≠ index' := by
        rintro rfl
        rw [Legal, hold] at hlegal
        exact hfull hlegal.2
      rwa [act, Function.update_of_ne hother]
    | release index' =>
      have hother : index ≠ index' := by
        rintro rfl
        exact hne rfl
      rwa [act, Function.update_of_ne hother]
    | get => exact hold

/-- Until a slot is cleared, looking at it shows what was put in, and it is not filled again. -/
theorem LegalRun.exclusive (hh : LegalRun (h₁ ++ alloc object index :: h₂))
    (hkeep : release index ∉ h₂) :
    (∀ ret, get index ret ∈ h₂ → ret = object) ∧ ∀ object', alloc object' index ∉ h₂ := by
  have hbefore (a : SlotAct ι α) (ha : a ∈ h₂) : ∃ f, a.Legal f ∧ f index = object := by
    obtain ⟨l, r, rfl⟩ := List.append_of_mem ha
    have hassoc : h₁ ++ alloc object index :: (l ++ a :: r) =
        (h₁ ++ alloc object index :: l) ++ a :: r := by simp
    have hlegal := hh _ a r hassoc
    rw [hassoc] at hh
    exact ⟨_, hlegal, hh.of_append.keeps fun hin => hkeep (List.mem_append_left _ hin)⟩
  have hfull := (hh h₁ (alloc object index) _ rfl).1
  constructor
  · intro ret hin
    obtain ⟨f, hlegal, hf⟩ := hbefore _ hin
    rw [← hf]
    exact hlegal
  · intro object' hin
    obtain ⟨f, hlegal, hf⟩ := hbefore _ hin
    exact hfull (hf.symm.trans hlegal.2)

end SlotAct
end Coursework
