import Mathlib.Data.Option.Basic
import Mathlib.Data.List.Basic

/-!
# Machines driven by events

A machine takes at most one step from a state under an event; the event carries
every choice that the scheduler, the environment or a caller makes. A run is
a list of events. `Reach ok` collects the states of the runs whose steps all
meet the condition `ok`, and `observe` records what an onlooker sees of a run.
-/
namespace Coursework

structure Machine (σ ε : Type*) where
  init : σ → Prop
  step : σ → ε → Option σ

namespace Machine
variable {σ ε α : Type*} (M : Machine σ ε)

def run : σ → List ε → Option σ
  | s, [] => some s
  | s, e :: es => (M.step s e).bind fun s' => run s' es

/-- Every step taken by the run from `s` meets `ok`. -/
def Meets (ok : σ → ε → Prop) : σ → List ε → Prop
  | _, [] => True
  | s, e :: es => ∀ s' ∈ M.step s e, ok s e ∧ Meets ok s' es

/-- Every state of the run from `s` satisfies `P`. -/
def Visits (P : σ → Prop) : σ → List ε → Prop
  | s, [] => P s
  | s, e :: es => P s ∧ ∀ s' ∈ M.step s e, Visits P s' es

instance Meets.decidable (ok : σ → ε → Prop) [∀ s e, Decidable (ok s e)] :
    (s : σ) → (es : List ε) → Decidable (M.Meets ok s es)
  | _, [] => .isTrue trivial
  | s, e :: es =>
    have (s' : σ) : Decidable (M.Meets ok s' es) := Meets.decidable ok s' es
    inferInstanceAs (Decidable (∀ s' ∈ M.step s e, ok s e ∧ M.Meets ok s' es))

/-- States of the runs in which every step `e` taken from a state `s` has `ok s e`. -/
inductive Reach (ok : σ → ε → Prop) : σ → Prop where
  | init {s : σ} (h : M.init s) : Reach ok s
  | step {s s' : σ} {e : ε} (h : Reach ok s) (hok : ok s e) (hs : M.step s e = some s') :
      Reach ok s'

/-- States of all runs. -/
abbrev Reachable : σ → Prop := M.Reach fun _ _ => True

variable {M} {ok ok' : σ → ε → Prop}

@[simp] theorem run_nil (s : σ) : M.run s [] = some s := rfl

@[simp] theorem run_cons (s : σ) (e : ε) (es : List ε) :
    M.run s (e :: es) = (M.step s e).bind fun s' => M.run s' es := rfl

theorem run_append (s : σ) (es es' : List ε) :
    M.run s (es ++ es') = (M.run s es).bind fun s' => M.run s' es' := by
  induction es generalizing s with
  | nil => rfl
  | cons e es ih =>
    rw [List.cons_append, run_cons, run_cons, Option.bind_assoc]
    congr 1
    funext s'
    exact ih s'

/-- An invariant may use that the states it is shown for are reached. -/
theorem Reach.invariant {s : σ} (h : M.Reach ok s) (I : σ → Prop) (h0 : ∀ s, M.init s → I s)
    (hstep : ∀ s e s', M.Reach ok s → I s → ok s e → M.step s e = some s' → I s') : I s := by
  induction h with
  | init hi => exact h0 _ hi
  | step hr hok hs ih => exact hstep _ _ _ hr ih hok hs

/-- A condition that the reached states supply may be added to every step. -/
theorem Reach.strengthen (h : ∀ s e, M.Reach ok s → ok s e → ok' s e) {s : σ}
    (hs : M.Reach ok s) : M.Reach ok' s := by
  induction hs with
  | init hi => exact .init hi
  | step hr hok hs ih => exact .step ih (h _ _ hr hok) hs

theorem Reach.run {s s' : σ} {es : List ε} (h : M.Reach ok s) (hm : M.Meets ok s es)
    (hr : M.run s es = some s') : M.Reach ok s' := by
  induction es generalizing s with
  | nil =>
    cases hr
    exact h
  | cons e es ih =>
    obtain ⟨u, hu, hr⟩ := Option.bind_eq_some_iff.mp hr
    exact ih (h.step (hm u hu).1 hu) (hm u hu).2 hr

theorem Visits.first {P : σ → Prop} {s : σ} {es : List ε} (h : M.Visits P s es) : P s := by
  cases es with
  | nil => exact h
  | cons e es => exact h.1

theorem Visits.last {P : σ → Prop} {s s' : σ} {es : List ε} (h : M.Visits P s es)
    (hr : M.run s es = some s') : P s' := by
  induction es generalizing s with
  | nil =>
    cases hr
    exact h
  | cons e es ih =>
    obtain ⟨u, hu, hr⟩ := Option.bind_eq_some_iff.mp hr
    exact ih (h.2 u hu) hr

theorem meets_true (s : σ) (es : List ε) : M.Meets (fun _ _ => True) s es := by
  induction es generalizing s with
  | nil => trivial
  | cons e es ih => exact fun s' _ => ⟨trivial, ih s'⟩

theorem Reachable.run (es : List ε) {s s' : σ} (h : M.Reachable s) (hr : M.run s es = some s') :
    M.Reachable s' :=
  Reach.run h (meets_true s es) hr

/-- What the steps that meet `ok` keep holds at the end of a run of them. -/
theorem Meets.invariant {I : σ → Prop}
    (hstep : ∀ s e s', I s → ok s e → M.step s e = some s' → I s') {s s' : σ} {es : List ε}
    (hm : M.Meets ok s es) (hi : I s) (hr : M.run s es = some s') : I s' := by
  induction es generalizing s with
  | nil =>
    cases hr
    exact hi
  | cons e es ih =>
    obtain ⟨u, hu, hr⟩ := Option.bind_eq_some_iff.mp hr
    exact ih (hm u hu).2 (hstep s e u hi (hm u hu).1 hu) hr

/-- A run whose steps keep an invariant passes only through states that have it. -/
theorem Meets.visits {I P : σ → Prop} (hP : ∀ s, I s → P s)
    (hstep : ∀ s e s', I s → ok s e → M.step s e = some s' → I s') {s : σ} {es : List ε}
    (hm : M.Meets ok s es) (hi : I s) : M.Visits P s es := by
  induction es generalizing s with
  | nil => exact hP s hi
  | cons e es ih =>
    exact ⟨hP s hi, fun s' hs => ih (hm s' hs).2 (hstep s e s' hi (hm s' hs).1 hs)⟩

/-- Under an invariant one condition on the steps may be replaced by another. -/
theorem Meets.imp {I : σ → Prop}
    (hstep : ∀ s e s', I s → ok s e → M.step s e = some s' → ok' s e ∧ I s') {s : σ} {es : List ε}
    (hm : M.Meets ok s es) (hi : I s) : M.Meets ok' s es := by
  induction es generalizing s with
  | nil => trivial
  | cons e es ih =>
    intro s' hs
    obtain ⟨hok, hi'⟩ := hstep s e s' hi (hm s' hs).1 hs
    exact ⟨hok, ih (hm s' hs).2 hi'⟩

/-- Under an invariant one property of the states may be replaced by another. -/
theorem Visits.imp {I P Q : σ → Prop} (hPQ : ∀ s, I s → P s → Q s)
    (hstep : ∀ s e s', I s → M.step s e = some s' → I s') {s : σ} {es : List ε}
    (hv : M.Visits P s es) (hi : I s) : M.Visits Q s es := by
  induction es generalizing s with
  | nil => exact hPQ s hi hv
  | cons e es ih => exact ⟨hPQ s hi hv.1, fun s' hs => ih (hv.2 s' hs) (hstep s e s' hi hs)⟩

/-- Where steps that meet `ok` keep an invariant and any other step ends where `P` fails, `P` stays
true exactly along the runs whose steps all meet `ok`. -/
theorem visits_iff_meets {pre : σ → ε → Prop} {I P : σ → Prop} (hP : ∀ s, I s → P s)
    (hgood : ∀ s e s', I s → pre s e → ok s e → M.step s e = some s' → I s')
    (hbad : ∀ s e s', I s → ¬ ok s e → M.step s e = some s' → ¬ P s') {s : σ} {es : List ε}
    (hi : I s) (hpre : M.Meets pre s es) : M.Visits P s es ↔ M.Meets ok s es := by
  induction es generalizing s with
  | nil => exact ⟨fun _ => trivial, fun _ => hP s hi⟩
  | cons e es ih =>
    constructor
    · intro hv s' hs
      have hok : ok s e := by
        by_contra hno
        exact hbad s e s' hi hno hs (hv.2 s' hs).first
      have hi' := hgood s e s' hi (hpre s' hs).1 hok hs
      exact ⟨hok, (ih hi' (hpre s' hs).2).mp (hv.2 s' hs)⟩
    · intro hm
      refine ⟨hP s hi, fun s' hs => ?_⟩
      have hi' := hgood s e s' hi (hpre s' hs).1 (hm s' hs).1 hs
      exact (ih hi' (hpre s' hs).2).mpr (hm s' hs).2

/-- Another machine goes along with the steps that meet `ok`, and so with a run of them. -/
theorem Meets.simulated {τ : Type*} {N : Machine τ ε} {R : σ → τ → Prop}
    (hstep : ∀ s t e s', R s t → ok s e → M.step s e = some s' →
      ∃ t', N.step t e = some t' ∧ R s' t')
    {s s' : σ} {t : τ} {es : List ε} (hm : M.Meets ok s es) (hR : R s t)
    (hr : M.run s es = some s') : ∃ t', N.run t es = some t' ∧ R s' t' := by
  induction es generalizing s t with
  | nil =>
    cases hr
    exact ⟨t, rfl, hR⟩
  | cons e es ih =>
    obtain ⟨u, hu, hr⟩ := Option.bind_eq_some_iff.mp hr
    obtain ⟨t₁, ht₁, hR₁⟩ := hstep s t e u hR (hm u hu).1 hu
    obtain ⟨t', ht', hR'⟩ := ih (hm u hu).2 hR₁ hr
    exact ⟨t', by rw [run_cons, ht₁]; exact ht', hR'⟩

/-- The machine with a record of what is seen at each step. -/
def observe (M : Machine σ ε) (see : σ → ε → List α) : Machine (σ × List α) ε where
  init p := M.init p.1 ∧ p.2 = []
  step p e := (M.step p.1 e).map fun s' => (s', p.2 ++ see p.1 e)

theorem observe_step {see : σ → ε → List α} {p p' : σ × List α} {e : ε} :
    (M.observe see).step p e = some p' ↔
      M.step p.1 e = some p'.1 ∧ p'.2 = p.2 ++ see p.1 e := by
  rcases p' with ⟨s', h'⟩
  simp only [observe, Option.map_eq_some_iff, Prod.mk.injEq]
  constructor
  · rintro ⟨u, hu, rfl, rfl⟩
    exact ⟨hu, rfl⟩
  · rintro ⟨hu, rfl⟩
    exact ⟨s', hu, rfl, rfl⟩

/-- Watching a machine does not change where it goes. -/
theorem Reach.of_observe {see : σ → ε → List α} {seeOk : σ × List α → ε → Prop}
    {p : σ × List α} (h : (M.observe see).Reach seeOk p) (ok : σ → ε → Prop)
    (hok : ∀ p e, seeOk p e → ok p.1 e) : M.Reach ok p.1 := by
  induction h with
  | init hi => exact .init hi.1
  | step hr hp hs ih => exact .step ih (hok _ _ hp) (observe_step.mp hs).1

theorem Reach.forget {see : σ → ε → List α} {seeOk : σ × List α → ε → Prop} {p : σ × List α}
    (h : (M.observe see).Reach seeOk p) : M.Reachable p.1 :=
  h.of_observe _ fun _ _ _ => trivial

end Machine
end Coursework
