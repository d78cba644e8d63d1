import Coursework.Nachos.Driver.Rounds

/-!
# What a caller has seen when it returns

Each call returns after the interrupt for its own request, and what the device has in store is
explained by the requests before.
-/
namespace Coursework.Nachos.Driver

variable {Tid D Q E R : Type} [DecidableEq Tid]

/-- Request `n` was made, and its interrupt came after that. -/
def Answered (h : List (Seen Tid Q R)) (t : Tid) (n : ℕ) (q : Q) (r : R) : Prop :=
  ∃ before after, h = before ++ .requested t n q r :: after ∧ .done n ∈ after

/-- Requests are numbered in order, and a call returns after the interrupt for its own. -/
def InOrder (before : List (Seen Tid Q R)) : Seen Tid Q R → Prop
  | .requested _ n _ _ => ∀ t m q r, .requested t m q r ∈ before → m < n
  | .returned t n q r => Answered before t n q r
  | _ => True

/-- What a thread knows of its request. -/
def Told (scheduled : List ℕ) (h : List (Seen Tid Q R)) (t : Tid) : Pc Q R → Prop
  | .waitP n q r => ∃ before after, h = before ++ .requested t n q r :: after ∧
      (scheduled = [] → .done n ∈ after)
  | .release n q r | .releaseV n q r => Answered h t n q r
  | _ => True

section Told
variable {scheduled scheduled' : List ℕ} {h l : List (Seen Tid Q R)} {t : Tid} {n : ℕ} {q : Q}
  {r : R} {x : Pc Q R}

omit [DecidableEq Tid]

theorem Answered.append (ha : Answered h t n q r) : Answered (h ++ l) t n q r := by
  rcases ha with ⟨before, after, rfl, hdone⟩
  refine ⟨before, after ++ l, ?_, List.mem_append_left l hdone⟩
  rw [List.append_assoc, List.cons_append]

theorem Told.append (ht : Told scheduled h t x) (hs : scheduled' = [] → scheduled = []) :
    Told scheduled' (h ++ l) t x := by
  cases x with
  | waitP n q r =>
    rcases ht with ⟨before, after, rfl, hdone⟩
    refine ⟨before, after ++ l, ?_, fun hnil => List.mem_append_left l (hdone (hs hnil))⟩
    rw [List.append_assoc, List.cons_append]
  | release n q r | releaseV n q r => exact Answered.append ht
  | _ => trivial

/-- The interrupt tells the thread that waits for it. -/
theorem Told.interrupt (ht : Told scheduled h t x) (hx : x.waiting = none ∨ x.waiting = some n) :
    Told scheduled' (h ++ [.done n]) t x := by
  cases x with
  | waitP m q r =>
    rcases hx with hx | hx
    · cases hx
    · cases hx
      rcases ht with ⟨before, after, rfl, -⟩
      refine ⟨before, after ++ [.done n], ?_, fun _ => by simp⟩
      rw [List.append_assoc, List.cons_append]
  | release n q r | releaseV n q r => exact Answered.append ht
  | _ => trivial

end Told

structure Answers (s : State Tid D Q R) (h : List (Seen Tid Q R)) : Prop where
  numbers : ∀ t n q r, .requested t n q r ∈ h → n < s.issued
  told : ∀ t, Told s.scheduled h t (s.pc t)
  ordered : EachAfter InOrder h

section Fintype
variable {dev : Device D Q E R} {Valid : Q → Prop} {Ready : D → Prop}
  {s s' : State Tid D Q R} {t : Tid} {x : Pc Q R} {e : Event Tid Q E} {h l : List (Seen Tid Q R)}

/-- A step of thread `t` that is not a request. -/
theorem Answers.step_keep (ha : Answers s h) (hpc : s'.pc = Function.update s.pc t x)
    (hsched : s'.scheduled = s.scheduled) (hissued : s'.issued = s.issued)
    (hl : ∀ t n q r, .requested t n q r ∉ l) (hx : Told s'.scheduled (h ++ l) t x)
    (hord : EachAfter InOrder (h ++ l)) : Answers s' (h ++ l) where
  numbers u n q r hmem := by
    rw [hissued]
    rcases List.mem_append.mp hmem with hmem | hmem
    · exact ha.numbers u n q r hmem
    · exact absurd hmem (hl u n q r)
  told u := by
    rw [hpc]
    by_cases hu : u = t
    · rw [hu, Function.update_self]
      exact hx
    · rw [Function.update_of_ne hu]
      apply (ha.told u).append
      rw [hsched]
      exact id
  ordered := hord

/-- The same where nothing is seen of the step. -/
theorem Answers.step_silent (ha : Answers s h) (hpc : s'.pc = Function.update s.pc t x)
    (hsched : s'.scheduled = s.scheduled) (hissued : s'.issued = s.issued)
    (hx : Told s.scheduled h t x) : Answers s' (h ++ []) := by
  apply ha.step_keep hpc hsched hissued
  · exact fun _ _ _ _ => List.not_mem_nil
  · rwa [List.append_nil, hsched]
  · rw [List.append_nil]
    exact ha.ordered

variable [Fintype Tid]

omit [DecidableEq Tid] in
theorem Inv.told_pass (hi : Inv Valid Ready s h) (ha : Answers s h) {n : ℕ} {q : Q} {r : R}
    (hpc : s.pc t = .waitP n q r) (hv : s.done.value ≠ 0) : Answered h t n q r := by
  have ht := ha.told t
  rw [hpc] at ht
  rcases ht with ⟨before, after, heq, hdone⟩
  exact ⟨before, after, heq, hdone (hi.done_of_pass hpc hv).2.2.1⟩

theorem answers_step (hi : Inv Valid Ready s h) (ha : Answers s h)
    (hs : State.Steps dev s e l s') : Answers s' (h ++ l) := by
  cases hs with
  | call hpc | acquireSleep hpc | acquirePass hpc | acquireSet hpc | requestFail hpc =>
    exact ha.step_silent rfl rfl rfl trivial
  | @request t env q d r hpc hreq =>
    refine ⟨?_, ?_, ha.ordered.concat (ha.numbers)⟩
    · intro u n q' r' hmem
      rcases List.mem_append.mp hmem with hmem | hmem
      · exact (ha.numbers u n q' r' hmem).trans (Nat.lt_succ_self _)
      · rw [List.mem_singleton] at hmem
        cases hmem
        exact Nat.lt_succ_self _
    · intro u
      rw [State.goto_pc]
      by_cases hu : u = t
      · rw [hu, Function.update_self]
        exact ⟨h, [], rfl, fun hnil => by simp [State.goto] at hnil⟩
      · rw [Function.update_of_ne hu]
        exact (ha.told u).append fun hnil => by simp [State.goto] at hnil
  | @waitSleep t env n q r hpc hv =>
    have ht := ha.told t
    rw [hpc] at ht
    exact ha.step_silent rfl rfl rfl ht
  | @waitPass t env n q r hpc hv =>
    refine ha.step_keep rfl rfl rfl ?_ ?_ ?_
    · simp
    · exact (hi.told_pass ha hpc hv).append
    · exact ha.ordered.concat trivial
  | @release t env n q r hpc =>
    have ht := ha.told t
    rw [hpc] at ht
    exact ha.step_silent rfl rfl rfl ht
  | @releaseV t env n q r hpc =>
    have ht := ha.told t
    rw [hpc] at ht
    refine ha.step_keep rfl rfl rfl ?_ ?_ ?_
    · simp
    · trivial
    · exact ha.ordered.concat ht
  | @interrupt n hn =>
    obtain ⟨p, hr, hp⟩ := hi.rounds
    refine ⟨?_, ?_, ha.ordered.concat trivial⟩
    · intro u m q r hmem
      apply ha.numbers u m q r
      simpa using hmem
    · intro u
      apply (ha.told u).interrupt
      cases p with
      | free | done m =>
        rw [hp.2.1] at hn
        cases hn
      | requested m =>
        obtain ⟨⟨w, hw⟩, hsched, -⟩ := hp
        rw [hsched, List.mem_singleton] at hn
        subst hn
        cases hu : (s.pc u).waiting with
        | none => exact .inl rfl
        | some k =>
          rw [← hi.holder_unique (Pc.holds_of_waiting hu) (Pc.holds_of_waiting hw), hw] at *
          exact .inr hu.symm

/-- Every call returns after the interrupt for its own request. -/
theorem answers_reach {d0 : D → Prop} (hserve : Serves dev Valid Ready) (h0 : ∀ d, d0 d → Ready d)
    {ok : State Tid D Q R × List (Seen Tid Q R) → Event Tid Q E → Prop}
    (hok : ∀ p e, ok p e → e.Valid Valid) {p : State Tid D Q R × List (Seen Tid Q R)}
    (hr : ((machine dev d0).observe (State.seen dev)).Reach ok p) : Answers p.1 p.2 := by
  apply hr.invariant (fun p => Answers p.1 p.2)
  · rintro ⟨s, l⟩ ⟨hs, rfl⟩
    have hs : Start d0 s := hs
    refine ⟨by simp, ?_, .nil⟩
    intro t
    rw [hs.pc t]
    trivial
  · intro p e p' hp ha hpe hs
    obtain ⟨hstep, hseen⟩ := Machine.observe_step.mp hs
    rw [hseen]
    exact answers_step (inv_reach hserve h0 hok hp) ha (State.steps_of_step hstep)

end Fintype

/-! ### The device and the requests made of it -/

/-- `J` relates the device to what was seen so far. -/
structure Explains (dev : Device D Q E R) (J : D → List (Seen Tid Q R) → Prop) : Prop where
  request : ∀ {d d' h t n q e r}, J d h → dev.request d q e = some (d', r) →
    J d' (h ++ [.requested t n q r])
  finish : ∀ {d h n}, J d h → J (dev.finish d) (h ++ [.done n])
  passed : ∀ {d h t n}, J d h → J d (h ++ [.passed t n])
  returned : ∀ {d h t n q r}, J d h → J d (h ++ [.returned t n q r])

section Explains
variable {dev : Device D Q E R} {J : D → List (Seen Tid Q R) → Prop}

theorem Explains.step (hJ : Explains dev J) {s s' : State Tid D Q R} {e : Event Tid Q E}
    {h l : List (Seen Tid Q R)} (hj : J s.device h) (hs : State.Steps dev s e l s') :
    J s'.device (h ++ l) := by
  cases hs with
  | request _ hreq => exact hJ.request hj hreq
  | waitPass => exact hJ.passed hj
  | releaseV => exact hJ.returned hj
  | interrupt => exact hJ.finish hj
  | _ =>
    rw [List.append_nil]
    exact hj

theorem Explains.reach (hJ : Explains dev J) {d0 : D → Prop} (h0 : ∀ d, d0 d → J d [])
    {ok : State Tid D Q R × List (Seen Tid Q R) → Event Tid Q E → Prop}
    {p : State Tid D Q R × List (Seen Tid Q R)}
    (hr : ((machine dev d0).observe (State.seen dev)).Reach ok p) : J p.1.device p.2 := by
  apply hr.invariant (fun p => J p.1.device p.2)
  · rintro ⟨s, l⟩ ⟨hs, rfl⟩
    have hs : Start d0 s := hs
    exact h0 _ hs.device
  · intro p e p' _ hj _ hs
    obtain ⟨hstep, hseen⟩ := Machine.observe_step.mp hs
    rw [hseen]
    exact hJ.step hj (State.steps_of_step hstep)

end Explains
end Coursework.Nachos.Driver
