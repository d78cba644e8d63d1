import Coursework.Nachos.Monitor.Client

/-!
# Data that only the thread inside the lock changes

A client looks at its data and changes them at the locations inside the lock. What a
thread knows at a location reached without giving the lock up (`held`) is about the data
and the calls completed so far; what it knows elsewhere is about its own arguments. The
rule: if each step of the code keeps what its own thread knows, every thread's knowledge
holds in every reachable state, and when nobody is at a held location the data
are in the state in which the object is left.
-/
namespace Coursework.Nachos.Monitor

variable {Tid C K D I G α : Type} [DecidableEq Tid] [DecidableEq C]

/-- The obligations of the code. `g : G` stands for values that the data determine. -/
structure Critical (code : Code C K D I) (Ok : I → Prop) (inside held : K → Bool)
    (see : K → I → List α) (Good : G → D → Prop) (Fits : G → D → List α → K → Prop)
    (Idle : G → D → List α → Prop) : Prop where
  locked : LockedAt code inside held
  stable : ∀ ⦃g d h k g' d' h'⦄, Fits g d h k → held k = false → Fits g' d' h' k
  inside_step : ∀ ⦃g d h k i x k' d'⦄, Ok i → Good g d → Fits g d h k → inside k = true →
    (held k = false → Idle g d h) → code k d i = some (x, k', d') →
    ∃ g', Good g' d' ∧ Fits g' d' (h ++ see k i) k' ∧
      (held k' = false → Idle g' d' (h ++ see k i))
  outside_step : ∀ ⦃g d h k i x k' d'⦄, Ok i → Good g d → Fits g d h k → inside k = false →
    code k d i = some (x, k', d') → d' = d ∧ see k i = [] ∧ Fits g d h k'

/-- What holds of the data, the locations and the completed calls. -/
structure Known (held : K → Bool) (Good : G → D → Prop) (Fits : G → D → List α → K → Prop)
    (Idle : G → D → List α → Prop) (g : G) (d : D) (loc : Tid → K) (h : List α) : Prop where
  good : Good g d
  fits : ∀ t, Fits g d h (loc t)
  idle : (∀ t, held (loc t) = false) → Idle g d h

variable {code : Code C K D I} {Ok : I → Prop} {inside held : K → Bool} {see : K → I → List α}
  {Good : G → D → Prop} {Fits : G → D → List α → K → Prop} {Idle : G → D → List α → Prop}
  {g : G} {d d' : D} {loc : Tid → K} {h : List α} {t : Tid} {i : I} {x : Call C} {k k' : K}
  {d0 : D → Prop} {k0 : K}

omit [DecidableEq C] in
theorem Known.act_inside (hc : Critical code Ok inside held see Good Fits Idle)
    (hi : Known held Good Fits Idle g d loc h) (hok : Ok i) (hin : inside (loc t) = true)
    (halone : ∀ u, held (loc u) = true → u = t) (hcode : code (loc t) d i = some (x, k', d')) :
    ∃ g', Known held Good Fits Idle g' d' (Function.update loc t k') (h ++ see (loc t) i) := by
  have hother (u : Tid) (hu : u ≠ t) : held (loc u) = false :=
    Bool.eq_false_iff.mpr fun hheld => hu (halone u hheld)
  have hidle (ht : held (loc t) = false) : Idle g d h := by
    apply hi.idle
    intro u
    by_cases hu : u = t
    · rw [hu, ht]
    · exact hother u hu
  obtain ⟨g', hgood, hfits, hend⟩ := hc.inside_step hok hi.good (hi.fits t) hin hidle hcode
  refine ⟨g', hgood, ?_, fun hnone => hend ?_⟩
  · exact (Function.forall_update_iff loc fun _ => Fits g' d' _).mpr
      ⟨hfits, fun u hu => hc.stable (hi.fits u) (hother u hu)⟩
  · simpa using hnone t

omit [DecidableEq C] in
theorem Known.act_outside (hc : Critical code Ok inside held see Good Fits Idle)
    (hi : Known held Good Fits Idle g d loc h) (hok : Ok i) (hin : inside (loc t) = false)
    (hcode : code (loc t) d i = some (x, k', d')) :
    Known held Good Fits Idle g d' (Function.update loc t k') (h ++ see (loc t) i) := by
  obtain ⟨rfl, hnone, hfits⟩ := hc.outside_step hok hi.good (hi.fits t) hin hcode
  have hheld : held (loc t) = false := by
    apply Bool.eq_false_iff.mpr
    intro ht
    rw [hc.locked.inside _ ht] at hin
    cases hin
  rw [hnone, List.append_nil]
  refine ⟨hi.good, ?_, fun hnot => hi.idle fun u => ?_⟩
  · exact (Function.forall_update_iff loc fun _ => Fits g d' h).mpr ⟨hfits, fun u _ => hi.fits u⟩
  · by_cases hu : u = t
    · rw [hu, hheld]
    · simpa [hu] using hnot u

variable [Fintype Tid]

theorem known {ok : State Tid C K D × List α → Event Tid I → Prop}
    (hc : Critical code Ok inside held see Good Fits Idle) (h0 : inside k0 = false)
    (hstart : ∀ d, d0 d → ∃ g, Known held Good Fits Idle g d (fun _ : Tid => k0) [])
    (hok : ∀ p e, ok p e → Ok e.input) {p : State Tid C K D × List α}
    (hr : ((machine code d0 k0).observe (State.seen see)).Reach ok p) :
    ∃ g, Known held Good Fits Idle g p.1.data p.1.locs p.2 := by
  refine seen_ok (Q := fun d loc h => ∃ g, Known held Good Fits Idle g d loc h) hstart ?_ hr
  rintro p e k x k' d hr hpe hpc hcode ⟨g, hi⟩
  obtain rfl := State.locs_client hpc
  by_cases hin : inside (p.1.locs e.tid) = true
  · apply hi.act_inside hc (hok p e hpe) hin _ hcode
    intro u hu
    exact held_alone hc.locked h0 hr.forget hpc hin hu
  · exact ⟨g, hi.act_outside hc (hok p e hpe) (Bool.eq_false_iff.mpr hin) hcode⟩

end Coursework.Nachos.Monitor
