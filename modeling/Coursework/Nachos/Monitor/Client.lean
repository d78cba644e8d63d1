import Coursework.Nachos.Monitor.Invariants

/-!
# What the code of a client decides

A client keeps a lock discipline when its locations split into those inside the
lock and those outside, `Acquire` is called outside, all other operations inside, and a
plain step never enters. Then every thread at a location inside owns the lock, so
the calls are made by owners and at most one thread is inside.
-/
namespace Coursework.Nachos.Monitor
open Finset

variable {Tid C K D I : Type} [DecidableEq Tid] [DecidableEq C]

def After.loc : After C K → K
  | .client k => k
  | .waitP _ k => k

/-- The location where the client goes on after the call that it is in. -/
def Pc.loc : Pc C K → K
  | .client k => k
  | .releaseV a => a.loc
  | .acquireP k | .acquireSet k | .waitP _ k | .waitInc _ k => k
  | .signalV _ k | .signalDec _ k | .bcastTest _ k | .bcastV _ k | .bcastDec _ k => k

omit [DecidableEq C] in
theorem After.loc_pc (a : After C K) : a.pc.loc = a.loc := by
  cases a <;> rfl

omit [DecidableEq C] in
theorem Call.loc_start (k : K) (b : Bool) (x : Call C) : (x.start k b).pc.loc = k := by
  cases x <;> rfl

namespace State
variable {code : Code C K D I} {s s' : State Tid C K D} {e : Event Tid I} {t : Tid}

/-- Where each thread goes on after its call. -/
def locs (s : State Tid C K D) (t : Tid) : K := (s.thread t).pc.loc

omit [DecidableEq C] in
theorem locs_update {x : Thread C K} (ht : s'.thread = Function.update s.thread t x) :
    s'.locs = Function.update s.locs t x.pc.loc := by
  funext u
  by_cases hu : u = t
  · subst hu
    simp [locs, ht]
  · simp [locs, ht, hu]

omit [DecidableEq Tid] [DecidableEq C] in
theorem locs_client {k : K} (hpc : (s.thread t).pc = .client k) : s.locs t = k := by
  rw [locs, hpc]
  rfl

omit [DecidableEq C] in
theorem locs_keep {x : Thread C K} (ht : s'.thread = Function.update s.thread t x)
    (hx : x.pc.loc = (s.thread t).pc.loc) : s'.locs = s.locs := by
  rw [locs_update ht, hx]
  exact Function.update_eq_self t s.locs

theorem client_or_kernel (h : Steps code s e s') :
    (∃ k x k' d, (s.thread e.tid).pc = .client k ∧ code k s.data e.input = some (x, k', d) ∧
      s' = { s with data := d }.call e.tid k' x) ∨
    ∀ k, (s.thread e.tid).pc ≠ .client k := by
  cases h with
  | client hpc hcode => exact .inl ⟨_, _, _, _, hpc, hcode, rfl⟩
  | acquireSleep hpc | acquirePass hpc | acquireSet hpc | releaseV hpc | waitSleep hpc
  | waitPass hpc | waitInc hpc | signalV hpc | signalDec hpc | bcastExit hpc | bcastLoop hpc
  | bcastV hpc | bcastDec hpc =>
    right
    simp [hpc]

theorem kernel_keep (hkernel : ∀ k, (s.thread e.tid).pc ≠ .client k) (h : Steps code s e s') :
    s'.data = s.data ∧ s'.locs = s.locs := by
  cases h with
  | client hpc => exact absurd hpc (hkernel _)
  | @releaseV a hpc => exact ⟨rfl, locs_keep rfl (by rw [hpc]; exact a.loc_pc)⟩
  | acquireSleep hpc | acquirePass hpc | acquireSet hpc | waitSleep hpc | waitPass hpc
  | waitInc hpc | signalV hpc | signalDec hpc | bcastExit hpc | bcastLoop hpc | bcastV hpc
  | bcastDec hpc => exact ⟨rfl, locs_keep rfl (by simp [hpc, Pc.loc])⟩

omit [DecidableEq C] in
theorem locs_call {k' : K} (d : D) (x : Call C) :
    ({ s with data := d }.call t k' x).locs = Function.update s.locs t k' := by
  have hlocs := locs_update (call_thread (s := { s with data := d }) (t := t) (k := k') x)
  rwa [x.loc_start] at hlocs

/-- A step is taken by one thread. -/
theorem thread_step (h : Steps code s e s') :
    ∃ x, s'.thread = Function.update s.thread e.tid x := by
  cases h with
  | client => exact ⟨_, call_thread _⟩
  | _ => exact ⟨_, rfl⟩

/-- A step is one of the client's code, or it changes neither the data nor a location. -/
theorem code_or_kernel (h : Steps code s e s') :
    (∃ k x k', (s.thread e.tid).pc = .client k ∧ code k s.data e.input = some (x, k', s'.data) ∧
      s'.locs = Function.update s.locs e.tid k') ∨
    ((∀ k, (s.thread e.tid).pc ≠ .client k) ∧ s'.data = s.data ∧ s'.locs = s.locs) := by
  rcases client_or_kernel h with ⟨k, x, k', d, hpc, hcode, rfl⟩ | hkernel
  · left
    exact ⟨k, x, k', hpc, by rwa [call_data], locs_call d x⟩
  · right
    exact ⟨hkernel, kernel_keep hkernel h⟩

/-- What is seen of the steps of the code, by the location and the input. -/
def seen {α : Type} (see : K → I → List α) (s : State Tid C K D) (e : Event Tid I) : List α :=
  match (s.thread e.tid).pc with
  | .client k => see k e.input
  | _ => []

omit [DecidableEq Tid] [DecidableEq C] in
theorem seen_client {α : Type} {see : K → I → List α} {k : K}
    (hpc : (s.thread e.tid).pc = .client k) : s.seen see e = see k e.input := by
  rw [seen, hpc]

omit [DecidableEq Tid] [DecidableEq C] in
theorem seen_kernel {α : Type} {see : K → I → List α}
    (hpc : ∀ k, (s.thread e.tid).pc ≠ .client k) : s.seen see e = [] := by
  unfold seen
  split
  case h_1 k hk => exact absurd hk (hpc k)
  case h_2 => rfl

/-- Only the code of the client changes the location. -/
theorem loc_step {Q : K → Prop} (hi : ∀ u, Q (s.locs u))
    (hcode : ∀ k x k' d, (s.thread e.tid).pc = .client k → code k s.data e.input = some (x, k', d) →
      Q k → Q k')
    (h : Steps code s e s') : ∀ u, Q (s'.locs u) := by
  rcases code_or_kernel h with ⟨k, x, k', hpc, hc, hlocs⟩ | ⟨-, -, hlocs⟩
  · have hq := hi e.tid
    rw [locs, hpc] at hq
    rw [hlocs]
    exact (Function.forall_update_iff s.locs fun _ => Q).mpr
      ⟨hcode k x k' _ hpc hc hq, fun u _ => hi u⟩
  · rw [hlocs]
    exact hi

end State

/-- What a call at location `k` may do, for a client that goes on at `k'`. -/
def Keeps (inside : K → Bool) (k : K) (x : Call C) (k' : K) : Prop :=
  match x with
  | .acquire => inside k = false ∧ inside k' = true
  | .release => inside k = true ∧ inside k' = false
  | .wait _ | .signal _ | .broadcast _ => inside k = true ∧ inside k' = true
  | .pause => inside k' = true → inside k = true

def Disciplined (code : Code C K D I) (inside : K → Bool) : Prop :=
  ∀ k d i x k' d', code k d i = some (x, k', d') → Keeps inside k x k'

/-- A thread inside owns the lock, or is in a call that brings it inside or outside. -/
def Thread.InsideOwns (inside : K → Bool) (x : Thread C K) : Prop :=
  match x.pc with
  | .client k => inside k = true → x.owns = true
  | .acquireP k | .acquireSet k => inside k = true
  | .releaseV (.client k) => inside k = false ∧ x.owns = false
  | .releaseV (.waitP _ k) => inside k = true
  | .waitP _ k | .waitInc _ k => inside k = true
  | .signalV _ k | .signalDec _ k | .bcastTest _ k | .bcastV _ k | .bcastDec _ k =>
    inside k = true ∧ x.owns = true

section Reach
variable {code : Code C K D I} {d0 : D → Prop} {k0 : K}
  {ok : State Tid C K D → Event Tid I → Prop} {inside : K → Bool} {s s' : State Tid C K D}
  {e : Event Tid I} {t u : Tid} {k k' : K}

theorem loc_ok {Q : K → Prop} (h0 : Q k0)
    (hcode : ∀ s e k x k' d, ok s e → (s.thread e.tid).pc = .client k →
      code k s.data e.input = some (x, k', d) → Q k → Q k')
    (hr : (machine code d0 k0).Reach ok s) : ∀ u, Q (s.thread u).pc.loc := by
  apply hr.invariant (fun s => ∀ u, Q (s.thread u).pc.loc)
  · intro s hs u
    rw [hs.thread u]
    exact h0
  · intro s e s' _ hi hse hs
    exact State.loc_step hi (fun k x k' d hpc hc => hcode s e k x k' d hse hpc hc)
      (State.steps_of_step hs)

/-- An invariant of the data, the locations and what is seen of them is one of the code. -/
theorem seen_ok {α : Type} {see : K → I → List α}
    {ok : State Tid C K D × List α → Event Tid I → Prop} {Q : D → (Tid → K) → List α → Prop}
    (h0 : ∀ d, d0 d → Q d (fun _ => k0) [])
    (hcode : ∀ p e k x k' d,
      ((machine code d0 k0).observe (State.seen see)).Reach ok p → ok p e →
      (p.1.thread e.tid).pc = .client k → code k p.1.data e.input = some (x, k', d) →
      Q p.1.data p.1.locs p.2 → Q d (Function.update p.1.locs e.tid k') (p.2 ++ see k e.input))
    {p : State Tid C K D × List α}
    (hr : ((machine code d0 k0).observe (State.seen see)).Reach ok p) :
    Q p.1.data p.1.locs p.2 := by
  apply hr.invariant (fun p => Q p.1.data p.1.locs p.2)
  · rintro p ⟨hs, hnil⟩
    have hlocs : p.1.locs = fun _ => k0 := by
      funext t
      rw [State.locs, hs.thread t]
      rfl
    rw [hnil, hlocs]
    exact h0 _ hs.data
  · intro p e p' hr hi hse hs
    obtain ⟨hstep, hseen⟩ := Machine.observe_step.mp hs
    rcases State.code_or_kernel (State.steps_of_step hstep) with
      ⟨k, x, k', hpc, hc, hlocs⟩ | ⟨hkernel, hdata, hlocs⟩
    · rw [hseen, hlocs, State.seen_client hpc]
      exact hcode p e k x k' _ hr hse hpc hc hi
    · rw [hseen, hlocs, hdata, State.seen_kernel hkernel, List.append_nil]
      exact hi

theorem insideOwns_step (hd : Disciplined code inside)
    (hi : ∀ u, (s.thread u).InsideOwns inside) (h : State.Steps code s e s') :
    ∀ u, (s'.thread u).InsideOwns inside := by
  have hown := hi e.tid
  cases h with
  | @client k k' d x hpc hcode =>
    have hkeep := hd _ _ _ _ _ _ hcode
    rw [Thread.InsideOwns, hpc] at hown
    cases x with
    | acquire => exact State.forall_thread hi rfl hkeep.2
    | release => exact State.forall_thread hi rfl ⟨hkeep.2, rfl⟩
    | wait => exact State.forall_thread hi rfl hkeep.2
    | signal | broadcast => exact State.forall_thread hi rfl ⟨hkeep.2, hown hkeep.1⟩
    | pause => exact State.forall_thread hi rfl fun hk' => hown (hkeep hk')
  | acquireSet hpc => exact State.forall_thread hi rfl fun _ => rfl
  | @releaseV a hpc =>
    rw [Thread.InsideOwns, hpc] at hown
    cases a with
    | client k => exact State.forall_thread hi rfl fun hk => by simp [hown.1] at hk
    | waitP c k => exact State.forall_thread hi rfl hown
  | signalDec hpc | bcastExit hpc =>
    rw [Thread.InsideOwns, hpc] at hown
    exact State.forall_thread hi rfl fun _ => hown.2
  | acquireSleep hpc | acquirePass hpc | waitSleep hpc | waitPass hpc | waitInc hpc | signalV hpc
  | bcastLoop hpc | bcastV hpc | bcastDec hpc =>
    rw [Thread.InsideOwns, hpc] at hown
    exact State.forall_thread hi rfl hown

theorem inside_owns (hd : Disciplined code inside) (h0 : inside k0 = false)
    (hr : (machine code d0 k0).Reach ok s) : ∀ u, (s.thread u).InsideOwns inside := by
  apply hr.invariant (fun s => ∀ u, (s.thread u).InsideOwns inside)
  · intro s hs u
    rw [hs.thread u]
    exact fun hk => by simp [h0] at hk
  · intro s e s' _ hi _ hs
    exact insideOwns_step hd hi (State.steps_of_step hs)

/-- The discipline makes every call one of an owner. -/
theorem usesHeld (hd : Disciplined code inside) (h0 : inside k0 = false)
    (hr : (machine code d0 k0).Reach ok s) (e : Event Tid I) : s.UsesHeld code e := by
  intro x hx hneed
  cases hpc : (s.thread e.tid).pc with
  | client k =>
    simp only [State.callOf, hpc, Option.mem_def, Option.map_eq_some_iff] at hx
    rcases hx with ⟨⟨x', k', d⟩, hcode, rfl⟩
    have hown := inside_owns hd h0 hr e.tid
    rw [Thread.InsideOwns, hpc] at hown
    have hkeep := hd _ _ _ _ _ _ hcode
    cases x' with
    | acquire | pause => simp [Call.needsLock] at hneed
    | release | wait | signal | broadcast => exact hown hkeep.1
  | _ => simp [State.callOf, hpc] at hx

theorem reach_usesHeld (hd : Disciplined code inside) (h0 : inside k0 = false)
    (hr : (machine code d0 k0).Reach ok s) :
    (machine code d0 k0).Reach (State.UsesHeld code) s :=
  hr.strengthen fun _ e hr _ => usesHeld hd h0 hr e

/-! ### Locations reached with the lock only -/

/-- Calls that leave the lock as it is. -/
def Call.stays : Call C → Bool
  | .signal _ | .broadcast _ | .pause => true
  | .acquire | .release | .wait _ => false

/-- The calls that lead to a location `held`, inside the lock, leave the lock as it is. -/
structure LockedAt (code : Code C K D I) (inside held : K → Bool) : Prop where
  disciplined : Disciplined code inside
  inside : ∀ k, held k = true → inside k = true
  stays : ∀ k d i x k' d', code k d i = some (x, k', d') → held k' = true → x.stays = true

theorem held_step {held : K → Bool} (hl : LockedAt code inside held)
    (hown : ∀ u, (s.thread u).InsideOwns inside)
    (hi : ∀ u, held (s.locs u) = true → s.owns u = true) (h : State.Steps code s e s') :
    ∀ u, held (s'.locs u) = true → s'.owns u = true := by
  have hself := hi e.tid
  have hkeep {x : Thread C K} (ht : s'.thread = Function.update s.thread e.tid x)
      (hx : held x.pc.loc = true → x.owns = true) :
      ∀ u, held (s'.locs u) = true → s'.owns u = true :=
    State.forall_thread (P := fun x => held x.pc.loc = true → x.owns = true) hi ht hx
  rw [State.locs, State.owns] at hself
  cases h with
  | @client k k' d x hpc hcode =>
    have hclient := hown e.tid
    rw [Thread.InsideOwns, hpc] at hclient
    have hx (hk' : held k' = true) : x.stays = true ∧ (s.thread e.tid).owns = true := by
      have hst := hl.stays _ _ _ _ _ _ hcode hk'
      have hdisc := hl.disciplined _ _ _ _ _ _ hcode
      refine ⟨hst, hclient ?_⟩
      cases x with
      | pause => exact hdisc (hl.inside k' hk')
      | signal | broadcast => exact hdisc.1
      | acquire | release | wait => cases hst
    cases x with
    | acquire | release | wait => exact hkeep rfl fun hk' => absurd (hx hk').1 Bool.false_ne_true
    | signal | broadcast | pause => exact hkeep rfl fun hk' => (hx hk').2
  | acquireSet hpc => exact hkeep rfl fun _ => rfl
  | @releaseV a hpc =>
    rw [hpc] at hself
    exact hkeep rfl (by rwa [a.loc_pc])
  | acquireSleep hpc | acquirePass hpc | waitSleep hpc | waitPass hpc | waitInc hpc | signalV hpc
  | signalDec hpc | bcastExit hpc | bcastLoop hpc | bcastV hpc | bcastDec hpc =>
    rw [hpc] at hself
    exact hkeep rfl hself

/-- A thread at such a location owns the lock. -/
theorem held_owns {held : K → Bool} (hl : LockedAt code inside held) (h0 : inside k0 = false)
    (hr : (machine code d0 k0).Reach ok s) : ∀ u, held (s.locs u) = true → s.owns u = true := by
  apply hr.invariant (fun s => ∀ u, held (s.locs u) = true → s.owns u = true)
  · intro s hs u hu
    rw [State.locs, hs.thread u] at hu
    have hk0 : inside k0 = true := hl.inside k0 hu
    rw [h0] at hk0
    cases hk0
  · intro s e s' hr hi _ hs
    exact held_step hl (inside_owns hl.disciplined h0 hr) hi (State.steps_of_step hs)

/-- While the code of one thread runs inside the lock, no other is where the lock is held. -/
theorem held_alone [Fintype Tid] {held : K → Bool} (hl : LockedAt code inside held)
    (h0 : inside k0 = false) (hr : (machine code d0 k0).Reach ok s)
    (ht : (s.thread t).pc = .client k) (hk : inside k = true) (hu : held (s.locs u) = true) :
    u = t := by
  have hown := inside_owns hl.disciplined h0 hr t
  rw [Thread.InsideOwns, ht] at hown
  exact owner_unique (fun _ _ h => h.releasesHeld) (reach_usesHeld hl.disciplined h0 hr)
    (held_owns hl h0 hr u hu) (hown hk)

/-! ### Coming out of the lock -/

/-- A thread at a location `out` does not own the lock. -/
def Thread.OutFree (out : K → Bool) (x : Thread C K) : Prop :=
  ∀ k, x.pc = .client k → out k = true → x.owns = false

theorem outFree_step {out : K → Bool} (hio : ∀ k, inside k = true → out k = false)
    (hplain : ∀ k k' d, (s.thread e.tid).pc = .client k →
      code k s.data e.input = some (.pause, k', d) → out k' = true → out k = true)
    (hin : ∀ u, (s.thread u).InsideOwns inside) (hi : ∀ u, (s.thread u).OutFree out)
    (h : State.Steps code s e s') : ∀ u, (s'.thread u).OutFree out := by
  have hown := hin e.tid
  have hreturn {k : K} {b : Bool} (hk : inside k = true) :
      Thread.OutFree out (⟨.client k, b⟩ : Thread C K) := by
    rintro k' hpc hk'
    cases hpc
    rw [hio k hk] at hk'
    cases hk'
  cases h with
  | @client k k' d x hpc hcode =>
    cases x with
    | pause =>
      apply State.forall_thread hi rfl
      rintro k₂ hpc₂ hk₂
      cases hpc₂
      exact hi e.tid k hpc (hplain k _ d hpc hcode hk₂)
    | acquire | release | wait | signal | broadcast => exact State.forall_thread hi rfl nofun
  | acquireSet hpc =>
    rw [Thread.InsideOwns, hpc] at hown
    exact State.forall_thread hi rfl (hreturn hown)
  | @releaseV a hpc =>
    rw [Thread.InsideOwns, hpc] at hown
    cases a with
    | client k =>
      apply State.forall_thread hi rfl
      intro k' _ _
      exact hown.2
    | waitP c k => exact State.forall_thread hi rfl nofun
  | signalDec hpc | bcastExit hpc =>
    rw [Thread.InsideOwns, hpc] at hown
    exact State.forall_thread hi rfl (hreturn hown.1)
  | acquireSleep | acquirePass | waitSleep | waitPass | waitInc | signalV | bcastLoop | bcastV
  | bcastDec => exact State.forall_thread hi rfl nofun

/-- If no plain step of the code comes out of the lock, whoever is out does not own it. -/
theorem out_free {out : K → Bool} (hd : Disciplined code inside) (h0 : inside k0 = false)
    (hio : ∀ k, inside k = true → out k = false)
    (hplain : ∀ s e k k' d, ok s e → (s.thread e.tid).pc = .client k →
      code k s.data e.input = some (.pause, k', d) → out k' = true → out k = true)
    (hr : (machine code d0 k0).Reach ok s) : ∀ u, (s.thread u).OutFree out := by
  apply hr.invariant (fun s => ∀ u, (s.thread u).OutFree out)
  · intro s hs u k _ _
    rw [hs.thread u]
  · intro s e s' hr hi hse hs
    exact outFree_step hio (fun k k' d => hplain s e k k' d hse) (inside_owns hd h0 hr) hi
      (State.steps_of_step hs)

/-- With every thread out of the lock and none of them an owner, the lock is free. -/
theorem lock_free [Fintype Tid] (hd : Disciplined code inside) (h0 : inside k0 = false)
    (hr : (machine code d0 k0).Reach ok s)
    (hout : ∀ u, (∃ k, (s.thread u).pc = .client k) ∧ s.owns u = false) :
    s.lock.sema.value = 1 := by
  have htok := one_token (fun _ _ h => h.releasesHeld) (reach_usesHeld hd h0 hr)
  have hzero : s.weight Thread.tokens = 0 := by
    apply sum_eq_zero
    intro u _
    obtain ⟨⟨k, hpc⟩, hown⟩ := hout u
    rw [State.owns] at hown
    simp [Thread.tokens, hpc, hown]
  omega

/-- While the semaphore of the lock is free, no thread is on its way out. -/
theorem nobody_leaves [Fintype Tid] (hd : Disciplined code inside) (h0 : inside k0 = false)
    (hr : (machine code d0 k0).Reach ok s) (hv : s.lock.sema.value = 1) (t : Tid)
    (a : After C K) : (s.thread t).pc ≠ .releaseV a := by
  intro hpc
  have htok := one_token (fun _ _ h => h.releasesHeld) (reach_usesHeld hd h0 hr)
  have hle := s.le_weight Thread.tokens t
  have hone : 1 ≤ (s.thread t).tokens := by
    simp [Thread.tokens, hpc]
  omega

end Reach
end Coursework.Nachos.Monitor
