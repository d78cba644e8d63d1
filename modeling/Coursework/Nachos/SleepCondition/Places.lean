import Coursework.Nachos.SleepCondition

/-!
# Where a thread is

A thread is in one list at most: the ready list, or the queue of a lock or a condition. Where it
stands in the code says which one. The operations are followed with the current thread between
two statements.
-/
namespace Coursework.Nachos.SleepCondition

variable {Tid Lid Cid : Type} [DecidableEq Tid] [DecidableEq Lid] [DecidableEq Cid]

/-- The lists that a thread can be in. -/
inductive Place (Lid Cid : Type) where
  | ready
  | lock (l : Lid)
  | cond (c : Cid)
  deriving DecidableEq

def State.lists (s : State Tid Lid Cid) : Place Lid Cid → List Tid
  | .ready => s.readyList
  | .lock l => (s.lock l).queue
  | .cond c => s.cond c

/-- Where a call of `Acquire` that has saved `oldLevel` returns to. -/
def Pc.Returns (oldLevel : IntStatus) : Pc Lid Cid → Prop
  | .outside => True
  | .waitEnd _ => oldLevel = .off
  | _ => False

/-- The list that the current thread (`true`) or another one at a place is in. -/
def Pc.Stands (x : Pc Lid Cid) (current : Bool) (h : Option (Place Lid Cid)) : Prop :=
  match current, x with
  | true, .root | true, .outside | true, .oneTick .outside | true, .yielded _ .outside
  | true, .waitAcquire _ _ _ | true, .waitEnd _ | true, .assertFailed => h = none
  | true, .acquired _ oldLevel k => h = none ∧ k.Returns oldLevel
  | true, .waitRelease c _ _ | true, .waitSleep c _ _ | true, .sleep (.waitAcquire c _ _) =>
    h = some (.cond c)
  | true, .sleep (.acquired l oldLevel k) => h = some (.lock l) ∧ k.Returns oldLevel
  | false, .created => h = none
  | false, .root | false, .yielded _ .outside => h = some .ready
  | false, .waitAcquire c _ _ => h = some .ready ∨ h = some (.cond c)
  | false, .acquired l oldLevel k => (h = some .ready ∨ h = some (.lock l)) ∧ k.Returns oldLevel
  | _, _ => False

variable {x k : Pc Lid Cid} {h : Option (Place Lid Cid)} {s s' : State Tid Lid Cid}
  {t nextThread : Tid} {l : Lid} {c : Cid} {p : Place Lid Cid} {q rest : List Tid}
  {oldLevel now : IntStatus} {mainThread : Tid}

section
omit [DecidableEq Lid] [DecidableEq Cid]

/-- A thread that leaves a queue may be in the ready list. -/
theorem Pc.Stands.wake (hx : x.Stands false (some p)) : x.Stands false (some .ready) := by
  cases x with
  | root => exact rfl
  | yielded old k =>
    cases k with
    | outside => exact rfl
    | _ => exact hx
  | waitAcquire c l old => exact .inl rfl
  | acquired l old k => exact ⟨.inl rfl, hx.2⟩
  | created => cases hx
  | _ => exact hx

/-- A thread in the ready list goes on where it stands. -/
theorem Pc.Stands.resume (hx : x.Stands false (some .ready)) : x.Stands true none := by
  cases x with
  | root => exact rfl
  | yielded old k =>
    cases k with
    | outside => exact rfl
    | _ => exact hx
  | waitAcquire c l old => exact rfl
  | acquired l old k => exact ⟨rfl, hx.2⟩
  | created => cases hx
  | _ => exact hx.elim

theorem Pc.Returns.stands (hk : k.Returns oldLevel) :
    k.Stands true none ∧ (oldLevel = .on → k = .outside) := by
  cases k with
  | outside => exact ⟨rfl, fun _ => rfl⟩
  | waitEnd old =>
    refine ⟨rfl, fun hon => ?_⟩
    cases hon.symm.trans hk
  | _ => exact hk.elim

end

/-- Every thread but the current one is in the list that its place says; the current one is in
`h`. -/
def Mid (h : Option (Place Lid Cid)) (s : State Tid Lid Cid) : Prop :=
  ∃ home, Placed s.lists home ∧ home s.currentThread = h ∧
    ∀ t, t ≠ s.currentThread → (s.pc t).Stands false (home t)

structure Inv (s : State Tid Lid Cid) : Prop where
  here : ∃ h, (s.pc s.currentThread).Stands true h ∧ Mid h s
  level : s.level = .on → s.pc s.currentThread = .outside
  holder : ∀ c l oldLevel, s.pc s.currentThread = .waitRelease c l oldLevel →
    (s.lock l).threadHoldLock = some s.currentThread

/-! ### Between two statements -/

theorem Mid.congr (hm : Mid h s) (hlists : ∀ p, s'.lists p = s.lists p)
    (hcur : s'.currentThread = s.currentThread)
    (hpc : ∀ t, t ≠ s.currentThread → s'.pc t = s.pc t) : Mid h s' := by
  obtain ⟨home, hplaced, hhome, hother⟩ := hm
  refine ⟨home, hplaced.congr hlists, hcur ▸ hhome, fun t ht => ?_⟩
  rw [hcur] at ht
  rw [hpc t ht]
  exact hother t ht

theorem Mid.withLevel (hm : Mid h s) (now : IntStatus) : Mid h { s with level := now } :=
  hm.congr (fun p => by cases p <;> rfl) rfl fun _ _ => rfl

theorem Mid.goto (hm : Mid h s) (x : Pc Lid Cid) : Mid h (s.goto x) :=
  hm.congr (fun p => by cases p <;> rfl) rfl fun _ ht => Function.update_of_ne ht _ _

theorem Mid.inv_goto (hm : Mid h s) (hx : x.Stands true h) (hlevel : s.level = .on → x = .outside)
    (hholder : ∀ c l old, x = .waitRelease c l old →
      (s.lock l).threadHoldLock = some s.currentThread) : Inv (s.goto x) := by
  have hpc : (s.goto x).pc (s.goto x).currentThread = x := Function.update_self ..
  refine ⟨⟨h, ?_, hm.goto x⟩, fun hon => ?_, fun c l old hat => ?_⟩
  · rwa [hpc]
  · rw [hpc]
    exact hlevel hon
  · rw [hpc] at hat
    exact hholder c l old hat

theorem Mid.setLevel (hm : Mid h s) (hk : k.Stands true h) (hon : now = .on → k = .outside)
    (hrel : ∀ c l old, k ≠ .waitRelease c l old) : Inv (s.setLevel now k) := by
  rw [State.setLevel]
  split_ifs with hup
  · have hout := hon hup.1
    subst hout
    refine hm.inv_goto hk (fun hlevel => ?_) nofun
    cases hup.2.symm.trans hlevel
  · exact (hm.withLevel now).inv_goto hk hon fun c l old hat => absurd hat (hrel c l old)

/-- The current thread joins a queue. -/
theorem Mid.enqueue (hm : Mid none s)
    (hlists : s'.lists = Function.update s.lists p (s.lists p ++ [s.currentThread]))
    (hcur : s'.currentThread = s.currentThread) (hpc : s'.pc = s.pc) : Mid (some p) s' := by
  obtain ⟨home, hplaced, hhome, hother⟩ := hm
  refine ⟨Function.update home s.currentThread (some p), ?_, ?_, fun t ht => ?_⟩
  · rw [hlists]
    exact hplaced.append hhome p
  · rw [hcur, Function.update_self]
  · rw [hcur] at ht
    rw [hpc, Function.update_of_ne ht]
    exact hother t ht

/-- The first thread of a queue goes to the ready list. -/
theorem Mid.wake (hm : Mid h s) (hp : s.lists p = t :: q) (hne : h ≠ some p) (hready : p ≠ .ready)
    (hlists : s'.lists = Function.update (Function.update s.lists p q) .ready
      (s.lists .ready ++ [t]))
    (hcur : s'.currentThread = s.currentThread) (hpc : s'.pc = s.pc) : Mid h s' := by
  obtain ⟨home, hplaced, hhome, hother⟩ := hm
  have ht : home t = some p := hplaced.mem_iff.mp (hp ▸ List.mem_cons_self)
  have htc : t ≠ s.currentThread := by
    rintro rfl
    exact hne (hhome.symm.trans ht)
  have happend := (hplaced.pop hp).append (Function.update_self ..) .ready
  rw [Function.update_of_ne (Ne.symm hready), ← hlists, Function.update_idem] at happend
  refine ⟨_, happend, ?_, fun u hu => ?_⟩
  · rw [hcur, Function.update_of_ne (Ne.symm htc), hhome]
  · rw [hcur] at hu
    rw [hpc]
    by_cases hut : u = t
    · subst hut
      rw [Function.update_self]
      have hstands := hother u hu
      rw [ht] at hstands
      exact hstands.wake
    · rw [Function.update_of_ne hut]
      exact hother u hu

/-- `nextThread` has been taken off the ready list and will be switched to. -/
def Handing (h : Option (Place Lid Cid)) (nextThread : Tid) (s : State Tid Lid Cid) : Prop :=
  ∃ home, Placed s.lists home ∧ home s.currentThread = h ∧ nextThread ≠ s.currentThread ∧
    home nextThread = none ∧ (s.pc nextThread).Stands true none ∧
    ∀ t, t ≠ s.currentThread → t ≠ nextThread → (s.pc t).Stands false (home t)

omit [DecidableEq Tid] in
theorem lists_readyList (s : State Tid Lid Cid) (q : List Tid) :
    State.lists { s with readyList := q } = Function.update s.lists .ready q := by
  funext p
  cases p <;> rfl

theorem Mid.hand (hm : Mid h s) (hready : s.readyList = nextThread :: rest)
    (hne : h ≠ some .ready) : Handing h nextThread { s with readyList := rest } := by
  obtain ⟨home, hplaced, hhome, hother⟩ := hm
  have ht : home nextThread = some .ready :=
    hplaced.mem_iff.mp (show nextThread ∈ s.readyList from hready ▸ List.mem_cons_self)
  have htc : nextThread ≠ s.currentThread := by
    rintro rfl
    exact hne (hhome.symm.trans ht)
  have hpop := hplaced.pop (show s.lists .ready = nextThread :: rest from hready)
  rw [← lists_readyList] at hpop
  refine ⟨_, hpop, ?_, htc, Function.update_self .., ?_, fun u hu hut => ?_⟩
  · rw [Function.update_of_ne (Ne.symm htc), hhome]
  · have hstands := hother nextThread htc
    rw [ht] at hstands
    exact hstands.resume
  · rw [Function.update_of_ne hut]
    exact hother u hu

theorem Handing.readyToRun (hh : Handing none nextThread s) :
    Handing (some .ready) nextThread (s.readyToRun s.currentThread) := by
  obtain ⟨home, hplaced, hhome, hne, hnext, hstands, hother⟩ := hh
  have happend := hplaced.append hhome .ready
  refine ⟨Function.update home s.currentThread (some .ready), ?_, Function.update_self .., hne, ?_,
    hstands, fun u hu hun => ?_⟩
  · rw [State.readyToRun, lists_readyList]
    exact happend
  · rw [Function.update_of_ne hne, hnext]
  · exact (Function.update_of_ne (a := u) hu _ _).symm ▸ hother u hu hun

theorem Handing.run (hh : Handing h nextThread s) (hx : x.Stands false h) (hoff : s.level = .off) :
    Inv (s.run nextThread x) := by
  obtain ⟨home, hplaced, hhome, hne, hnext, hstands, hother⟩ := hh
  have hpc : (s.run nextThread x).pc nextThread = s.pc nextThread := Function.update_of_ne hne _ _
  refine ⟨⟨none, ?_, home, hplaced.congr fun p => by cases p <;> rfl, hnext, fun t ht => ?_⟩,
    fun hon => ?_, fun c l old hat => ?_⟩
  · exact hpc.symm ▸ hstands
  · by_cases htc : t = s.currentThread
    · subst htc
      have hself : (s.run nextThread x).pc s.currentThread = x := Function.update_self ..
      rw [hself, hhome]
      exact hx
    · have hsame : (s.run nextThread x).pc t = s.pc t := Function.update_of_ne htc _ _
      rw [hsame]
      exact hother t htc ht
  · cases hoff.symm.trans hon
  · have hat' : s.pc nextThread = .waitRelease c l old := hpc.symm.trans hat
    rw [hat'] at hstands
    cases hstands

/-! ### The operations -/

section
omit [DecidableEq Tid]

theorem lists_setLock (s : State Tid Lid Cid) (l : Lid) (y : SleepLock Tid) :
    (s.setLock l y).lists = Function.update s.lists (.lock l) y.queue := by
  funext p
  cases p with
  | ready | cond => rfl
  | lock m =>
    by_cases hm : m = l
    · subst hm
      rw [Function.update_self]
      exact congrArg SleepLock.queue (Function.update_self ..)
    · rw [Function.update_of_ne (by simpa using hm)]
      exact congrArg SleepLock.queue (Function.update_of_ne hm _ _)

theorem lists_setCond (s : State Tid Lid Cid) (c : Cid) (q : List Tid) :
    (s.setCond c q).lists = Function.update s.lists (.cond c) q := by
  funext p
  cases p with
  | ready | lock => rfl
  | cond d =>
    by_cases hd : d = c
    · subst hd
      rw [Function.update_self]
      exact Function.update_self ..
    · rw [Function.update_of_ne (by simpa using hd)]
      exact Function.update_of_ne hd _ _

theorem lists_readyToRun (s : State Tid Lid Cid) (t : Tid) :
    (s.readyToRun t).lists = Function.update s.lists .ready (s.lists .ready ++ [t]) :=
  lists_readyList s _

end

/-- A lock that is written to with its queue as it was. -/
theorem Mid.setLock (hm : Mid h s) {y : SleepLock Tid} (hy : y.queue = (s.lock l).queue) :
    Mid h (s.setLock l y) := by
  refine hm.congr (fun p => ?_) rfl fun _ _ => rfl
  rw [lists_setLock, hy]
  exact congrFun (Function.update_eq_self (Place.lock l) s.lists) p

theorem Mid.sleep (hm : Mid h s) (hoff : s.level = .off) (hk : (Pc.sleep k).Stands true h) :
    Inv (s.sleep k) := by
  rw [State.sleep, if_pos hoff]
  exact hm.inv_goto hk (fun hon => by cases hoff.symm.trans hon) nofun

theorem Mid.acquire (hm : Mid none s) (hk : k.Returns s.level) : Inv (s.acquire l k) := by
  have hm' := hm.withLevel .off
  rw [State.acquire, SleepLock.acquire]
  split_ifs with hbusy
  · refine Mid.sleep (h := some (.lock l)) (hm'.enqueue (p := .lock l) ?_ rfl rfl) rfl ⟨rfl, hk⟩
    rw [lists_setLock]
    rfl
  · refine Mid.setLevel (hm'.setLock rfl) hk.stands.1 hk.stands.2 fun c l old hat => ?_
    subst hat
    exact hk.elim

theorem Mid.release (hm : Mid h s) (hne : h ≠ some (.lock l)) (hk : k.Stands true h)
    (hon : s.level = .on → k = .outside) (hrel : ∀ c l old, k ≠ .waitRelease c l old) :
    Inv (s.release l k) := by
  have hm' := hm.withLevel .off
  rw [State.release]
  cases hq : (s.lock l).queue with
  | nil =>
    simp only
    refine Mid.setLevel (hm'.setLock ?_) hk hon hrel
    rw [SleepLock.release, hq, List.tail_nil]
  | cons t q =>
    simp only
    refine Mid.setLevel (hm'.wake (p := .lock l) (q := q) hq hne (fun h => by cases h) ?_ rfl rfl)
      hk hon hrel
    rw [lists_readyToRun, lists_setLock, SleepLock.release, hq, List.tail_cons]
    rfl

theorem Mid.yield (hm : Mid none s) : Inv (s.yield .outside) := by
  have hm' := hm.withLevel .off
  rw [State.yield]
  simp only
  split
  case h_1 => exact hm'.setLevel rfl (fun _ => rfl) nofun
  case h_2 hready => exact (hm'.hand hready nofun).readyToRun.run rfl rfl

theorem Mid.wait (hm : Mid none s) : Inv (s.wait c l) := by
  have hm' := hm.withLevel .off
  rw [State.wait]
  simp only
  split_ifs with hheld
  · refine Mid.inv_goto (h := some (.cond c)) (hm'.enqueue (p := .cond c) (lists_setCond ..) rfl rfl)
      rfl nofun fun c' l' old hat => ?_
    cases hat
    exact hheld
  · exact hm'.inv_goto rfl nofun nofun

theorem Mid.wakeCond (hm : Mid none s) (c : Cid) : Mid none (s.wake c) := by
  rw [State.wake]
  cases hq : s.cond c with
  | nil => exact hm
  | cons t q =>
    refine hm.wake (p := .cond c) (q := q) hq nofun nofun ?_ rfl rfl
    rw [lists_readyToRun, lists_setCond]
    rfl

theorem Mid.signal (hm : Mid none s) (c : Cid) : Inv (s.signal c) :=
  ((hm.withLevel .off).wakeCond c).setLevel rfl (fun _ => rfl) nofun

theorem Mid.wakeAll (hm : Mid none s) {rounds : ℕ} (hs : s.wakeAll c rounds = some s') :
    Mid none s' := by
  induction rounds generalizing s with
  | zero =>
    obtain ⟨-, heq⟩ := Option.ite_none_right_eq_some.mp hs
    cases heq
    exact hm
  | succ rounds ih =>
    rw [State.wakeAll] at hs
    split_ifs at hs
    · cases hs
      exact hm
    · exact ih (hm.wakeCond c) hs

theorem Mid.broadcast (hm : Mid none s) {rounds : ℕ} (hs : s.broadcast c rounds = some s') :
    Inv s' := by
  obtain ⟨s₁, hall, heq⟩ := Option.bind_eq_some_iff.mp hs
  cases heq
  exact ((hm.withLevel .off).wakeAll hall).setLevel rfl (fun _ => rfl) nofun

theorem Mid.fork (hm : Mid none s) (ht : s.pc t = .created) (hcur : t ≠ s.currentThread) :
    Inv (s.fork t) := by
  obtain ⟨home, hplaced, hhome, hother⟩ := hm
  have htn : home t = none := by
    have hstands := hother t hcur
    rw [ht] at hstands
    exact hstands
  have hmid : Mid none
      ({ s with level := .off, pc := Function.update s.pc t .root }.readyToRun t) := by
    refine ⟨Function.update home t (some .ready), ?_, ?_, fun u hu => ?_⟩
    · rw [lists_readyToRun]
      exact (hplaced.append htn .ready).congr fun p => by cases p <;> rfl
    · exact (Function.update_of_ne (Ne.symm hcur) _ _).trans hhome
    · by_cases hut : u = t
      · subst hut
        have hpc : Function.update s.pc u .root u = .root := Function.update_self ..
        rw [Function.update_self]
        show Pc.Stands (Function.update s.pc u .root u) false _
        rw [hpc]
        exact rfl
      · have hpc : Function.update s.pc t .root u = s.pc u := Function.update_of_ne hut _ _
        rw [Function.update_of_ne hut]
        show Pc.Stands (Function.update s.pc t .root u) false _
        rw [hpc]
        exact hother u hu
  exact hmid.setLevel rfl (fun _ => rfl) nofun

/-! ### Every run -/

theorem Inv.mid (hi : Inv s) (hpc : s.pc s.currentThread = x) :
    ∃ h, x.Stands true h ∧ Mid h s ∧ (x ≠ .outside → s.level = .off) := by
  obtain ⟨h, hstands, hm⟩ := hi.here
  rw [hpc] at hstands
  refine ⟨h, hstands, hm, fun hne => ?_⟩
  cases hl : s.level with
  | off => rfl
  | on => exact absurd (hpc.symm.trans (hi.level hl)) hne

theorem Inv.call (hi : Inv s) (hpc : s.pc s.currentThread = .outside) {y : Call Tid Lid Cid}
    (hs : s.call y = some s') : Inv s' := by
  obtain ⟨h, hstands, hm, -⟩ := hi.mid hpc
  obtain rfl : h = none := hstands
  cases y with
  | setLevel now =>
    cases hs
    exact hm.setLevel rfl (fun _ => rfl) nofun
  | fork t =>
    obtain ⟨ht, heq⟩ := Option.ite_none_right_eq_some.mp hs
    cases heq
    refine hm.fork ht ?_
    rintro rfl
    cases ht.symm.trans hpc
  | yield =>
    cases hs
    exact hm.yield
  | acquire l =>
    cases hs
    exact hm.acquire trivial
  | release l =>
    cases hs
    exact hm.release nofun rfl (fun _ => rfl) nofun
  | wait c l =>
    cases hs
    exact hm.wait
  | signal c l =>
    cases hs
    exact hm.signal c
  | broadcast c l rounds => exact hm.broadcast hs

theorem Inv.next (hi : Inv s) (hpc : s.pc s.currentThread = x) {yieldOnReturn : Bool}
    (hs : s.next yieldOnReturn x = some s') : Inv s' := by
  obtain ⟨h, hstands, hm, hlevel⟩ := hi.mid hpc
  cases x with
  | created | outside | assertFailed => cases hs
  | root =>
    cases hs
    obtain rfl : h = none := hstands
    exact hm.setLevel rfl (fun _ => rfl) nofun
  | oneTick k =>
    cases hs
    cases k with
    | outside =>
      obtain rfl : h = none := hstands
      have hm' := hm.withLevel .on
      split_ifs
      · exact hm'.yield
      · exact hm'.inv_goto rfl (fun _ => rfl) nofun
    | _ => exact hstands.elim
  | sleep k =>
    have hoff := hlevel nofun
    rw [State.next] at hs
    split at hs
    case h_1 =>
      cases hs
      exact hi
    case h_2 nextThread rest hready =>
      cases hs
      cases k with
      | waitAcquire c l old =>
        obtain rfl : h = some (.cond c) := hstands
        exact (hm.hand hready nofun).run (.inr rfl) hoff
      | acquired l old k =>
        obtain ⟨rfl, hk⟩ := hstands
        exact (hm.hand hready nofun).run ⟨.inr rfl, hk⟩ hoff
      | _ => exact hstands.elim
  | yielded old k =>
    cases hs
    cases k with
    | outside =>
      obtain rfl : h = none := hstands
      exact hm.setLevel rfl (fun _ => rfl) nofun
    | _ => exact hstands.elim
  | acquired l old k =>
    cases hs
    obtain ⟨rfl, hk⟩ := hstands
    refine Mid.setLevel (hm.setLock rfl) hk.stands.1 hk.stands.2 fun c l old hat => ?_
    subst hat
    exact hk.elim
  | waitRelease c l old =>
    cases hs
    obtain rfl : h = some (.cond c) := hstands
    exact hm.release nofun rfl (fun hon => by cases (hlevel nofun).symm.trans hon) nofun
  | waitSleep c l old =>
    cases hs
    obtain rfl : h = some (.cond c) := hstands
    exact hm.sleep (hlevel nofun) rfl
  | waitAcquire c l old =>
    cases hs
    obtain rfl : h = none := hstands
    exact hm.acquire (hlevel nofun)
  | waitEnd old =>
    cases hs
    obtain rfl : h = none := hstands
    exact hm.setLevel rfl (fun _ => rfl) nofun

theorem Inv.step (hi : Inv s) {e : Event Tid Lid Cid} (hs : s.step e = some s') : Inv s' := by
  cases e with
  | call y =>
    obtain ⟨hpc, hs⟩ := Option.ite_none_right_eq_some.mp hs
    exact hi.call hpc hs
  | step yieldOnReturn => exact hi.next rfl hs

theorem inv_start (h0 : Start mainThread s) : Inv s := by
  have hlists : ∀ p, s.lists p = [] := by
    intro p
    cases p with
    | ready => exact h0.readyList
    | lock l => exact h0.lock l
    | cond c => exact h0.cond c
  have hpc : s.pc s.currentThread = .outside := by rw [h0.pc, h0.currentThread, Function.update_self]
  refine ⟨⟨none, ?_, fun _ => none, .empty hlists, rfl, fun t ht => ?_⟩, fun _ => hpc,
    fun c l old hat => ?_⟩
  · rw [hpc]
    exact rfl
  · rw [h0.pc, Function.update_of_ne (h0.currentThread ▸ ht)]
    exact rfl
  · cases hpc.symm.trans hat

theorem inv_of_reachable (hr : (machine mainThread).Reachable s) : Inv s := by
  refine hr.invariant Inv (fun s h0 => inv_start h0) fun s e s' _ hi _ hs => ?_
  exact hi.step hs

end Coursework.Nachos.SleepCondition
