import Coursework.Cn.Echo

/-!
# The processes of `server1.c`

The parent accepts a connection and forks a child for it, and both go on in the text of the same
loop. A child whose client says `bye` closes its socket and leaves the inner loop; what comes next
in the text is the `accept` of the outer one. Failures of `accept` and `fork` are left out.
-/
namespace Coursework.Cn

namespace ForkingServer

/-- The system call that a process makes next. -/
inductive Place where
  | accept
  | fork
  | recv
  | send
  /-- `close` in the child, after `bye`. -/
  | closeChild
  /-- `close` in the branch of the parent. -/
  | closeParent
  deriving DecidableEq

/-- A system call with the connection that it is about. -/
inductive Call where
  | accept (c : ℕ)
  | fork (c child : ℕ)
  | recv (c : ℕ) (msg : Line)
  | send (c : ℕ)
  | close (c : ℕ)
  deriving DecidableEq

/-- Processes and connections are numbered as they come; process 0 is the original parent.
`sock` is `server_sock_data` of each process, and `calls` records the calls with who made them. -/
structure State where
  place : ℕ → Option Place
  sock : ℕ → ℕ
  children : ℕ
  accepted : ℕ
  calls : List (ℕ × Call)

/-- Process `pid` makes its next call; `msg` is what it receives, if it is a `recv`. -/
structure Event where
  pid : ℕ
  msg : Line

/-- `strcmp(recv_msg, "bye\n") == 0` -/
def isBye (msg : Line) : Bool := msg.takeWhile (· ≠ 0) = Echo.bye

namespace State

def goto (s : State) (p : ℕ) (l : Place) : State :=
  { s with place := Function.update s.place p (some l) }

def call (s : State) (p : ℕ) (c : Call) : State := { s with calls := s.calls ++ [(p, c)] }

/-- The child starts with the sockets of its parent. -/
def fork (s : State) (p : ℕ) : State where
  place := Function.update (Function.update s.place p (some .closeParent)) (s.children + 1)
    (some .recv)
  sock := Function.update s.sock (s.children + 1) (s.sock p)
  children := s.children + 1
  accepted := s.accepted
  calls := s.calls ++ [(p, .fork (s.sock p) (s.children + 1))]

def step (s : State) (e : Event) : Option State :=
  (s.place e.pid).map fun
    | .accept => { (s.call e.pid (.accept s.accepted)).goto e.pid .fork with
        sock := Function.update s.sock e.pid s.accepted
        accepted := s.accepted + 1 }
    | .fork => s.fork e.pid
    | .recv => (s.call e.pid (.recv (s.sock e.pid) e.msg)).goto e.pid
        (if isBye e.msg then .closeChild else .send)
    | .send => (s.call e.pid (.send (s.sock e.pid))).goto e.pid .recv
    | .closeChild | .closeParent => (s.call e.pid (.close (s.sock e.pid))).goto e.pid .accept

/-- The parent listens. -/
def start : State :=
  ⟨fun p => if p = 0 then some .accept else none, fun _ => 0, 0, 0, []⟩

def machine : Machine State Event where
  init s := s = start
  step := step

/-- Process `p` was forked for connection `c`. -/
def Serves (s : State) (p c : ℕ) : Prop := ∃ q, (q, Call.fork c p) ∈ s.calls

/-- The structure of the processes. -/
structure Structured (s : State) : Prop where
  accept : ∀ p c, (p, Call.accept c) ∈ s.calls → p = 0
  fork : ∀ p c child, (p, Call.fork c child) ∈ s.calls → p = 0
  /-- Until the fork the connection waits for it. -/
  served : ∀ c < s.accepted,
    (s.place 0 = some .fork ∧ s.sock 0 = c) ∨ ∃! p, p ≠ 0 ∧ s.Serves p c
  recv : ∀ p c msg, (p, Call.recv c msg) ∈ s.calls → s.Serves p c
  send : ∀ p c, (p, Call.send c) ∈ s.calls → s.Serves p c
  /-- After `bye` a child only closes. -/
  silent : ∀ l l' p c msg, s.calls = l ++ (p, Call.recv c msg) :: l' → isBye msg = true →
    ∀ call, (p, call) ∈ l' → ∃ c', call = .close c'

/-- What a process receives is not `bye`. -/
def NoBye (s : State) (e : Event) : Prop := s.place e.pid = some .recv → isBye e.msg = false

variable {s s' : State} {e : Event} {p c : ℕ} {l : Place} {msg : Line} {es : List Event}

@[simp] theorem goto_place (s : State) (p : ℕ) (l : Place) :
    (s.goto p l).place = Function.update s.place p (some l) := rfl

@[simp] theorem goto_sock (s : State) (p : ℕ) (l : Place) : (s.goto p l).sock = s.sock := rfl

@[simp] theorem goto_children (s : State) (p : ℕ) (l : Place) :
    (s.goto p l).children = s.children := rfl

@[simp] theorem goto_accepted (s : State) (p : ℕ) (l : Place) :
    (s.goto p l).accepted = s.accepted := rfl

@[simp] theorem goto_calls (s : State) (p : ℕ) (l : Place) : (s.goto p l).calls = s.calls := rfl

@[simp] theorem call_calls (s : State) (p : ℕ) (c : Call) :
    (s.call p c).calls = s.calls ++ [(p, c)] := rfl

@[simp] theorem call_place (s : State) (p : ℕ) (c : Call) : (s.call p c).place = s.place := rfl

@[simp] theorem call_sock (s : State) (p : ℕ) (c : Call) : (s.call p c).sock = s.sock := rfl

@[simp] theorem call_children (s : State) (p : ℕ) (c : Call) :
    (s.call p c).children = s.children := rfl

@[simp] theorem call_accepted (s : State) (p : ℕ) (c : Call) :
    (s.call p c).accepted = s.accepted := rfl

/-! ### While nobody has said `bye` -/

/-- What a call says when only process 0 accepts and forks, and child `c + 1` has connection
`c`. -/
def Expected (n : ℕ) : ℕ × Call → Prop
  | (p, .accept _) => p = 0
  | (p, .fork c child) => p = 0 ∧ child = c + 1
  | (p, .recv c msg) => p = c + 1 ∧ c < n ∧ isBye msg = false
  | (p, .send c) => p = c + 1 ∧ c < n
  | (_, .close _) => True

structure Inv (s : State) : Prop where
  child : ∀ c < s.children,
    (s.place (c + 1) = some .recv ∨ s.place (c + 1) = some .send) ∧ s.sock (c + 1) = c
  unborn : ∀ p, s.children < p → s.place p = none
  parent : (s.place 0 = some .accept ∨ s.place 0 = some .closeParent) ∧ s.accepted = s.children ∨
    s.place 0 = some .fork ∧ s.sock 0 = s.children ∧ s.accepted = s.children + 1
  calls : ∀ x ∈ s.calls, Expected s.children x
  forks : ∀ c < s.children, (0, Call.fork c (c + 1)) ∈ s.calls

theorem Expected.mono {n m : ℕ} {x : ℕ × Call} (h : Expected n x) (hnm : n ≤ m) :
    Expected m x := by
  obtain ⟨p, call⟩ := x
  cases call with
  | recv c msg => exact ⟨h.1, h.2.1.trans_le hnm, h.2.2⟩
  | send c => exact ⟨h.1, h.2.trans_le hnm⟩
  | _ => exact h

namespace Inv

theorem structured (hi : s.Inv) : s.Structured := by
  constructor
  · exact fun p c h => hi.calls _ h
  · exact fun p c child h => (hi.calls _ h).1
  · intro c hc
    by_cases hlt : c < s.children
    · right
      refine ⟨c + 1, ⟨Nat.succ_ne_zero c, 0, hi.forks c hlt⟩, ?_⟩
      rintro p ⟨-, q, hq⟩
      exact (hi.calls _ hq).2
    · left
      rcases hi.parent with ⟨-, haccepted⟩ | ⟨hfork, hsock, haccepted⟩
      · omega
      · exact ⟨hfork, by omega⟩
  · intro p c msg h
    obtain ⟨rfl, hc, -⟩ := hi.calls _ h
    exact ⟨0, hi.forks c hc⟩
  · intro p c h
    obtain ⟨rfl, hc⟩ := hi.calls _ h
    exact ⟨0, hi.forks c hc⟩
  · intro l l' p c msg h hbye
    have hcall := (hi.calls (p, .recv c msg) (by simp [h])).2.2
    rw [hbye] at hcall
    cases hcall

theorem calls_call (hi : s.Inv) {call : Call} (hcall : Expected s.children (p, call)) :
    ∀ x ∈ s.calls ++ [(p, call)], Expected s.children x := by
  intro x hx
  rw [List.mem_append, List.mem_singleton] at hx
  rcases hx with hx | rfl
  · exact hi.calls x hx
  · exact hcall

/-- A child receives or sends. -/
theorem session (hi : s.Inv) (hc : c < s.children) {call : Call}
    (hcall : Expected s.children (c + 1, call)) (hl : l = .recv ∨ l = .send) :
    ((s.call (c + 1) call).goto (c + 1) l).Inv := by
  constructor
  · intro j hj
    by_cases hjc : j = c
    · subst hjc
      simp [(hi.child j hj).2, hl]
    · simpa [hjc] using hi.child j hj
  · intro p hp
    have hne : p ≠ c + 1 := by
      rintro rfl
      simp at hp
      omega
    simpa [hne] using hi.unborn p hp
  · simpa using hi.parent
  · exact hi.calls_call hcall
  · intro j hj
    exact List.mem_append_left _ (hi.forks j hj)

/-- The parent moves, and its connections are those of the children and the new one. -/
theorem move (hi : s.Inv) {k a : ℕ} {call : Call} (hcall : Expected s.children (0, call))
    (hparent : (l = .accept ∨ l = .closeParent) ∧ a = s.children ∨
      l = .fork ∧ k = s.children ∧ a = s.children + 1) :
    Inv { (s.call 0 call).goto 0 l with sock := Function.update s.sock 0 k, accepted := a } := by
  constructor
  · intro j hj
    simpa using hi.child j hj
  · intro p hp
    have hne : p ≠ 0 := by
      rintro rfl
      simp at hp
    simpa [hne] using hi.unborn p hp
  · simpa using hparent
  · exact hi.calls_call hcall
  · intro j hj
    exact List.mem_append_left _ (hi.forks j hj)

theorem forked (hi : s.Inv) (hsock : s.sock 0 = s.children) (haccepted : s.accepted = s.children + 1) :
    (s.fork 0).Inv := by
  constructor
  · intro j hj
    by_cases hjc : j = s.children
    · simp [State.fork, hjc, hsock]
    · have hlt : j < s.children := by
        simp only [State.fork] at hj
        omega
      simpa [State.fork, hjc] using hi.child j hlt
  · intro p hp
    simp only [State.fork] at hp
    have h0 : p ≠ 0 := by omega
    have hne : p ≠ s.children + 1 := by omega
    simpa [State.fork, h0, hne] using hi.unborn p (by omega)
  · left
    simp [State.fork, haccepted]
  · intro x hx
    simp only [State.fork, List.mem_append, List.mem_singleton] at hx
    rcases hx with hx | rfl
    · exact (hi.calls x hx).mono (Nat.le_succ _)
    · simp [Expected, hsock]
  · intro j hj
    simp only [State.fork] at hj ⊢
    by_cases hjc : j = s.children
    · simp [hjc, hsock]
    · exact List.mem_append_left _ (hi.forks j (by omega))

theorem step (hi : s.Inv) (hbye : s.NoBye e) (hs : s.step e = some s') : s'.Inv := by
  obtain ⟨p, msg⟩ := e
  obtain ⟨l, hl, rfl⟩ := Option.map_eq_some_iff.mp hs
  simp only at hl
  cases p with
  | zero =>
    rcases hi.parent with ⟨hp | hp, haccepted⟩ | ⟨hp, hsock, haccepted⟩
    · cases hl.symm.trans hp
      exact hi.move rfl (.inr ⟨rfl, haccepted, by simp [haccepted]⟩)
    · cases hl.symm.trans hp
      have hcall : Expected s.children (0, .close (s.sock 0)) := trivial
      have hmoved := hi.move (k := s.sock 0) hcall (.inl ⟨.inl rfl, haccepted⟩)
      rwa [Function.update_eq_self] at hmoved
    · cases hl.symm.trans hp
      exact hi.forked hsock haccepted
  | succ c =>
    have hc : c < s.children := by
      by_contra hge
      cases hl.symm.trans (hi.unborn (c + 1) (by omega))
    obtain ⟨hp | hp, hsock⟩ := hi.child c hc
    · cases hl.symm.trans hp
      have hmsg : isBye msg = false := hbye hp
      have hcall : Expected s.children (c + 1, .recv (s.sock (c + 1)) msg) := by
        rw [hsock]
        exact ⟨rfl, hc, hmsg⟩
      simpa [hmsg] using hi.session hc hcall (.inr rfl)
    · cases hl.symm.trans hp
      have hcall : Expected s.children (c + 1, .send (s.sock (c + 1))) := by
        rw [hsock]
        exact ⟨rfl, hc⟩
      exact hi.session hc hcall (.inl rfl)

end Inv

theorem inv_start : Inv start := by
  refine ⟨nofun, fun p hp => ?_, .inl ⟨.inl rfl, rfl⟩, nofun, nofun⟩
  have hne : p ≠ 0 := by
    rintro rfl
    exact absurd hp (lt_irrefl 0)
  simp [start, hne]

/-- As long as nobody says `bye`, the structure stays. -/
theorem Inv.visits (hi : s.Inv) (hbye : machine.Meets NoBye s es) :
    machine.Visits Structured s es := by
  induction es generalizing s with
  | nil => exact hi.structured
  | cons e es ih =>
    refine ⟨hi.structured, fun s' hs => ?_⟩
    exact ih (hi.step (hbye s' hs).1 hs) (hbye s' hs).2

/-! ### After `bye` -/

/-- What is known in every run: the parent receives nothing, and a child that has received `bye`
is at its `close`, or at the `accept` after it, or has accepted a connection. -/
structure Told (s : State) : Prop where
  unborn : ∀ p, s.children < p → s.place p = none
  parent : s.place 0 = some .accept ∨ s.place 0 = some .fork ∨ s.place 0 = some .closeParent
  bye : ∀ p c msg, (p, Call.recv c msg) ∈ s.calls → isBye msg = true → p ≠ 0 ∧
    (s.place p = some .closeChild ∨ s.place p = some .accept ∨ ∃ c', (p, Call.accept c') ∈ s.calls)

namespace Told

/-- A child stays as it is or goes on, and no call is taken back. -/
theorem later {q : ℕ} (hcalls : s.calls ⊆ s'.calls)
    (hplace : s.place q = some .closeChild ∨ s.place q = some .accept →
      s'.place q = s.place q ∨ s'.place q = some .accept ∨ ∃ c', (q, Call.accept c') ∈ s'.calls)
    (h : s.place q = some .closeChild ∨ s.place q = some .accept ∨
      ∃ c', (q, Call.accept c') ∈ s.calls) :
    s'.place q = some .closeChild ∨ s'.place q = some .accept ∨
      ∃ c', (q, Call.accept c') ∈ s'.calls := by
  rcases or_assoc.mpr h with h | ⟨c', hc'⟩
  · rcases hplace h with hstays | hnext
    · rw [hstays]
      exact or_assoc.mp (.inl h)
    · exact .inr hnext
  · exact .inr (.inr ⟨c', hcalls hc'⟩)

/-- A process makes a call that is not a `recv` and goes on; the parent at a place of its own. -/
theorem move (ht : s.Told) {k : ℕ → ℕ} {a : ℕ} {call : Call} (hp : s.place p ≠ none)
    (hparent : p = 0 → l = .accept ∨ l = .fork ∨ l = .closeParent)
    (hcall : ∀ c msg, call ≠ .recv c msg)
    (hnext : s.place p = some .closeChild ∨ s.place p = some .accept →
      l = .accept ∨ ∃ c, call = .accept c) :
    Told { (s.call p call).goto p l with sock := k, accepted := a } := by
  constructor
  · intro q hq
    have hne : q ≠ p := by
      rintro rfl
      exact hp (ht.unborn q hq)
    simpa [hne] using ht.unborn q hq
  · by_cases h0 : p = 0
    · subst h0
      simpa using hparent rfl
    · simpa [Ne.symm h0] using ht.parent
  · intro q c msg hq hbye
    simp only [goto_calls, call_calls, List.mem_append, List.mem_singleton, Prod.mk.injEq] at hq
    rcases hq with hq | ⟨-, hq⟩
    · obtain ⟨h0, hplace⟩ := ht.bye q c msg hq hbye
      refine ⟨h0, later (List.subset_append_left _ _) (fun hplace => ?_) hplace⟩
      by_cases hqp : q = p
      · subst hqp
        rcases hnext hplace with rfl | ⟨c', rfl⟩
        · simp
        · exact .inr (.inr ⟨c', by simp⟩)
      · simp [hqp]
    · exact absurd hq.symm (hcall c msg)

theorem recv (ht : s.Told) (hp : s.place p = some .recv) :
    Told ((s.call p (.recv c msg)).goto p (if isBye msg then .closeChild else .send)) := by
  have h0 : p ≠ 0 := by
    rintro rfl
    simpa [hp] using ht.parent
  constructor
  · intro q hq
    have hne : q ≠ p := by
      rintro rfl
      cases hp.symm.trans (ht.unborn q hq)
    simpa [hne] using ht.unborn q hq
  · simpa [Ne.symm h0] using ht.parent
  · intro q d m hq hbye
    simp only [goto_calls, call_calls, List.mem_append, List.mem_singleton, Prod.mk.injEq] at hq
    rcases hq with hq | ⟨rfl, hq⟩
    · obtain ⟨hq0, hplace⟩ := ht.bye q d m hq hbye
      refine ⟨hq0, later (List.subset_append_left _ _) (fun hplace => ?_) hplace⟩
      have hqp : q ≠ p := by
        rintro rfl
        simp [hp] at hplace
      simp [hqp]
    · cases hq
      simp [h0, hbye]

theorem fork (ht : s.Told) (hp : s.place p = some .fork) : Told (s.fork p) := by
  have hle : p ≤ s.children := by
    by_contra hlt
    cases hp.symm.trans (ht.unborn p (by omega))
  constructor
  · intro q hq
    simp only [State.fork] at hq ⊢
    have hne : q ≠ s.children + 1 := by omega
    have hne' : q ≠ p := by omega
    simpa [hne, hne'] using ht.unborn q (by omega)
  · by_cases h0 : p = 0
    · simp [State.fork, h0]
    · simpa [State.fork, Ne.symm h0] using ht.parent
  · intro q d m hq hbye
    simp only [State.fork, List.mem_append, List.mem_singleton, Prod.mk.injEq, reduceCtorEq,
      and_false, or_false] at hq
    obtain ⟨hq0, hplace⟩ := ht.bye q d m hq hbye
    refine ⟨hq0, later (List.subset_append_left _ _) (fun hplace => ?_) hplace⟩
    have hqp : q ≠ p := by
      rintro rfl
      simp [hp] at hplace
    have hnew : q ≠ s.children + 1 := by
      rintro rfl
      simp [ht.unborn (s.children + 1) (by omega)] at hplace
    simp [State.fork, hqp, hnew]

theorem step (ht : s.Told) (hs : s.step e = some s') : s'.Told := by
  obtain ⟨p, msg⟩ := e
  obtain ⟨l, hl, rfl⟩ := Option.map_eq_some_iff.mp hs
  simp only at hl
  have hp : s.place p ≠ none := by simp [hl]
  cases l with
  | accept => exact ht.move hp (fun _ => by simp) (by simp) fun _ => .inr ⟨_, rfl⟩
  | fork => exact ht.fork hl
  | recv => exact ht.recv hl
  | send =>
    have h0 : p ≠ 0 := by
      rintro rfl
      simpa [hl] using ht.parent
    exact ht.move hp (fun h => absurd h h0) (by simp) (by simp [hl])
  | closeChild => exact ht.move hp (fun _ => .inl rfl) (by simp) fun _ => .inl rfl
  | closeParent => exact ht.move hp (fun _ => .inl rfl) (by simp) fun _ => .inl rfl

end Told

theorem told_start : Told start := by
  refine ⟨fun p hp => ?_, .inl rfl, nofun⟩
  have hne : p ≠ 0 := by
    rintro rfl
    exact absurd hp (lt_irrefl 0)
  simp [start, hne]

theorem Told.run (ht : s.Told) (hr : machine.run s es = some s') : s'.Told :=
  (Machine.meets_true s es).invariant (fun _ _ _ ht _ hs => ht.step hs) ht hr

/-- No call is taken back. -/
theorem calls_step (hs : s.step e = some s') : s.calls <+: s'.calls := by
  obtain ⟨l, -, rfl⟩ := Option.map_eq_some_iff.mp hs
  cases l <;> exact List.prefix_append _ _

theorem calls_run (hr : machine.run s es = some s') : s.calls <+: s'.calls :=
  (Machine.meets_true s es).invariant (I := fun u => s.calls <+: u.calls)
    (fun _ _ _ hu _ hs => hu.trans (calls_step hs)) List.prefix_rfl hr

/-- A `bye` that was received is on the record. -/
theorem exists_bye (hr : machine.run s es = some s') (hbye : ¬ machine.Meets NoBye s es) :
    ∃ p c msg, (p, Call.recv c msg) ∈ s'.calls ∧ isBye msg = true := by
  induction es generalizing s with
  | nil => exact absurd trivial hbye
  | cons e es ih =>
    obtain ⟨p, msg⟩ := e
    obtain ⟨u, hu, hr⟩ := Option.bind_eq_some_iff.mp hr
    by_cases he : s.NoBye ⟨p, msg⟩
    · apply ih hr
      intro hmeets
      apply hbye
      intro v hv
      cases hu.symm.trans hv
      exact ⟨he, hmeets⟩
    · rw [NoBye, Classical.not_imp, Bool.not_eq_false] at he
      refine ⟨p, s.sock p, msg, (calls_run hr).subset ?_, he.2⟩
      have hstep : machine.step s ⟨p, msg⟩ = _ := congrArg (Option.map _) he.1
      cases hu.symm.trans hstep
      simp

/-- A child that has received `bye` can go on so that it accepts a connection. -/
theorem Told.spoils (ht : s.Told) (hp : (p, Call.recv c msg) ∈ s.calls) (hbye : isBye msg = true) :
    ∃ es, machine.Meets NoBye s es ∧ ¬ machine.Visits Structured s es := by
  obtain ⟨h0, hplace⟩ := ht.bye p c msg hp hbye
  have haccept (s : State) (hp : s.place p = some .accept) :
      ∃ s', machine.step s ⟨p, []⟩ = some s' ∧ ¬ s'.Structured := by
    refine ⟨_, congrArg (Option.map _) hp, fun hs => h0 ?_⟩
    exact hs.accept p s.accepted (by simp)
  rcases hplace with hplace | hplace | ⟨c', hc'⟩
  · have hclose : machine.step s ⟨p, []⟩ =
        some ((s.call p (.close (s.sock p))).goto p .accept) := congrArg (Option.map _) hplace
    obtain ⟨s', hs', hnot⟩ := haccept _ (show ((s.call p (.close (s.sock p))).goto p .accept).place p
      = some .accept by simp)
    refine ⟨[⟨p, []⟩, ⟨p, []⟩], fun _ _ => ⟨fun _ => rfl, fun _ _ => ⟨fun _ => rfl, trivial⟩⟩, ?_⟩
    exact fun hv => hnot (((hv.2 _ hclose).2 s' hs').first)
  · obtain ⟨s', hs', hnot⟩ := haccept s hplace
    refine ⟨[⟨p, []⟩], fun _ _ => ⟨fun _ => rfl, trivial⟩, ?_⟩
    exact fun hv => hnot (hv.2 s' hs').first
  · exact ⟨[], trivial, fun hv => h0 (hv.first.accept p c' hc')⟩

/-- A run, and whatever comes after it without another `bye`, keeps the structure of the processes
exactly when nobody has said `bye` in it. -/
theorem processes_structured_iff (hr : machine.run start es = some s) :
    (machine.Visits Structured start es ∧
      ∀ es', machine.Meets NoBye s es' → machine.Visits Structured s es') ↔
    machine.Meets NoBye start es := by
  constructor
  · rintro ⟨-, hlater⟩
    by_contra hbye
    obtain ⟨p, c, msg, hp, hmsg⟩ := exists_bye hr hbye
    obtain ⟨es', hes', hnot⟩ := (told_start.run hr).spoils hp hmsg
    exact hnot (hlater es' hes')
  · intro hbye
    refine ⟨inv_start.visits hbye, fun es' hes' => ?_⟩
    have hi : s.Inv := hbye.invariant (fun _ _ _ hi hmsg hs => hi.step hmsg hs) inv_start hr
    exact hi.visits hes'

/-- Two clients, each with a child of its own. -/
theorem processes_structured_iff_two :
    ∃ s, machine.run start ([0, 0, 0, 1, 0, 0, 1, 2].map fun p => ⟨p, [104, 105, 10]⟩) = some s ∧
      s.accepted = 2 ∧ ∀ es, machine.Meets NoBye s es → machine.Visits Structured s es := by
  have hrun : ∃ s, machine.run start ([0, 0, 0, 1, 0, 0, 1, 2].map fun p => ⟨p, [104, 105, 10]⟩)
    = some s ∧ s.accepted = 2 := ⟨_, rfl, rfl⟩
  obtain ⟨s, hs, haccepted⟩ := hrun
  have hbye (s : State) (ps : List ℕ) :
      machine.Meets NoBye s (ps.map fun p => ⟨p, [104, 105, 10]⟩) := by
    induction ps generalizing s with
    | nil => trivial
    | cons p ps ih => exact fun s' _ => ⟨fun _ => rfl, ih s'⟩
  exact ⟨s, hs, haccepted, ((processes_structured_iff hs).mpr (hbye _ _)).2⟩

/-- After `bye` child 1 closes its socket and accepts the next connection. -/
theorem child_accepts : ¬ ∀ es, machine.Visits Structured start es := by
  intro h
  have hlast := (h ([0, 0, 0, 1, 1, 1].map fun p => ⟨p, Echo.bye⟩)).last
    (show machine.run start _ = some _ from rfl)
  have hzero : (1 : ℕ) = 0 := hlast.accept 1 1 (by decide)
  cases hzero

end State
end ForkingServer
end Coursework.Cn
