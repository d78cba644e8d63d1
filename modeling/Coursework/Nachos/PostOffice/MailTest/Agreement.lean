import Coursework.Nachos.PostOffice.MailTest.Letters

/-!
# How `MailTest` ends

A machine that has halted has no socket any more, and a machine whose assertion failed has none
either. Up to these failures a run is one where all sockets are kept; where no two machines write to
the same one, no letter comes too late and nothing fails.
-/
namespace Coursework.Nachos.PostOffice.MailTest

variable {Addr : Type} [DecidableEq Addr] {machines : List NetworkAddress} {numBoxes : ℤ}
  {farAddr : NetworkAddress → NetworkAddress} {ident place a : NetworkAddress}
  {s s' : State Addr} {net N : Net Unit Addr} {n n' : Node Unit Addr} {l : List (Seen Unit)}
  {h : List (NetworkAddress × Seen Unit)} {e : Event Addr} {packet : Option Mem}
  {act : Act Unit Addr}

/-! ### Machines that are no longer there -/

omit [DecidableEq Addr] in
/-- Fewer machines make a difference only to a packet for one that is missing. -/
theorem moveSender_of_subset {running : List NetworkAddress} (hsub : running ⊆ machines)
    {e : Driver.Event Unit Outgoing (Bool × Mem)}
    (h : n.moveSender running ident e = some (n', l)) :
    n.moveSender machines ident e = some (n', l) ∨
      ∃ env q, e = .step () env ∧ n.sender.pc () = .request q ∧ q.pktHdr.toAddr ∉ running ∧
        n' = { n with sender := n.sender.goto () .assertFailed } ∧ l = [] := by
  cases e with
  | call t q => exact .inl h
  | interrupt k => exact .inl h
  | step t env =>
    cases hpc : n.sender.pc t with
    | request q =>
      obtain ⟨lost, mem⟩ := env
      have hsame (hr : Network.send running ident n.sender.device lost q.pktHdr q.buffer mem =
          Network.send machines ident n.sender.device lost q.pktHdr q.buffer mem) :
          n.moveSender machines ident (.step t (lost, mem)) = some (n', l) := by
        rw [← h]
        simp only [Node.moveSender, Driver.State.step, Driver.State.seen, hpc, device, hr]
      by_cases hto : q.pktHdr.toAddr ∈ running
      · left
        apply hsame
        rw [Network.send, Network.send, if_pos hto, if_pos (hsub hto)]
      · cases lost with
        | true => exact .inl (hsame rfl)
        | false =>
          right
          have hnone : Network.send running ident n.sender.device false q.pktHdr q.buffer mem =
              none := by
            simp only [Network.send, if_neg hto, Bool.false_eq_true, if_false, ite_self]
          simp only [Node.moveSender, Driver.State.step, Driver.State.seen, hpc, device, hnone,
            Option.map_none, Option.map_some, Option.some.injEq, Prod.mk.injEq] at h
          exact ⟨_, q, rfl, rfl, hto, h.1.symm, h.2.symm⟩
    | _ =>
      left
      rw [← h]
      simp only [Node.moveSender, Driver.State.step, Driver.State.seen, hpc]

theorem act_of_subset {running : List NetworkAddress} (hsub : running ⊆ machines)
    (h : n.act running numBoxes ident (packet, act) = some (n', l)) :
    n.act machines numBoxes ident (packet, act) = some (n', l) ∨
      isCall act = false ∧ ∃ q, n.sender.pc () = .request q ∧ q.pktHdr.toAddr ∉ running ∧
        n' = { n with sender := n.sender.goto () .assertFailed } ∧ l = [] := by
  obtain ⟨haborted, h⟩ := Option.ite_none_left_eq_some.mp h
  cases act with
  | run t lost mem =>
    cases hr : n.receiving t with
    | none =>
      simp only [hr] at h
      rcases moveSender_of_subset hsub h with h | ⟨-, q, -, hq⟩
      · left
        simp only [Node.act, haborted, hr]
        exact h
      · exact .inr ⟨rfl, q, hq⟩
    | some b =>
      left
      rw [Node.act, if_neg haborted]
      simp only [hr] at h ⊢
      exact h
  | sendDone k =>
    left
    rw [Node.act, if_neg haborted]
    exact h
  | _ =>
    left
    rw [Node.act, if_neg haborted]
    exact h

/-- `N` is the network of `s` with each failed machine as it was when its assertion failed. -/
structure Revives (N : Net Unit Addr) (s : State Addr) : Prop where
  socket : N.socket = s.net.socket
  node : ∀ a, failed (s.net.node a) = false → N.node a = s.net.node a
  stopped : ∀ a, failed (s.net.node a) = true →
    s.net.node a = { N.node a with sender := (N.node a).sender.goto () .assertFailed }

omit [DecidableEq Addr] in
theorem failed_of_fine (h : n.Fine) : failed n = false := by
  rw [failed, h.running, Bool.false_or]
  split
  · exact absurd ‹_› (h.sending ())
  · rfl

omit [DecidableEq Addr] in
theorem Revives.of_running (hv : Revives N s) (hplace : place ∈ s.running machines) :
    place ∈ machines ∧ (s.pc place).isHalted = false ∧ N.node place = s.net.node place := by
  obtain ⟨hplace, hlive⟩ := List.mem_filter.mp hplace
  simp only [Bool.and_eq_true, Bool.not_eq_true'] at hlive
  exact ⟨hplace, hlive.1, hv.node place hlive.2⟩

/-- A step is one where all sockets are kept, or a `Send` to a machine that is missing. -/
theorem Revives.step_net (hv : Revives N s)
    (hs : s.net.step (s.running machines) numBoxes ⟨place, act⟩ = some net) :
    (∃ N', N.step machines numBoxes ⟨place, act⟩ = some N' ∧
      s.net.seen (s.running machines) numBoxes ⟨place, act⟩ =
        N.seen machines numBoxes ⟨place, act⟩ ∧
      net.node = Function.update s.net.node place (N'.node place) ∧
      (failed (N'.node place) = false → ∀ pc, Revives N' ⟨net, pc⟩)) ∨
    isCall act = false ∧ s.net.seen (s.running machines) numBoxes ⟨place, act⟩ = [] ∧
      (∀ pc, Revives N ⟨net, pc⟩) ∧
      ∃ q, (N.node place).sender.pc () = .request q ∧ q.pktHdr.toAddr ∉ s.running machines := by
  obtain ⟨hplace, -, hnode⟩ := hv.of_running (Option.ite_none_right_eq_some.mp hs).1
  obtain ⟨n, l, hact, hnet, hsocket, hseen⟩ := Net.act_of_step hs
  rw [← hv.socket, ← hnode] at hact
  rcases act_of_subset (List.filter_subset_self machines) hact with
    hact | ⟨hcall, q, hq, hto, rfl, rfl⟩
  · left
    refine ⟨⟨Function.update N.node place n, net.socket⟩, ?_, ?_, ?_, fun hfine pc =>
      ⟨rfl, fun a ha => ?_, fun a ha => ?_⟩⟩
    · rw [Net.step, if_pos hplace, hact, Option.map_some]
      congr
      funext a
      rw [hsocket, hv.socket]
    · rw [hseen, Net.seen, Node.seen, hact]
      rfl
    · simp only [hnet, Function.update_self]
    · by_cases hne : a = place
      · subst hne
        simp only [hnet, Function.update_self]
      · simp only [hnet, Function.update_of_ne hne] at ha ⊢
        exact hv.node a ha
    · by_cases hne : a = place
      · subst hne
        simp only [hnet, Function.update_self] at ha hfine
        rw [hfine] at ha
        cases ha
      · simp only [hnet, Function.update_of_ne hne] at ha ⊢
        exact hv.stopped a ha
  · right
    refine ⟨hcall, hseen, fun pc => ⟨?_, fun a ha => ?_, fun a ha => ?_⟩, q, hq, hto⟩
    · funext a
      rw [hsocket, hv.socket, List.filterMap_nil, List.filterMap_nil, List.length_nil,
        List.drop_zero, ite_self, List.append_nil]
    · by_cases hne : a = place
      · subst hne
        simp [hnet, failed, Driver.State.goto] at ha
      · simp only [hnet, Function.update_of_ne hne] at ha
        rw [hnet, Function.update_of_ne hne]
        exact hv.node a ha
    · by_cases hne : a = place
      · subst hne
        simp only [hnet, Function.update_self]
      · simp only [hnet, Function.update_of_ne hne] at ha ⊢
        exact hv.stopped a ha

theorem Inv.failed_eq_false (hi : Inv machines numBoxes farAddr s h) (a : NetworkAddress) :
    failed (s.net.node a) = false :=
  failed_of_fine (Node.fine_of_reach ((Net.inv_reach hi.net).node a))

theorem sent_nodup (pc : Pc) (far a : NetworkAddress) : (pc.sent far a).Nodup := by
  cases pc with
  | greet => exact List.nodup_nil
  | greeted | receive | acknowledge => exact List.nodup_singleton _
  | acknowledged | receiveAck | halt | halted =>
    refine List.nodup_cons.mpr ⟨fun h => ?_, List.nodup_singleton _⟩
    have htext : data = ack := congrArg (fun z => z.2.text) (List.mem_singleton.mp h)
    exact absurd htext (by decide)

/-- No two machines have the same far machine. -/
def Apart (machines : List NetworkAddress) (farAddr : NetworkAddress → NetworkAddress) : Prop :=
  ∀ c ∈ machines, ∀ c' ∈ machines, farAddr c = farAddr c' → c = c'

/-- What has been sent to a machine that has halted. -/
theorem Inv.sent_iff {x y : Letter} (hi : Inv machines numBoxes farAddr s h)
    (hapart : Apart machines farAddr) (ha : s.pc a = .halted x y) :
    ∃ c ∈ machines, farAddr c = a ∧ x = greeting c ∧ y = acknowledgement (farAddr a) ∧
      ∀ d w, ((a, w) ∈ requests (h.filterMap (seenAt d)) ↔ d = c ∧ w = x ∨ d = farAddr a ∧ w = y) ∧
        (a, w) ∉ wanted (s.net.node d) := by
  obtain ⟨c, hc, hto, rfl, hgreeting⟩ := hi.greeted a x (by rw [ha]; rfl)
  obtain ⟨-, rfl, hack⟩ := hi.acknowledged a y (by rw [ha]; rfl)
  refine ⟨c, hc, hto, rfl, rfl, fun d w => ?_⟩
  have hkind (hw : (a, w) ∈ requests (h.filterMap (seenAt d)) ++ wanted (s.net.node d)) :
      d = c ∧ w = greeting c ∨ d = farAddr a ∧ w = acknowledgement (farAddr a) := by
    obtain ⟨hd, ⟨hfar, rfl⟩ | ⟨rfl, -, rfl⟩⟩ := hi.sender hw
    · obtain rfl := hapart c hc d hd (hto.trans hfar)
      exact .inl ⟨rfl, rfl⟩
    · exact .inr ⟨rfl, rfl⟩
  have hsent (hw : d = c ∧ w = greeting c ∨ d = farAddr a ∧ w = acknowledgement (farAddr a)) :
      (a, w) ∈ requests (h.filterMap (seenAt d)) := by
    rcases hw with ⟨rfl, rfl⟩ | ⟨rfl, rfl⟩
    · exact hgreeting
    · exact hack
  refine ⟨⟨fun hw => hkind (List.mem_append_left _ hw), hsent⟩, fun hw => ?_⟩
  -- the letter has been sent before, and no letter is sent twice
  have hnodup := sent_nodup (s.pc d) (farAddr d) d
  rw [← hi.sent d] at hnodup
  exact (List.nodup_append.mp hnodup).2.2 _ (hsent (hkind (List.mem_append_right _ hw))) _ hw rfl

/-- Where no machine has failed and no two have the same far machine, every letter is for a machine
that is still there. -/
theorem running_of_wanted {q : Outgoing} (hi : Inv machines numBoxes farAddr ⟨N, s.pc⟩ h)
    (hfar : ∀ a ∈ machines, farAddr a ∈ machines) (hapart : Apart machines farAddr)
    (hfine : ∀ a, failed (s.net.node a) = false)
    (hq : (N.node place).sender.pc () = .request q) :
    q.pktHdr.toAddr ∈ s.running machines := by
  have hwanted : (q.pktHdr.toAddr, q.letter) ∈ wanted (N.node place) := by
    rw [wanted, hq]
    exact List.mem_singleton_self _
  have hto : q.pktHdr.toAddr ∈ machines := by
    obtain ⟨hplace, ⟨hto, -⟩ | ⟨-, hgreeting, -⟩⟩ := hi.sender (List.mem_append_right _ hwanted)
    · rw [hto]
      exact hfar place hplace
    · obtain ⟨c, hc, -, heq, -⟩ := hi.greeted place _ hgreeting
      obtain rfl : q.pktHdr.toAddr = c := congrArg Letter.source heq
      exact hc
  refine List.mem_filter.mpr ⟨hto, ?_⟩
  rw [hfine, Bool.not_false, Bool.and_true, Bool.not_eq_true']
  by_contra hhalted
  cases hpc : s.pc q.pktHdr.toAddr with
  | halted x y =>
    obtain ⟨_, _, _, _, _, hsent⟩ := hi.sent_iff hapart hpc
    exact (hsent place q.letter).2 hwanted
  | _ =>
    rw [hpc] at hhalted
    exact hhalted rfl

/-- What holds of a state: of its network where no assertion had failed, and of those that did. -/
structure Reached (machines : List NetworkAddress) (numBoxes : ℤ)
    (farAddr : NetworkAddress → NetworkAddress) (s : State Addr)
    (h : List (NetworkAddress × Seen Unit)) (N : Net Unit Addr) : Prop where
  revives : Revives N s
  inv : Inv machines numBoxes farAddr ⟨N, s.pc⟩ h
  fine : Apart machines farAddr → ∀ a, failed (s.net.node a) = false

theorem Reached.step_net {pc' : NetworkAddress → Pc} (hr : Reached machines numBoxes farAddr s h N)
    (hfar : ∀ a ∈ machines, farAddr a ∈ machines)
    (hs : s.net.step (s.running machines) numBoxes ⟨place, act⟩ = some net)
    (hinv : ∀ N', N.step machines numBoxes ⟨place, act⟩ = some N' →
      s.net.seen (s.running machines) numBoxes ⟨place, act⟩ =
        N.seen machines numBoxes ⟨place, act⟩ →
      Inv machines numBoxes farAddr ⟨N', pc'⟩
        (h ++ s.net.seen (s.running machines) numBoxes ⟨place, act⟩))
    (hpc : isCall act = false →
      s.net.seen (s.running machines) numBoxes ⟨place, act⟩ = [] → pc' = s.pc) :
    ∃ N', Reached machines numBoxes farAddr ⟨net, pc'⟩
      (h ++ s.net.seen (s.running machines) numBoxes ⟨place, act⟩) N' := by
  rcases hr.revives.step_net hs with ⟨N', hN, hseen, hnode, hv⟩ | ⟨hcall, hseen, hv, q, hq, hto⟩
  · have hi := hinv N' hN hseen
    refine ⟨N', hv (hi.failed_eq_false place) pc', hi, fun hapart a => ?_⟩
    by_cases ha : a = place
    · subst ha
      simp only [hnode, Function.update_self]
      exact hi.failed_eq_false a
    · simp only [hnode, Function.update_of_ne ha]
      exact hr.fine hapart a
  · rw [hpc hcall hseen, hseen, List.append_nil]
    refine ⟨N, hv s.pc, hr.inv, fun hapart => absurd ?_ hto⟩
    exact running_of_wanted hr.inv hfar hapart (hr.fine hapart) hq

theorem reached_step (hfar : ∀ a ∈ machines, farAddr a ∈ machines) (hboxes : 2 ≤ numBoxes)
    (hr : Reached machines numBoxes farAddr s h N)
    (hs : step machines numBoxes farAddr s e = some s') :
    ∃ N', Reached machines numBoxes farAddr s' (h ++ seen machines numBoxes farAddr s e) N' := by
  cases e with
  | call a outPktHdr mem =>
    obtain ⟨⟨act, pc'⟩, hcall, hs⟩ := Option.bind_eq_some_iff.mp hs
    obtain ⟨net, hnet, hs⟩ := Option.bind_eq_some_iff.mp hs
    cases hs
    rw [seen, hcall]
    refine hr.step_net hfar hnet (fun N' hN hseen => ?_) fun hact => ?_
    · rw [hseen]
      exact inv_call hfar hboxes hr.inv hcall hN
    · cases hpc : s.pc a <;> rw [hpc] at hcall <;> cases hcall <;> cases hact
  | halt a =>
    obtain ⟨-, hs⟩ := Option.ite_none_right_eq_some.mp hs
    rw [seen, List.append_nil]
    cases hpc : s.pc a with
    | halt x y =>
      simp only [hpc] at hs
      cases hs
      exact ⟨N, ⟨hr.revives.socket, hr.revives.node, hr.revives.stopped⟩, inv_halt hr.inv hpc,
        hr.fine⟩
    | _ =>
      simp only [hpc] at hs
      cases hs
  | net e =>
    obtain ⟨hno, hs⟩ := Option.ite_none_left_eq_some.mp hs
    obtain ⟨net, hnet, hs⟩ := Option.bind_eq_some_iff.mp hs
    cases hs
    refine hr.step_net hfar hnet (fun N' hN hseen => ?_) fun _ hseen => ?_
    · rw [hseen]
      exact inv_net hr.inv (Bool.eq_false_iff.mpr hno) hN
    · rw [hseen]
      exact Function.update_eq_self e.place s.pc

theorem inv_start (hnet : (Net.machine machines numBoxes).init s.net)
    (hpc : ∀ a, s.pc a = .greet) : Inv machines numBoxes farAddr s [] := by
  refine ⟨.init ⟨hnet, rfl⟩, fun a _ => hpc a, fun a => ?_, fun a => ?_, fun a x hx => ?_,
    fun a y hy => ?_⟩
  · rw [hpc a]
    exact (hnet.1 a).receiving ()
  · rw [hpc a, wanted, (hnet.1 a).sender.pc ()]
    rfl
  · rw [hpc a] at hx
    cases hx
  · rw [hpc a] at hy
    cases hy

theorem reached {p : State Addr × List (NetworkAddress × Seen Unit)}
    (hfar : ∀ a ∈ machines, farAddr a ∈ machines) (hboxes : 2 ≤ numBoxes)
    (hr : ((machine machines numBoxes farAddr).observe (seen machines numBoxes farAddr)).Reachable
      p) : ∃ N, Reached machines numBoxes farAddr p.1 p.2 N := by
  apply hr.invariant (fun p => ∃ N, Reached machines numBoxes farAddr p.1 p.2 N)
  · rintro ⟨s, h⟩ ⟨⟨hnet, hpc⟩, rfl⟩
    have hi : Inv machines numBoxes farAddr s [] := inv_start hnet hpc
    refine ⟨s.net, ⟨rfl, fun a _ => rfl, fun a ha => ?_⟩, hi, fun _ => hi.failed_eq_false⟩
    rw [hi.failed_eq_false a] at ha
    cases ha
  · rintro p e p' _ ⟨N, hN⟩ _ hs
    obtain ⟨hstep, hseen⟩ := Machine.observe_step.mp hs
    rw [hseen]
    exact reached_step hfar hboxes hN hstep

/-- A machine that has halted got its two letters from the right machines, and the machine that it
wrote to has got its greeting. Where no two machines write to the same one, no assertion fails. -/
theorem mail_test_agreement {p : State Addr × List (NetworkAddress × Seen Unit)}
    (hfar : ∀ a ∈ machines, farAddr a ∈ machines) (hboxes : 2 ≤ numBoxes)
    (hr : ((machine machines numBoxes farAddr).observe
      (seen machines numBoxes farAddr)).Reachable p) :
    (∀ a x y, p.1.pc a = .halted x y →
      (∃ c ∈ machines, farAddr c = a ∧ x = greeting c) ∧ y = acknowledgement (farAddr a) ∧
        (p.1.pc (farAddr a)).greetingOf = some (greeting a)) ∧
      (Apart machines farAddr → ∀ a, (p.1.net.node a).Fine) := by
  obtain ⟨N, hN⟩ := reached hfar hboxes hr
  refine ⟨fun a x y ha => ?_, fun hapart a => ?_⟩
  · obtain ⟨c, hc, hto, hgreeting, -⟩ := hN.inv.greeted a x (by rw [ha]; rfl)
    obtain ⟨hreceived, hack, -⟩ := hN.inv.acknowledged a y (by rw [ha]; rfl)
    exact ⟨⟨c, hc, hto, hgreeting⟩, hack, hreceived⟩
  · rw [← hN.revives.node a (hN.fine hapart a)]
    exact Node.fine_of_reach ((Net.inv_reach hN.inv.net).node a)

/-- Where no two machines write to the same one, a machine that has halted has been sent its two
letters and nothing else, each once, and nobody ever sends it anything again. -/
theorem mail_test_quiet {p : State Addr × List (NetworkAddress × Seen Unit)} {x y : Letter}
    (hfar : ∀ a ∈ machines, farAddr a ∈ machines) (hboxes : 2 ≤ numBoxes)
    (hapart : Apart machines farAddr)
    (hr : ((machine machines numBoxes farAddr).observe
      (seen machines numBoxes farAddr)).Reachable p)
    (ha : p.1.pc a = .halted x y) :
    (∃ c ∈ machines, farAddr c = a ∧ x = greeting c ∧ y = acknowledgement (farAddr a) ∧
      ∀ d w, (a, w) ∈ requests (p.2.filterMap (seenAt d)) ↔
        d = c ∧ w = x ∨ d = farAddr a ∧ w = y) ∧
    (∀ d, (requests (p.2.filterMap (seenAt d))).Nodup) ∧
    (∀ d q, ((p.1.net.node d).sender.pc ()).wants = some q → q.pktHdr.toAddr ≠ a) ∧
    ∀ e p', ((machine machines numBoxes farAddr).observe (seen machines numBoxes farAddr)).step p
      e = some p' → ∀ z ∈ seen machines numBoxes farAddr p.1 e, z.2.mailedTo a = none := by
  obtain ⟨N, hN⟩ := reached hfar hboxes hr
  obtain ⟨c, hc, hto, hx, hy, hsent⟩ := hN.inv.sent_iff hapart ha
  have hnodup {s : State Addr} {h : List (NetworkAddress × Seen Unit)}
      (hi : Inv machines numBoxes farAddr s h) (d : NetworkAddress) :
      (requests (h.filterMap (seenAt d)) ++ wanted (s.net.node d)).Nodup := by
    rw [hi.sent d]
    exact sent_nodup _ _ _
  refine ⟨⟨c, hc, hto, hx, hy, fun d w => (hsent d w).1⟩,
    fun d => (List.nodup_append.mp (hnodup hN.inv d)).1, fun d q hq heq => ?_, ?_⟩
  · apply (hsent d q.letter).2
    rw [wanted, hN.revives.node d (hN.fine hapart d), hq]
    exact List.mem_singleton.mpr (Prod.ext heq.symm rfl)
  · rintro e p' hs ⟨d, z⟩ hz
    obtain ⟨hstep, hseen⟩ := Machine.observe_step.mp hs
    obtain ⟨N', hN'⟩ := reached_step hfar hboxes hN hstep
    by_contra hmailed
    obtain ⟨w, hw⟩ := Option.ne_none_iff_exists'.mp hmailed
    -- the letter is sent now, so it has not been sent before
    have hnow : (a, w) ∈ requests ((seen machines numBoxes farAddr p.1 e).filterMap (seenAt d)) :=
      requested_of_mailed hz hw
    have hnew := hnodup hN'.inv d
    rw [List.filterMap_append, requests_append] at hnew
    have hold : (a, w) ∉ requests (p.2.filterMap (seenAt d)) := fun hold =>
      (List.nodup_append.mp (List.nodup_append.mp hnew).1).2.2 _ hold _ hnow rfl
    have hmem : (a, w) ∈ requests
        ((p.2 ++ seen machines numBoxes farAddr p.1 e).filterMap (seenAt d)) := by
      rw [List.filterMap_append, requests_append]
      exact List.mem_append_right _ hnow
    obtain ⟨hd, ⟨hfar', rfl⟩ | ⟨rfl, -, rfl⟩⟩ := hN'.inv.sender (List.mem_append_left _ hmem)
    · obtain rfl := hapart c hc d hd (hto.trans hfar')
      exact hold ((hsent c _).1.mpr (.inl ⟨rfl, hx.symm⟩))
    · exact hold ((hsent _ _).1.mpr (.inr ⟨rfl, hy.symm⟩))

/-! ### Two machines -/

/-- Two machines that have just been started. -/
def started : State ℕ where
  net :=
    { node := fun _ =>
        { sender := ⟨⟨⟨1, []⟩, none⟩, ⟨0, []⟩, false, [], 0, fun _ => .outside none⟩
          network := ⟨⟨0, 0, 0⟩, fun _ => 0⟩
          messageAvailable := ⟨0, []⟩
          worker := .waitP
          buffer := fun _ => 0
          boxes := fun _ => Monitor.startState none ⟨fun _ => none, none, none⟩ (.outside none)
          receiving := fun _ => none
          aborted := false }
      socket := fun _ => [] }
  pc _ := .greet

/-- Machine `a` makes its call of `Send`. -/
def sendOne (a : NetworkAddress) (k : ℕ) : List (Event ℕ) :=
  .call a ⟨0, 0, 0⟩ (fun _ => 0) :: List.replicate 3 (.net ⟨a, .run () false fun _ => 0⟩) ++
    .net ⟨a, .sendDone k⟩ :: List.replicate 3 (.net ⟨a, .run () false fun _ => 0⟩)

/-- Machine `a` gets a packet and makes its call of `Receive`. -/
def receiveOne (a : NetworkAddress) (addr : ℕ) : List (Event ℕ) :=
  .net ⟨a, .checkPktAvail fun _ => 0⟩ :: List.replicate 4 (.net ⟨a, .work none fun _ => 0⟩) ++
    .net ⟨a, .work (some addr) fun _ => 0⟩ ::
      List.replicate 5 (.net ⟨a, .work none fun _ => 0⟩) ++
    .call a ⟨0, 0, 0⟩ (fun _ => 0) :: List.replicate 4 (.net ⟨a, .run () false fun _ => 0⟩)

def other (a : NetworkAddress) : NetworkAddress := 1 - a

theorem other_mem (a : NetworkAddress) (ha : a ∈ [0, 1]) : other a ∈ [0, 1] := by
  rcases List.mem_pair.mp ha with rfl | rfl <;> decide

/-- Machine 0 halts before machine 1 waits for its acknowledgement. -/
def firstHalts : List (Event ℕ) :=
  sendOne 0 0 ++ sendOne 1 0 ++ receiveOne 0 5 ++ receiveOne 1 5 ++ sendOne 1 1 ++ sendOne 0 1 ++
    receiveOne 0 6 ++ [.halt 0]

theorem started_init :
    ((machine [0, 1] 10 other).observe (seen [0, 1] 10 other)).init (started, []) :=
  ⟨⟨⟨fun _ => ⟨⟨rfl, rfl, rfl, rfl, fun _ => rfl⟩, rfl, rfl, rfl,
    fun _ => Monitor.start_startState ⟨rfl, rfl⟩, fun _ => rfl, rfl⟩, fun _ => rfl⟩,
      fun _ => rfl⟩, rfl⟩

theorem firstHalts_run :
    ((((machine [0, 1] 10 other).observe (seen [0, 1] 10 other)).run (started, [])
      firstHalts).bind fun p =>
        (((machine [0, 1] 10 other).observe (seen [0, 1] 10 other)).step p
          (.call 1 ⟨0, 0, 0⟩ fun _ => 0)).map fun _ => p.1.pc 0) =
      some (.halted (greeting 1) (acknowledgement 1)) := by
  decide +kernel

theorem firstHalts_reach : ∃ p p' : State ℕ × List (NetworkAddress × Seen Unit),
    ((machine [0, 1] 10 other).observe (seen [0, 1] 10 other)).Reachable p ∧
      ((machine [0, 1] 10 other).observe (seen [0, 1] 10 other)).step p
        (.call 1 ⟨0, 0, 0⟩ fun _ => 0) = some p' ∧
      p.1.pc 0 = .halted (greeting 1) (acknowledgement 1) := by
  obtain ⟨p, hp, hlast⟩ := Option.bind_eq_some_iff.mp firstHalts_run
  obtain ⟨p', hs, hpc⟩ := Option.map_eq_some_iff.mp hlast
  exact ⟨p, p', Machine.Reachable.run firstHalts (.init started_init) hp, hs, hpc⟩

/-- A third machine writes to machine 0 when that has halted. -/
example : (((machine [0, 1, 2] 10 fun a => if a = 0 then 1 else 0).run started
    (firstHalts ++ (sendOne 2 0).take 4)).map fun s => failed (s.net.node 2)) = some true := by
  decide +kernel

theorem other_apart : Apart [0, 1] other := fun _ _ _ _ h => (BitVec.sub_right_inj 1).mp h

theorem mail_test_agreement_two : ∃ p : State ℕ × List (NetworkAddress × Seen Unit),
    p.1.pc 0 = .halted (greeting 1) (acknowledgement 1) ∧
      (p.1.pc (other 0)).greetingOf = some (greeting 0) ∧ ∀ a, (p.1.net.node a).Fine := by
  obtain ⟨p, -, hr, -, hpc⟩ := firstHalts_reach
  obtain ⟨hagree, hfine⟩ := mail_test_agreement other_mem (by decide) hr
  exact ⟨p, hpc, (hagree 0 _ _ hpc).2.2, hfine other_apart⟩

theorem mail_test_quiet_two : ∃ p : State ℕ × List (NetworkAddress × Seen Unit),
    p.1.pc 0 = .halted (greeting 1) (acknowledgement 1) ∧
      (∀ w, (0, w) ∈ requests (p.2.filterMap (seenAt 1)) ↔
        w = greeting 1 ∨ w = acknowledgement 1) ∧
      ∀ z ∈ seen [0, 1] 10 other p.1 (.call 1 ⟨0, 0, 0⟩ fun _ => 0), z.2.mailedTo 0 = none := by
  obtain ⟨p, p', hr, hs, hpc⟩ := firstHalts_reach
  obtain ⟨⟨c, -, hto, hx, -, hsent⟩, -, -, hnever⟩ :=
    mail_test_quiet other_mem (by decide) other_apart hr hpc
  obtain rfl : 1 = c := congrArg Letter.source hx
  refine ⟨p, hpc, fun w => (hsent 1 w).trans ?_, hnever _ _ hs⟩
  rw [show other 0 = 1 from rfl, eq_self, true_and, true_and]

end Coursework.Nachos.PostOffice.MailTest
