import Coursework.Nachos.PostOffice.MailTest

/-!
# The letters of `MailTest` while all sockets are kept

What a machine has sent follows from the call that it makes next. A letter that is received was sent
by a machine, and its mailbox tells whether it is a greeting or an acknowledgement.
-/
namespace Coursework.Nachos.PostOffice.MailTest

variable {Addr : Type} [DecidableEq Addr]

/-- What holds as long as the network of `s` has kept the sockets of all machines. -/
structure Inv (machines : List NetworkAddress) (numBoxes : ℤ)
    (farAddr : NetworkAddress → NetworkAddress) (s : State Addr)
    (h : List (NetworkAddress × Seen Unit)) : Prop where
  net : ((Net.machine machines numBoxes).observe (Net.seen machines numBoxes)).Reach
    (fun _ x => x.act.Valid machines numBoxes) (s.net, h)
  idle : ∀ a, a ∉ machines → s.pc a = .greet
  waits : ∀ a, (s.net.node a).receiving () = (s.pc a).waitsAt
  sent : ∀ a, requests (h.filterMap (seenAt a)) ++ wanted (s.net.node a) =
    (s.pc a).sent (farAddr a) a
  greeted : ∀ a x, (s.pc a).greetingOf = some x →
    ∃ c ∈ machines, farAddr c = a ∧ x = greeting c ∧ (a, x) ∈ requests (h.filterMap (seenAt c))
  acknowledged : ∀ a y, (s.pc a).ackOf = some y →
    (s.pc (farAddr a)).greetingOf = some (greeting a) ∧ y = acknowledgement (farAddr a) ∧
      (a, y) ∈ requests (h.filterMap (seenAt (farAddr a)))

/-! ### One machine -/

variable {machines : List NetworkAddress} {numBoxes : ℤ} {ident a c : NetworkAddress} {b : ℤ}
  {n n' : Node Unit Addr} {l : List (Seen Unit)} {packet : Option Mem} {act : Act Unit Addr}

/-- A request that is made was wanted before. -/
theorem wants_of_steps {D E R : Type} {dev : Device D Outgoing E R}
    {S S' : Driver.State Unit D Outgoing R} {e : Driver.Event Unit Outgoing E}
    {l : List (Driver.Seen Unit Outgoing R)} (hs : Driver.State.Steps dev S e l S')
    (hfine : S'.pc () ≠ .assertFailed) :
    (∃ q, e = .call () q ∧ (S.pc ()).wants = none ∧ (S'.pc ()).wants = some q ∧ l = []) ∨
      (∀ q, e ≠ .call () q) ∧
        l.filterMap requestOf ++ (S'.pc ()).wants.toList = (S.pc ()).wants.toList := by
  cases hs with
  | call hpc =>
    left
    refine ⟨_, rfl, ?_, ?_, rfl⟩
    · simp [hpc, Driver.Pc.wants]
    · simp [Driver.State.goto, Driver.Pc.wants]
  | requestFail hpc hreq => simp [Driver.State.goto] at hfine
  | interrupt hn => exact .inr ⟨by simp, by simp [requestOf]⟩
  | _ hpc => exact .inr ⟨by simp, by simp [Driver.State.goto, Driver.Pc.wants, hpc, requestOf]⟩

theorem requests_append (h l : List (Seen Unit)) :
    requests (h ++ l) = requests h ++ requests l := by
  simp only [requests, List.filterMap_append, List.map_append]

/-- What has been sent has been sent. -/
theorem requests_mono {x : NetworkAddress × Letter} {h : List (NetworkAddress × Seen Unit)}
    (hx : x ∈ requests (h.filterMap (seenAt a))) (l : List (NetworkAddress × Seen Unit)) :
    x ∈ requests ((h ++ l).filterMap (seenAt a)) := by
  rw [List.filterMap_append, requests_append]
  exact List.mem_append_left _ hx

theorem requests_sender (x : List (Driver.Seen Unit Outgoing (Option Mem))) :
    requests (x.map .sender) = (x.filterMap requestOf).map addressed := by
  rw [requests, Node.senderOf_sender]

/-- A call of `Send` is accepted where nothing is being sent. -/
theorem wanted_of_send {pktHdr : PacketHeader} {mailHdr : MailHeader} {data mem : Mem}
    {q : Outgoing} (hq : PostOffice.send numBoxes ident pktHdr mailHdr data mem = some q)
    (hs : n.act machines numBoxes ident (packet, .send () pktHdr mailHdr data mem) =
      some (n', l)) :
    requests l = [] ∧ wanted n = [] ∧ wanted n' = [addressed q] ∧
      n'.receiving = n.receiving := by
  obtain ⟨-, hs⟩ := Option.ite_none_left_eq_some.mp hs
  obtain ⟨-, hs⟩ := Option.ite_none_right_eq_some.mp hs
  rw [hq] at hs
  obtain ⟨S, hS, hs⟩ := Option.map_eq_some_iff.mp hs
  cases hs
  have hsteps := Driver.State.steps_of_step hS
  cases hsteps with
  | call hpc =>
    refine ⟨rfl, ?_, ?_, rfl⟩
    · simp [wanted, hpc, Driver.Pc.wants]
    · simp [wanted, Driver.State.goto, Driver.Pc.wants]

/-- What is sent was wanted. -/
theorem wanted_of_acts (hs : Node.Acts machines numBoxes ident n (packet, act) l n')
    (hfine : n'.Fine) (hact : isCall act = false) :
    requests l ++ wanted n' = wanted n := by
  cases hs with
  | @sender packet act e S hcall hS =>
    rcases wants_of_steps (Driver.State.steps_of_step hS) (hfine.sending ()) with
      ⟨q, he, -⟩ | ⟨-, hwants⟩
    · obtain ⟨pktHdr, mailHdr, data, mem, rfl, -⟩ := hcall () q he
      cases hact
    · rw [requests_sender, wanted, wanted, ← List.map_append, hwants]
  | receive | remove | deliver | append | appended =>
    rw [requests, Node.view_movedIn fun _ => rfl]
    rfl
  | get | getFail =>
    rw [requests, List.filterMap_append, Node.view_movedIn fun _ => rfl]
    rfl
  | poll =>
    rw [requests, filterMap_map_of_none fun _ => rfl]
    rfl
  | _ => rfl

/-- A call of `Receive` is accepted where nothing is being received. -/
theorem receiving_of_receive (hb : IsBox numBoxes b)
    (hs : n.act machines numBoxes ident (packet, .receive () b) = some (n', l)) :
    n'.receiving () = some b ∧ requests l = [] ∧ wanted n' = wanted n := by
  obtain ⟨-, hs⟩ := Option.ite_none_left_eq_some.mp hs
  obtain ⟨-, hs⟩ := Option.ite_none_right_eq_some.mp hs
  rw [if_pos hb] at hs
  obtain ⟨m, -, hs⟩ := Option.map_eq_some_iff.mp hs
  cases hs
  refine ⟨?_, ?_, rfl⟩
  · exact Function.update_self () (some b) n.receiving
  · rw [requests, filterMap_map_of_none fun _ => rfl]
    rfl

/-- Between the calls the machine goes on waiting, or `Receive` returns with a letter. -/
theorem receiving_of_acts (hs : Node.Acts machines numBoxes ident n (packet, act) l n')
    (hact : isCall act = false) :
    l.filterMap letterOf = [] ∧ n'.receiving = n.receiving ∨
      ∃ b x, n.receiving () = some b ∧ n'.receiving () = none ∧ l.filterMap letterOf = [x] ∧
        x ∈ l.filterMap (Seen.receivedOf () b) := by
  cases hs with
  | sender => exact .inl ⟨Node.view_sender fun _ => rfl, rfl⟩
  | sendFail | receiveFail | receive => cases hact
  | remove | deliver | append | appended => exact .inl ⟨Node.view_movedIn fun _ => rfl, rfl⟩
  | @get packet t b m lost mem mail ht hm hr hlen =>
    refine .inr ⟨b, Mail.letter { mail with
      data := mem.copy 0 mail.mailHdr.length.toNat mail.data }, ht, ?_, ?_, ?_⟩
    · exact Function.update_self () none n.receiving
    · rw [List.filterMap_append, Node.view_movedIn fun _ => rfl, List.nil_append]
      rfl
    · rw [List.filterMap_append, List.mem_append]
      right
      simp [Seen.receivedOf]
  | getFail =>
    left
    rw [List.append_nil]
    exact ⟨Node.view_movedIn fun _ => rfl, rfl⟩
  | poll =>
    left
    rw [filterMap_map_of_none fun _ => rfl]
    exact ⟨rfl, rfl⟩
  | _ => exact .inl ⟨rfl, rfl⟩

/-! ### From one machine to another -/

section
variable {p : Net Unit Addr × List (NetworkAddress × Seen Unit)} {x : Letter}

/-- A letter that is received was carried. -/
theorem carried_of_received
    (hr : ((Net.machine machines numBoxes).observe (Net.seen machines numBoxes)).Reach
      (fun _ x => x.act.Valid machines numBoxes) p)
    (hx : x ∈ (p.2.filterMap (seenAt a)).filterMap (Seen.receivedOf () b)) :
    x ∈ carried a b p.2 := by
  have hi := Net.inv_reach hr
  have hnode := Node.inv_reach (hi.node a)
  obtain ⟨xs, -, htakes⟩ := Node.takes_append (hi.node a) b
  have hflow : puts b (p.2.filterMap (seenAt a)) ++ (p.1.node a).linking b ++
      ((p.1.node a).held ++ (p.1.socket a).map packetLetter).filter (·.box = b) =
        carried a b p.2 := by
    rw [List.filter_append, ← List.append_assoc, hnode.carried.flow b, reads,
      ← List.filter_append, ← List.map_append, hi.socket a, hi.letters a]
    rfl
  have htaken : x ∈ takes b (p.2.filterMap (seenAt a)) := by
    apply (takesBy_sublist () b _).subset
    rw [Node.takesBy_eq (hi.node a)]
    exact List.mem_append_left _ hx
  rw [← hflow, ← htakes]
  exact List.mem_append_left _ (List.mem_append_left _ (List.mem_append_left _ htaken))

/-- A letter that is mailed is among the requests of a machine. -/
theorem requested_of_mailed {h : List (NetworkAddress × Seen Unit)} {y : Seen Unit}
    (hy : (c, y) ∈ h) (hx : y.mailedTo a = some x) :
    (a, x) ∈ requests (h.filterMap (seenAt c)) := by
  have hseen : y ∈ h.filterMap (seenAt c) := List.mem_filterMap.mpr ⟨_, hy, if_pos rfl⟩
  cases y with
  | sender y =>
    cases y with
    | requested t k q r =>
      obtain ⟨hto, hq⟩ := Option.ite_none_right_eq_some.mp hx
      cases hq
      refine List.mem_map.mpr ⟨q, List.mem_filterMap.mpr ⟨.requested t k q r,
        List.mem_filterMap.mpr ⟨_, hseen, rfl⟩, rfl⟩, ?_⟩
      rw [addressed, hto]
    | _ => cases hx
  | _ => cases hx

theorem requested_of_carried {h : List (NetworkAddress × Seen Unit)} (hx : x ∈ carried a b h) :
    x.box = b ∧ ∃ c, (a, x) ∈ requests (h.filterMap (seenAt c)) := by
  obtain ⟨hx, hbox⟩ := List.mem_filter.mp ((carried_sublist h).subset hx)
  obtain ⟨⟨c, y⟩, hy, hmailed⟩ := List.mem_filterMap.mp hx
  exact ⟨of_decide_eq_true hbox, c, requested_of_mailed hy hmailed⟩

end

/-! ### The program -/

namespace Pc
variable {pc pc' : Pc} {far : NetworkAddress} {x y : Letter} {outPktHdr : PacketHeader} {mem : Mem}

theorem mem_sent (h : (c, x) ∈ pc.sent far a) : c = far ∧ x = greeting a ∨
    ∃ y, pc.greetingOf = some y ∧ c = y.source ∧ x = answer a y := by
  cases pc with
  | greet => cases h
  | greeted | receive | acknowledge => exact .inl (Prod.mk.inj (List.mem_singleton.mp h))
  | acknowledged y | receiveAck y | halt y | halted y =>
    rcases List.mem_pair.mp h with h | h
    · exact .inl (Prod.mk.inj h)
    · exact .inr ⟨y, rfl, Prod.mk.inj h⟩

theorem got_greetingOf (h : pc.greetingOf = some y) : (pc.got x).greetingOf = some y := by
  cases pc with
  | receive => cases h
  | _ => exact h

theorem got_sent : (pc.got x).sent far a = pc.sent far a := by
  cases pc <;> rfl

end Pc

variable {farAddr : NetworkAddress → NetworkAddress} {s s' : State Addr} {net : Net Unit Addr}
  {h : List (NetworkAddress × Seen Unit)} {e : Event Addr} {place : NetworkAddress}

/-- A step of the network, as it is seen of each machine. -/
theorem requests_step (hs : s.net.step machines numBoxes ⟨place, act⟩ = some net) :
    ∃ n l, (s.net.node place).act machines numBoxes place ((s.net.socket place).head?, act) =
        some (n, l) ∧ net.node = Function.update s.net.node place n ∧
      s.net.seen machines numBoxes ⟨place, act⟩ = l.map (fun y => (place, y)) ∧
      requests ((h ++ s.net.seen machines numBoxes ⟨place, act⟩).filterMap (seenAt place)) =
        requests (h.filterMap (seenAt place)) ++ requests l ∧
      ∀ c, c ≠ place → net.node c = s.net.node c ∧
        requests ((h ++ s.net.seen machines numBoxes ⟨place, act⟩).filterMap (seenAt c)) =
          requests (h.filterMap (seenAt c)) := by
  obtain ⟨n, l, hact, hnode, -, hseen⟩ := Net.act_of_step hs
  refine ⟨n, l, hact, hnode, hseen, ?_, fun c hc => ⟨?_, ?_⟩⟩
  · rw [hseen, List.filterMap_append, seenAt_place, requests_append]
  · rw [hnode, Function.update_of_ne hc]
  · rw [hseen, List.filterMap_append, seenAt_elsewhere hc.symm, List.append_nil]

theorem Inv.greeted_mono {x : Letter} (hi : Inv machines numBoxes farAddr s h)
    (hx : (s.pc a).greetingOf = some x) (l : List (NetworkAddress × Seen Unit)) :
    ∃ c ∈ machines, farAddr c = a ∧ x = greeting c ∧
      (a, x) ∈ requests ((h ++ l).filterMap (seenAt c)) := by
  obtain ⟨c, hc, hfar, hgreeting, hsent⟩ := hi.greeted a x hx
  exact ⟨c, hc, hfar, hgreeting, requests_mono hsent l⟩

theorem Inv.acknowledged_mono {y : Letter} (hi : Inv machines numBoxes farAddr s h)
    (hy : (s.pc a).ackOf = some y) (l : List (NetworkAddress × Seen Unit)) :
    (s.pc (farAddr a)).greetingOf = some (greeting a) ∧ y = acknowledgement (farAddr a) ∧
      (a, y) ∈ requests ((h ++ l).filterMap (seenAt (farAddr a))) := by
  obtain ⟨hgreeting, hack, hsent⟩ := hi.acknowledged a y hy
  exact ⟨hgreeting, hack, requests_mono hsent l⟩

/-- A step of the network at one machine, where the program goes on to `pc'`. -/
theorem Inv.update {n : Node Unit Addr} {l : List (Seen Unit)} {pc' : Pc}
    (hi : Inv machines numBoxes farAddr s h) (hvalid : act.Valid machines numBoxes)
    (hs : s.net.step machines numBoxes ⟨place, act⟩ = some net)
    (hact : (s.net.node place).act machines numBoxes place ((s.net.socket place).head?, act) =
      some (n, l))
    (hwaits : n.receiving () = pc'.waitsAt)
    (hsent : requests (h.filterMap (seenAt place)) ++ requests l ++ wanted n =
      pc'.sent (farAddr place) place)
    (hkeep : ∀ y, (s.pc place).greetingOf = some y → pc'.greetingOf = some y)
    (hgreeted : ∀ x, pc'.greetingOf = some x →
      ∃ c ∈ machines, farAddr c = place ∧ x = greeting c ∧ (place, x) ∈ requests
        ((h ++ s.net.seen machines numBoxes ⟨place, act⟩).filterMap (seenAt c)))
    (hacknowledged : ∀ y, pc'.ackOf = some y →
      (s.pc (farAddr place)).greetingOf = some (greeting place) ∧
        y = acknowledgement (farAddr place) ∧ (place, y) ∈ requests
          ((h ++ s.net.seen machines numBoxes ⟨place, act⟩).filterMap (seenAt (farAddr place)))) :
    Inv machines numBoxes farAddr ⟨net, Function.update s.pc place pc'⟩
      (h ++ s.net.seen machines numBoxes ⟨place, act⟩) := by
  obtain ⟨n', l', hact', hnode, -, hhere, hthere⟩ := requests_step (h := h) hs
  rw [hact] at hact'
  cases hact'
  have hplace : place ∈ machines := (Option.ite_none_right_eq_some.mp hs).1
  have hgreeting (a : NetworkAddress) (y : Letter) (hy : (s.pc a).greetingOf = some y) :
      (Function.update s.pc place pc' a).greetingOf = some y := by
    by_cases ha : a = place
    · subst ha
      rw [Function.update_self]
      exact hkeep y hy
    · rwa [Function.update_of_ne ha]
  refine ⟨hi.net.step hvalid (Machine.observe_step.mpr ⟨hs, rfl⟩), fun a ha => ?_, fun a => ?_,
    fun a => ?_, fun a x hx => ?_, fun a y hy => ?_⟩
  · have hne : a ≠ place := by
      rintro rfl
      exact ha hplace
    simp only [Function.update_of_ne hne]
    exact hi.idle a ha
  · by_cases ha : a = place
    · subst ha
      simp only [hnode, Function.update_self]
      exact hwaits
    · simp only [(hthere a ha).1, Function.update_of_ne ha]
      exact hi.waits a
  · by_cases ha : a = place
    · subst ha
      simp only [hhere, hnode, Function.update_self]
      exact hsent
    · simp only [(hthere a ha).1, (hthere a ha).2, Function.update_of_ne ha]
      exact hi.sent a
  · by_cases ha : a = place
    · subst ha
      simp only [Function.update_self] at hx
      exact hgreeted x hx
    · simp only [Function.update_of_ne ha] at hx
      exact hi.greeted_mono hx _
  · by_cases ha : a = place
    · subst ha
      simp only [Function.update_self] at hy
      exact ⟨hgreeting _ _ (hacknowledged y hy).1, (hacknowledged y hy).2⟩
    · simp only [Function.update_of_ne ha] at hy
      exact (hi.acknowledged_mono hy _).imp_left (hgreeting _ _)

/-- The letter of a call is the one that is sent. -/
theorem send_addressed {pktHdr : PacketHeader} {mailHdr : MailHeader} (data mem : Mem)
    (hlen : mailHdr.length.toNat ≤ maxMailSize) (hbox : IsBox numBoxes mailHdr.toBox.toInt) :
    ∃ q, PostOffice.send numBoxes ident pktHdr mailHdr data mem = some q ∧
      addressed q = (pktHdr.toAddr, ⟨ident, mailHdr, data.bytes mailHdr.length.toNat⟩) := by
  rw [PostOffice.send, if_pos hlen, if_pos hbox]
  exact ⟨_, rfl, rfl⟩

/-- A call of `Send`. -/
theorem inv_send {pktHdr : PacketHeader} {mailHdr : MailHeader} {data mem : Mem} {pc' : Pc}
    (hi : Inv machines numBoxes farAddr s h) (hlen : mailHdr.length.toNat ≤ maxMailSize)
    (hbox : IsBox numBoxes mailHdr.toBox.toInt) (hto : pktHdr.toAddr ∈ machines)
    (hs : s.net.step machines numBoxes ⟨place, .send () pktHdr mailHdr data mem⟩ = some net)
    (hwaits : pc'.waitsAt = (s.pc place).waitsAt)
    (hsent : (s.pc place).sent (farAddr place) place ++
      [(pktHdr.toAddr, ⟨place, mailHdr, data.bytes mailHdr.length.toNat⟩)] =
        pc'.sent (farAddr place) place)
    (hgreeting : pc'.greetingOf = (s.pc place).greetingOf)
    (hack : pc'.ackOf = (s.pc place).ackOf) :
    Inv machines numBoxes farAddr ⟨net, Function.update s.pc place pc'⟩
      (h ++ s.net.seen machines numBoxes ⟨place, .send () pktHdr mailHdr data mem⟩) := by
  obtain ⟨n, l, hact, -⟩ := requests_step (h := h) hs
  obtain ⟨q, hq, haddressed⟩ := @send_addressed _ place pktHdr _ data mem hlen hbox
  obtain ⟨hl, hbefore, hafter, hreceiving⟩ := wanted_of_send hq hact
  refine hi.update ⟨hlen, hbox, hto⟩ hs hact ?_ ?_ (fun y hy => hgreeting.trans hy)
    (fun x hx => hi.greeted_mono (hgreeting ▸ hx) _) fun y hy =>
      hi.acknowledged_mono (hack ▸ hy) _
  · rw [hreceiving, hi.waits, hwaits]
  · rw [hl, List.append_nil, hafter, haddressed, ← hsent, ← hi.sent place, hbefore, List.append_nil]

/-- A call of `Receive`. -/
theorem inv_receive {pc' : Pc} (hi : Inv machines numBoxes farAddr s h) (hbox : IsBox numBoxes b)
    (hs : s.net.step machines numBoxes ⟨place, .receive () b⟩ = some net)
    (hwaits : pc'.waitsAt = some b)
    (hsent : pc'.sent (farAddr place) place = (s.pc place).sent (farAddr place) place)
    (hgreeting : pc'.greetingOf = (s.pc place).greetingOf)
    (hack : pc'.ackOf = (s.pc place).ackOf) :
    Inv machines numBoxes farAddr ⟨net, Function.update s.pc place pc'⟩
      (h ++ s.net.seen machines numBoxes ⟨place, .receive () b⟩) := by
  obtain ⟨n, l, hact, -⟩ := requests_step (h := h) hs
  obtain ⟨hreceiving, hl, hwanted⟩ := receiving_of_receive hbox hact
  refine hi.update hbox hs hact (hreceiving.trans hwaits.symm) ?_ (fun y hy => hgreeting.trans hy)
    (fun x hx => hi.greeted_mono (hgreeting ▸ hx) _) fun y hy =>
      hi.acknowledged_mono (hack ▸ hy) _
  rw [hl, List.append_nil, hwanted, hi.sent place, hsent]

/-- What a machine receives was sent to it by a machine, as a greeting or as an answer. -/
theorem Inv.sender {x : Letter} (hi : Inv machines numBoxes farAddr s h)
    (hx : (a, x) ∈ requests (h.filterMap (seenAt c)) ++ wanted (s.net.node c)) :
    c ∈ machines ∧ (a = farAddr c ∧ x = greeting c ∨
      farAddr a = c ∧ (s.pc c).greetingOf = some (greeting a) ∧ x = acknowledgement c) := by
  rw [hi.sent c] at hx
  have hc : c ∈ machines := by
    by_contra hno
    rw [hi.idle c hno] at hx
    cases hx
  refine ⟨hc, (Pc.mem_sent hx).imp_right ?_⟩
  rintro ⟨y, hy, rfl, rfl⟩
  obtain ⟨c', -, hfar, rfl, -⟩ := hi.greeted c y hy
  exact ⟨hfar, hy, rfl⟩

/-- A step between two calls. -/
theorem inv_net (hi : Inv machines numBoxes farAddr s h) (hact : isCall act = false)
    (hs : s.net.step machines numBoxes ⟨place, act⟩ = some net) :
    Inv machines numBoxes farAddr ⟨net, Function.update s.pc place
        (((s.net.seen machines numBoxes ⟨place, act⟩).filterMap (letterOf ·.2)).foldl
          (fun pc x => pc.got x) (s.pc place))⟩
      (h ++ s.net.seen machines numBoxes ⟨place, act⟩) := by
  have hvalid : act.Valid machines numBoxes := by
    cases act <;> trivial
  have hr : ((Net.machine machines numBoxes).observe (Net.seen machines numBoxes)).Reach
      (fun _ x => x.act.Valid machines numBoxes)
      (net, h ++ s.net.seen machines numBoxes ⟨place, act⟩) :=
    hi.net.step hvalid (Machine.observe_step.mpr ⟨hs, rfl⟩)
  obtain ⟨n, l, hstep, hnode, hseen, hhere, hthere⟩ := requests_step (h := h) hs
  have hacts := Node.acts_of_act hstep
  have hfine : n.Fine := by
    have hfine := Node.fine_of_reach ((Net.inv_reach hr).node place)
    rwa [hnode, Function.update_self] at hfine
  have hwanted := wanted_of_acts hacts hfine hact
  have hletters : (s.net.seen machines numBoxes ⟨place, act⟩).filterMap (letterOf ·.2) =
      l.filterMap letterOf := by
    rw [hseen, List.filterMap_map]
    rfl
  rw [hletters]
  rcases receiving_of_acts hacts hact with ⟨hnone, hreceiving⟩ | ⟨b, x, hb, hn, hx, hmem⟩
  · rw [hnone]
    refine hi.update hvalid hs hstep ?_ ?_ (fun y hy => hy)
      (fun x hx => hi.greeted_mono hx _) fun y hy => hi.acknowledged_mono hy _
    · rw [hreceiving]
      exact hi.waits place
    · rw [List.append_assoc, hwanted]
      exact hi.sent place
  · -- the letter comes from a machine that has sent it, which tells its kind by its mailbox
    have hcarried : x ∈ carried place b (h ++ s.net.seen machines numBoxes ⟨place, act⟩) := by
      apply carried_of_received hr
      rw [hseen, List.filterMap_append, seenAt_place, List.filterMap_append]
      exact List.mem_append_right _ hmem
    obtain ⟨hbox, c, hnew⟩ := requested_of_carried hcarried
    have hc := hnew
    have hsent : (place, x) ∈ requests (h.filterMap (seenAt c)) ++ wanted (s.net.node c) := by
      by_cases hplace : c = place
      · subst hplace
        rw [hhere] at hc
        rw [← hwanted, ← List.append_assoc]
        exact List.mem_append_left _ hc
      · rw [(hthere c hplace).2] at hc
        exact List.mem_append_left _ hc
    obtain ⟨hmachine, hkind⟩ := hi.sender hsent
    have hwaits := hi.waits place
    rw [hb] at hwaits
    have hkeep (y : Letter) (hy : (s.pc place).greetingOf = some y) :
        ((s.pc place).got x).greetingOf = some y := Pc.got_greetingOf hy
    rw [hx]
    refine hi.update hvalid hs hstep ?_ ?_ hkeep ?_ ?_
    · rw [hn]
      cases s.pc place <;> rfl
    · rw [List.append_assoc, hwanted, hi.sent place]
      exact Pc.got_sent.symm
    · intro y hy
      cases hpc : s.pc place with
      | receive =>
        rw [hpc] at hwaits hy
        cases hwaits
        cases hy
        rcases hkind with ⟨hfar, rfl⟩ | ⟨-, -, rfl⟩
        · exact ⟨c, hmachine, hfar.symm, rfl, hnew⟩
        · cases hbox
      | receiveAck z => exact hi.greeted_mono (by rwa [hpc] at hy ⊢) _
      | _ =>
        rw [hpc] at hwaits
        cases hwaits
    · intro y hy
      cases hpc : s.pc place with
      | receiveAck z =>
        rw [hpc] at hwaits hy
        cases hwaits
        cases hy
        rcases hkind with ⟨-, rfl⟩ | ⟨hfar, hgreeting, rfl⟩
        · cases hbox
        · rw [hfar]
          exact ⟨hgreeting, rfl, hnew⟩
      | receive =>
        rw [hpc] at hy
        cases hy
      | _ =>
        rw [hpc] at hwaits
        cases hwaits

theorem inv_call {outPktHdr : PacketHeader} {mem : Mem} {pc' : Pc}
    (hfar : ∀ a ∈ machines, farAddr a ∈ machines) (hboxes : 2 ≤ numBoxes)
    (hi : Inv machines numBoxes farAddr s h)
    (hcall : (s.pc place).call (farAddr place) outPktHdr mem = some (act, pc'))
    (hs : s.net.step machines numBoxes ⟨place, act⟩ = some net) :
    Inv machines numBoxes farAddr ⟨net, Function.update s.pc place pc'⟩
      (h ++ s.net.seen machines numBoxes ⟨place, act⟩) := by
  have hplace : place ∈ machines := (Option.ite_none_right_eq_some.mp hs).1
  have hbox0 : IsBox numBoxes 0 := ⟨le_rfl, by omega⟩
  have hbox1 : IsBox numBoxes 1 := ⟨by omega, by omega⟩
  cases hpc : s.pc place with
  | greet =>
    rw [hpc] at hcall
    cases hcall
    refine inv_send hi (by decide) hbox0 (hfar place hplace) hs ?_ ?_ ?_ ?_ <;> rw [hpc] <;> rfl
  | greeted =>
    rw [hpc] at hcall
    cases hcall
    refine inv_receive hi hbox0 hs rfl ?_ ?_ ?_ <;> rw [hpc] <;> rfl
  | acknowledge x =>
    rw [hpc] at hcall
    cases hcall
    obtain ⟨c, hc, -, rfl, -⟩ := hi.greeted place x (by rw [hpc]; rfl)
    have hlen : (8 : BitVec 32).toNat ≤ maxMailSize := by decide
    refine inv_send hi hlen hbox1 hc hs ?_ ?_ ?_ ?_ <;> rw [hpc] <;> rfl
  | acknowledged x =>
    rw [hpc] at hcall
    cases hcall
    refine inv_receive hi hbox1 hs rfl ?_ ?_ ?_ <;> rw [hpc] <;> rfl
  | receive | receiveAck | halt | halted =>
    rw [hpc] at hcall
    cases hcall

/-- `Halt` ends the program only. -/
theorem inv_halt {x y : Letter} (hi : Inv machines numBoxes farAddr s h)
    (hpc : s.pc place = .halt x y) :
    Inv machines numBoxes farAddr { s with pc := Function.update s.pc place (.halted x y) } h := by
  have hsame (a : NetworkAddress) :
      (Function.update s.pc place (.halted x y) a).waitsAt = (s.pc a).waitsAt ∧
      (Function.update s.pc place (.halted x y) a).sent (farAddr a) a =
        (s.pc a).sent (farAddr a) a ∧
      (Function.update s.pc place (.halted x y) a).greetingOf = (s.pc a).greetingOf ∧
      (Function.update s.pc place (.halted x y) a).ackOf = (s.pc a).ackOf := by
    by_cases ha : a = place
    · subst ha
      rw [Function.update_self, hpc]
      exact ⟨rfl, rfl, rfl, rfl⟩
    · rw [Function.update_of_ne ha]
      exact ⟨rfl, rfl, rfl, rfl⟩
  refine ⟨hi.net, fun a ha => ?_, fun a => ?_, fun a => ?_, fun a z hz => ?_, fun a z hz => ?_⟩
  · have hne : a ≠ place := by
      rintro rfl
      have hidle := hi.idle a ha
      rw [hpc] at hidle
      cases hidle
    simp only [Function.update_of_ne hne]
    exact hi.idle a ha
  · exact (hi.waits a).trans (hsame a).1.symm
  · exact (hi.sent a).trans (hsame a).2.1.symm
  · exact hi.greeted a z ((hsame a).2.2.1.symm.trans hz)
  · obtain ⟨hgreeting, hack⟩ := hi.acknowledged a z ((hsame a).2.2.2.symm.trans hz)
    exact ⟨(hsame (farAddr a)).2.2.1.trans hgreeting, hack⟩

end Coursework.Nachos.PostOffice.MailTest
