import Coursework.Nachos.PostOffice.Worker

/-!
# From one machine to another

Each machine is on a run of its own, in which only legal packets come in, because every machine
sends only legal packets. The sockets join what one machine sends to what another reads.
-/
namespace Coursework.Nachos.PostOffice
open Monitor (Moved)

variable {Tid Addr : Type} [DecidableEq Tid] [DecidableEq Addr]

/-- What is seen of machine `a`. -/
def seenAt (a : NetworkAddress) (x : NetworkAddress × Seen Tid) : Option (Seen Tid) :=
  if x.1 = a then some x.2 else none

/-- A mail that `Network::Send` is given for machine `a`. -/
def Seen.mailedTo (a : NetworkAddress) : Seen Tid → Option Letter
  | .sender (.requested _ _ q _) => if q.pktHdr.toAddr = a then some q.letter else none
  | _ => none

/-- A mail for machine `a` that the network does not lose. -/
def Seen.carriedTo (a : NetworkAddress) : Seen Tid → Option Letter
  | .sender (.requested _ _ q (some _)) => if q.pktHdr.toAddr = a then some q.letter else none
  | _ => none

/-- The mails sent to mailbox `b` of machine `a`. -/
def mailed (a : NetworkAddress) (b : ℤ) (h : List (NetworkAddress × Seen Tid)) : List Letter :=
  (h.filterMap fun x => x.2.mailedTo a).filter (·.box = b)

/-- Those of them that the network does not lose. -/
def carried (a : NetworkAddress) (b : ℤ) (h : List (NetworkAddress × Seen Tid)) : List Letter :=
  (h.filterMap fun x => x.2.carriedTo a).filter (·.box = b)

/-- The letters taken out of mailbox `b`. -/
def takes (b : ℤ) (h : List (Seen Tid)) : List Letter :=
  ((h.filterMap (Seen.boxOf b)).filterMap Moved.tookOf).map Mail.letter

/-- Those that thread `t` has taken. -/
def takesBy (t : Tid) (b : ℤ) (h : List (Seen Tid)) : List Letter :=
  ((h.filterMap (Seen.boxOf b)).filterMap (Moved.tookBy (some t))).map Mail.letter

variable {machines : List NetworkAddress} {numBoxes : ℤ} {ident : NetworkAddress}
  {n n' : Node Tid Addr} {a : NetworkAddress} {b : ℤ} {e : Option Mem × Act Tid Addr}
  {l : List (Seen Tid)}

section
omit [DecidableEq Tid]

theorem seenAt_place (a : NetworkAddress) (l : List (Seen Tid)) :
    (l.map fun x => (a, x)).filterMap (seenAt a) = l := by
  apply filterMap_map_of_some
  intro x
  exact if_pos rfl

theorem seenAt_elsewhere {a a' : NetworkAddress} (ha : a' ≠ a) (l : List (Seen Tid)) :
    (l.map fun x => (a', x)).filterMap (seenAt a) = [] := by
  apply filterMap_map_of_none
  intro x
  exact if_neg ha

theorem carried_sublist (h : List (NetworkAddress × Seen Tid)) :
    (carried a b h).Sublist (mailed a b h) := by
  apply List.Sublist.filter
  apply filterMap_sublist_of_imp
  rintro ⟨a', x⟩ y hy
  cases x with
  | sender x =>
    cases x with
    | requested t k q r =>
      cases r with
      | none => cases hy
      | some packet => exact hy
    | _ => cases hy
  | _ => cases hy

end

namespace Node

theorem serves (machines : List NetworkAddress) (numBoxes : ℤ) (ident : NetworkAddress) :
    Driver.Serves (device machines ident) (Outgoing.Valid machines numBoxes ident)
      (· = false) where
  request sendBusy q env hready hq := by
    have hsome := isSome_send hq env.1 env.2
    subst hready
    rw [device, Option.isSome_map]
    exact hsome
  finish _ := rfl

/-- What comes in is a packet that the socket had. -/
theorem readOf_of_acts (hs : Acts machines numBoxes ident n e l n') :
    l.filterMap Seen.readOf = [] ∨ l.filterMap Seen.readOf = e.1.toList := by
  cases hs with
  | sender => exact .inl (view_sender fun _ => rfl)
  | receive | remove | deliver | append | appended => exact .inl (view_movedIn fun _ => rfl)
  | get | getFail =>
    left
    rw [List.filterMap_append, view_movedIn fun _ => rfl]
    rfl
  | poll =>
    right
    apply filterMap_map_of_some
    intro packet
    rfl
  | _ => exact .inl rfl

/-- What goes out is a legal packet with the letter of the call. -/
theorem sentTo_of_acts (hv : ∀ t, ∀ q ∈ (n.sender.pc t).wants,
      Outgoing.Valid machines numBoxes ident q)
    (hs : Acts machines numBoxes ident n e l n') (a : NetworkAddress) :
    (∀ packet ∈ l.filterMap (Seen.sentTo a), LegalPacket numBoxes a packet) ∧
      (l.filterMap (Seen.sentTo a)).map packetLetter = l.filterMap (Seen.carriedTo a) := by
  cases hs with
  | @sender packet act e S hcall hS =>
    have hsteps := Driver.State.steps_of_step hS
    revert hsteps
    generalize n.sender.seen (device machines ident) e = l
    intro hsteps
    cases hsteps with
    | @request t env q d r hpc hreq =>
      have hq := hv t q (by rw [hpc]; rfl)
      obtain ⟨r', hsend, hr⟩ := Option.map_eq_some_iff.mp hreq
      obtain ⟨-, rfl⟩ := Prod.mk.inj hr
      cases r' with
      | none => simp [Seen.sentTo, Seen.carriedTo]
      | some packet =>
        obtain ⟨hlegal, hletter⟩ := legalPacket_of_send hq hsend
        by_cases ha : q.pktHdr.toAddr = a
        · subst ha
          simp [Seen.sentTo, Seen.carriedTo, hlegal, hletter]
        · simp [Seen.sentTo, Seen.carriedTo, ha]
    | _ => exact ⟨by rintro packet ⟨⟩, rfl⟩
  | receive | remove | deliver | append | appended =>
    rw [view_movedIn fun _ => rfl, view_movedIn fun _ => rfl]
    simp
  | get | getFail =>
    rw [List.filterMap_append, List.filterMap_append, view_movedIn fun _ => rfl,
      view_movedIn fun _ => rfl]
    exact ⟨by rintro packet ⟨⟩, rfl⟩
  | poll =>
    rw [filterMap_map_of_none fun _ => rfl, filterMap_map_of_none fun _ => rfl]
    simp
  | _ => simp

/-- No assertion has failed. -/
structure Fine (n : Node Tid Addr) : Prop where
  running : n.aborted = false
  sending : ∀ t, n.sender.pc t ≠ .assertFailed
  boxes : ∀ b t, ((n.boxes b).thread t).pc.loc ≠ .assertFailed ∧
    ((n.boxes b).thread t).pc.loc ≠ .crashed

end Node

namespace Net
variable {s s' : Net Tid Addr} {x : Event Tid Addr} {h : List (NetworkAddress × Seen Tid)}

/-- One machine takes a step; it reads from its own socket and writes to any. -/
theorem act_of_step (hs : s.step machines numBoxes x = some s') : ∃ n l,
    (s.node x.place).act machines numBoxes x.place ((s.socket x.place).head?, x.act) =
        some (n, l) ∧
      s'.node = Function.update s.node x.place n ∧
      (∀ a, s'.socket a = (if a = x.place then
        (s.socket a).drop (l.filterMap Seen.readOf).length else s.socket a) ++
          l.filterMap (Seen.sentTo a)) ∧
      s.seen machines numBoxes x = l.map fun y => (x.place, y) := by
  obtain ⟨-, hs⟩ := Option.ite_none_right_eq_some.mp hs
  obtain ⟨⟨n, l⟩, hact, rfl⟩ := Option.map_eq_some_iff.mp hs
  refine ⟨n, l, hact, rfl, fun _ => rfl, ?_⟩
  rw [seen, Node.seen, hact]
  rfl

structure Inv (machines : List NetworkAddress) (numBoxes : ℤ) (s : Net Tid Addr)
    (h : List (NetworkAddress × Seen Tid)) : Prop where
  node : ∀ a, ((Node.machine machines numBoxes a).observe
    (Node.seen machines numBoxes a)).Reach (Node.EventOk machines numBoxes a)
      (s.node a, h.filterMap (seenAt a))
  socket : ∀ a, (h.filterMap (seenAt a)).filterMap Seen.readOf ++ s.socket a =
    h.filterMap fun x => x.2.sentTo a
  legal : ∀ a, ∀ packet ∈ s.socket a, LegalPacket numBoxes a packet
  letters : ∀ a, (h.filterMap fun x => x.2.sentTo a).map packetLetter =
    h.filterMap fun x => x.2.carriedTo a

theorem inv_step [Fintype Tid] (hi : Inv machines numBoxes s h)
    (hok : x.act.Valid machines numBoxes) (hs : s.step machines numBoxes x = some s') :
    Inv machines numBoxes s' (h ++ s.seen machines numBoxes x) := by
  obtain ⟨n, l, hact, hnode, hsocket, hseen⟩ := act_of_step hs
  have hacts := Node.acts_of_act hact
  have hhead (packet : Mem) (hp : packet ∈ (s.socket x.place).head?) :
      LegalPacket numBoxes x.place packet :=
    hi.legal x.place packet (List.mem_of_mem_head? hp)
  have hsender := Driver.inv_reach (Node.serves machines numBoxes x.place) (fun _ hd => hd)
    (fun _ _ he => he) (Node.sender_reach (hi.node x.place))
  have hsent := Node.sentTo_of_acts hsender.valid hacts
  have hview {β : Type} (v : Seen Tid → Option β) :
      (l.map fun y => (x.place, y)).filterMap (fun y => v y.2) = l.filterMap v := by
    rw [List.filterMap_map]
    rfl
  rw [hseen]
  constructor
  · intro a
    rw [List.filterMap_append]
    apply (hi.node a).follows
    by_cases ha : a = x.place
    · subst ha
      have hl : l = (s.node x.place).seen machines numBoxes x.place
          ((s.socket x.place).head?, x.act) := by
        rw [Node.seen, hact]
        rfl
      rw [seenAt_place, hnode, Function.update_self, hl]
      refine .step ⟨hok, hhead⟩ ?_
      change ((s.node x.place).act _ _ _ _).map _ = _
      rw [hact]
      rfl
    · rw [seenAt_elsewhere (Ne.symm ha), hnode, Function.update_of_ne ha]
      exact .idle
  · intro a
    rw [List.filterMap_append, List.filterMap_append, List.filterMap_append, hview, hsocket,
      ← hi.socket a]
    by_cases ha : a = x.place
    · subst ha
      rw [seenAt_place, if_pos rfl]
      have hread : l.filterMap Seen.readOf ++
          (s.socket x.place).drop (l.filterMap Seen.readOf).length = s.socket x.place := by
        rcases Node.readOf_of_acts hacts with hnil | hsome
        · rw [hnil]
          rfl
        · rw [hsome]
          cases s.socket x.place with
          | nil => rfl
          | cons packet rest => rfl
      rw [List.append_assoc, ← List.append_assoc (l.filterMap Seen.readOf), hread,
        List.append_assoc]
    · rw [seenAt_elsewhere (Ne.symm ha), if_neg ha, List.filterMap_nil, List.append_nil,
        List.append_assoc]
  · intro a packet hp
    rw [hsocket, List.mem_append] at hp
    rcases hp with hp | hp
    · apply hi.legal a
      by_cases ha : a = x.place
      · rw [if_pos ha] at hp
        exact List.mem_of_mem_drop hp
      · rwa [if_neg ha] at hp
    · exact (hsent a).1 packet hp
  · intro a
    rw [List.filterMap_append, List.filterMap_append, List.map_append, hi.letters, hview, hview,
      (hsent a).2]

theorem inv_reach [Fintype Tid] {p : Net Tid Addr × List (NetworkAddress × Seen Tid)}
    (hr : ((machine machines numBoxes).observe (seen machines numBoxes)).Reach
      (fun _ x => x.act.Valid machines numBoxes) p) : Inv machines numBoxes p.1 p.2 := by
  apply hr.invariant (fun p => Inv machines numBoxes p.1 p.2)
  · rintro ⟨s, l⟩ ⟨⟨hnode, hsocket⟩, rfl⟩
    refine ⟨fun a => .init ⟨hnode a, rfl⟩, ?_, ?_, fun _ => rfl⟩
    · intro a
      rw [hsocket]
      rfl
    · intro a packet hp
      rw [hsocket] at hp
      cases hp
  · intro p x p' _ hi hok hs
    obtain ⟨hstep, hseen⟩ := Machine.observe_step.mp hs
    rw [hseen]
    exact inv_step hi hok hstep

end Net

variable [Fintype Tid] {p : Net Tid Addr × List (NetworkAddress × Seen Tid)}

namespace Node
variable {h : List (Seen Tid)}

theorem fine_of_reach
    (hr : ((machine machines numBoxes ident).observe (seen machines numBoxes ident)).Reach
      (EventOk machines numBoxes ident) (n, h)) : n.Fine where
  running := (inv_reach hr).running
  sending := (Driver.inv_reach (serves machines numBoxes ident) (fun _ hd => hd)
    (fun _ _ he => he) (sender_reach hr)).fine
  boxes b t := by
    have hfine := (Monitor.fifo SynchList.queueClient (fun _ => SynchList.Contents.nil)
      SynchList.Loc.fine_start (box_reach hr b)).1 t
    constructor
    · intro heq
      rw [heq] at hfine
      exact hfine
    · intro heq
      rw [heq] at hfine
      exact hfine

omit [Fintype Tid] in
/-- What was taken out of a mailbox and what is in it was put there. -/
theorem takes_append
    (hr : ((machine machines numBoxes ident).observe (seen machines numBoxes ident)).Reach
      (EventOk machines numBoxes ident) (n, h)) (b : ℤ) :
    ∃ xs, SynchList.Contents (n.boxes b).data xs ∧
      takes b h ++ xs.map Mail.letter = puts b h := by
  obtain ⟨-, xs, hxs, heq⟩ := Monitor.fifo SynchList.queueClient
    (fun _ => SynchList.Contents.nil) SynchList.Loc.fine_start (box_reach hr b)
  refine ⟨xs, hxs, ?_⟩
  rw [takes, puts, ← heq, List.map_append]

omit [Fintype Tid] in
/-- A thread gets the letters that it takes. -/
theorem takesBy_eq
    (hr : ((machine machines numBoxes ident).observe (seen machines numBoxes ident)).Reach
      (EventOk machines numBoxes ident) (n, h)) (t : Tid) (b : ℤ) :
    takesBy t b h = h.filterMap (Seen.receivedOf t b) ++
      (((n.boxes b).thread (some t)).inHand SynchList.Loc.ret).map Mail.letter := by
  have hgot : Monitor.Delivered _ _ _ _ := Monitor.delivered (box_reach hr b) (some t)
  rw [Monitor.Delivered] at hgot
  rw [(inv_reach hr).carried.received, takesBy, hgot, List.map_append]
  rfl

end Node

omit [Fintype Tid] in
theorem takesBy_sublist (t : Tid) (b : ℤ) (h : List (Seen Tid)) :
    (takesBy t b h).Sublist (takes b h) := by
  apply List.Sublist.map
  apply filterMap_sublist_of_imp
  intro x mail hx
  cases x with
  | took u y =>
    obtain ⟨-, hy⟩ := Option.ite_none_right_eq_some.mp hx
    exact hy
  | _ => cases hx

/-- The letters taken out of a mailbox are, in order, some of those sent to it. What is missing was
lost by the network or is still on its way: in the mailbox, with the postal worker, in `inbox` or
in the socket. Each thread gets the letters that it takes, the counter is in step with `inbox`, and
no assertion fails. -/
theorem mail_in_order
    (hr : ((Net.machine machines numBoxes).observe (Net.seen machines numBoxes)).Reach
      (fun _ x => x.act.Valid machines numBoxes) p) (a : NetworkAddress) :
    (p.1.node a).Fine ∧
    (p.1.node a).messageAvailable.value + (p.1.node a).worker.took =
      (if (p.1.node a).network.inHdr.length = 0 then 0 else 1) ∧
    ∀ b, (takes b (p.2.filterMap (seenAt a))).Sublist (mailed a b p.2) ∧
      (∃ xs, SynchList.Contents ((p.1.node a).boxes b).data xs ∧
        takes b (p.2.filterMap (seenAt a)) ++ xs.map Mail.letter ++ (p.1.node a).linking b ++
          ((p.1.node a).held ++ (p.1.socket a).map packetLetter).filter (·.box = b) =
            carried a b p.2) ∧
      ∀ t, takesBy t b (p.2.filterMap (seenAt a)) =
          (p.2.filterMap (seenAt a)).filterMap (Seen.receivedOf t b) ++
            ((((p.1.node a).boxes b).thread (some t)).inHand SynchList.Loc.ret).map Mail.letter ∧
        (takesBy t b (p.2.filterMap (seenAt a))).Sublist (mailed a b p.2) := by
  have hi := Net.inv_reach hr
  have hnode := Node.inv_reach (hi.node a)
  refine ⟨Node.fine_of_reach (hi.node a), hnode.counted.count, ?_⟩
  intro b
  obtain ⟨xs, hxs, htakes⟩ := Node.takes_append (hi.node a) b
  have hflow : puts b (p.2.filterMap (seenAt a)) ++ (p.1.node a).linking b ++
      ((p.1.node a).held ++ (p.1.socket a).map packetLetter).filter (·.box = b) =
        carried a b p.2 := by
    rw [List.filter_append, ← List.append_assoc, hnode.carried.flow b, reads,
      ← List.filter_append, ← List.map_append, hi.socket a, hi.letters a]
    rfl
  rw [← htakes] at hflow
  have hsub : (takes b (p.2.filterMap (seenAt a))).Sublist (mailed a b p.2) := by
    apply List.Sublist.trans ?_ (carried_sublist p.2)
    rw [← hflow, List.append_assoc, List.append_assoc]
    exact List.sublist_append_left _ _
  refine ⟨hsub, ⟨xs, hxs, hflow⟩, fun t => ⟨Node.takesBy_eq (hi.node a) t b, ?_⟩⟩
  exact (takesBy_sublist t b _).trans hsub

/-- Machines that have just been started. -/
def opened : Net (Fin 2) ℕ where
  node _ := {
    sender := ⟨⟨⟨1, []⟩, none⟩, ⟨0, []⟩, false, [], 0, fun _ => .outside none⟩
    network := ⟨⟨0, 0, 0⟩, fun _ => 0⟩
    messageAvailable := ⟨0, []⟩
    worker := .waitP
    buffer := fun _ => 0
    boxes := fun _ => Monitor.startState none ⟨fun _ => none, none, none⟩ (.outside none)
    receiving := fun _ => none
    aborted := false }
  socket _ := []

/-- Machine 0 sends two characters to mailbox 3 of machine 1. -/
def sendTwo (c : UInt8) (lost : Bool) (k : ℕ) : List (Event (Fin 2) ℕ) :=
  [⟨0, .send t0 ⟨1, 0, 0⟩ ⟨3, 7, 2⟩ (fun _ => c) fun _ => 0⟩, ⟨0, .run t0 false fun _ => 0⟩,
    ⟨0, .run t0 false fun _ => 0⟩, ⟨0, .run t0 lost fun _ => 0⟩, ⟨0, .sendDone k⟩,
    ⟨0, .run t0 false fun _ => 0⟩, ⟨0, .run t0 false fun _ => 0⟩, ⟨0, .run t0 false fun _ => 0⟩]

/-- Machine 1 gets a packet, its postal worker puts it into the mailbox and a thread takes it. -/
def receiveOne : List (Event (Fin 2) ℕ) :=
  ⟨1, .checkPktAvail fun _ => 0⟩ :: List.replicate 4 ⟨1, .work none fun _ => 0⟩ ++
    ⟨1, .work (some 5) fun _ => 0⟩ :: List.replicate 5 ⟨1, .work none fun _ => 0⟩ ++
    ⟨1, .receive t0 3⟩ :: List.replicate 4 ⟨1, .run t0 false fun _ => 0⟩

/-- The first of two mails is lost, the second one is received. -/
def lostAndFound : List (Event (Fin 2) ℕ) := sendTwo 97 true 0 ++ sendTwo 98 false 1 ++ receiveOne

theorem mail_in_order_lost_and_found :
    ∃ p, ((Net.machine [0, 1] 10).observe (Net.seen [0, 1] 10)).run (opened, []) lostAndFound =
        some p ∧
      mailed 1 3 p.2 = [⟨0, ⟨3, 7, 2⟩, [97, 97]⟩, ⟨0, ⟨3, 7, 2⟩, [98, 98]⟩] ∧
      takes 3 (p.2.filterMap (seenAt 1)) = [⟨0, ⟨3, 7, 2⟩, [98, 98]⟩] ∧
      (takes 3 (p.2.filterMap (seenAt 1))).Sublist (mailed 1 3 p.2) := by
  have h0 : ((Net.machine [0, 1] 10).observe (Net.seen [0, 1] 10)).init (opened, []) :=
    ⟨⟨fun _ => ⟨⟨rfl, rfl, rfl, rfl, fun _ => rfl⟩, rfl, rfl, rfl,
      fun _ => Monitor.start_startState ⟨rfl, rfl⟩, fun _ => rfl, rfl⟩, fun _ => rfl⟩, rfl⟩
  have hend : (((Net.machine [0, 1] 10).observe (Net.seen [0, 1] 10)).run (opened, [])
      lostAndFound).map (fun p => (mailed 1 3 p.2, takes 3 (p.2.filterMap (seenAt 1)))) =
      some ([⟨0, ⟨3, 7, 2⟩, [97, 97]⟩, ⟨0, ⟨3, 7, 2⟩, [98, 98]⟩],
        [⟨0, ⟨3, 7, 2⟩, [98, 98]⟩]) := by
    decide +kernel
  obtain ⟨p, hp, hseen⟩ := Option.map_eq_some_iff.mp hend
  obtain ⟨hmailed, htakes⟩ := Prod.mk.inj hseen
  have hr : ((Net.machine [0, 1] 10).observe (Net.seen [0, 1] 10)).Reach
      (fun _ x => x.act.Valid [0, 1] 10) p :=
    Machine.Reach.run (.init h0) (show Machine.Meets _ _ _ lostAndFound by decide +kernel) hp
  exact ⟨p, hp, hmailed, htakes, ((mail_in_order hr 1).2.2 3).1⟩

end Coursework.Nachos.PostOffice
