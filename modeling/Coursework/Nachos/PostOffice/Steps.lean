import Coursework.Nachos.PostOffice.Letters

/-!
# The steps of a machine, and its parts

Every event moves the sending side, one mailbox or the network. The sending side is a driver on a
run of its own, and so is each mailbox as a synchronized list.
-/
namespace Coursework.Nachos.PostOffice
open Monitor (Moved)

variable {Tid Addr : Type} [DecidableEq Tid] [DecidableEq Addr]

namespace Seen

def senderOf : Seen Tid → Option (Driver.Seen Tid Outgoing (Option Mem))
  | .sender x => some x
  | _ => none

def boxOf (b : ℤ) : Seen Tid → Option (Moved (Option Tid) Mail)
  | .box b' x => if b' = b then some x else none
  | _ => none

/-- The letter that thread `t` gets from mailbox `b`. -/
def receivedOf (t : Tid) (b : ℤ) : Seen Tid → Option Letter
  | .received u b' mail => if u = t ∧ b' = b then some mail.letter else none
  | _ => none

end Seen

namespace Node

/-- What is seen of a step in a mailbox. -/
def movedIn (n : Node Tid Addr) (b : ℤ)
    (e : Monitor.Event (Option Tid) (SynchList.Input Addr Mail)) : List (Seen Tid) :=
  ((n.boxes b).moved SynchList.code SynchList.Loc.puts SynchList.Loc.ret e).map (.box b)

/-- The threads in mailboxes, and which one each is in. -/
def inBox (n : Node Tid Addr) : Option Tid → Option ℤ
  | some t => n.receiving t
  | none =>
    match n.worker with
    | .putting b => some b
    | _ => none

/-- What one event does and what is seen of it, one case for each statement and outcome. -/
inductive Acts (machines : List NetworkAddress) (numBoxes : ℤ) (ident : NetworkAddress)
    (n : Node Tid Addr) : Option Mem × Act Tid Addr → List (Seen Tid) → Node Tid Addr → Prop where
  | sender {packet a e S}
      (hcall : ∀ t q, e = .call t q → ∃ pktHdr mailHdr data mem,
        a = .send t pktHdr mailHdr data mem ∧
          PostOffice.send numBoxes ident pktHdr mailHdr data mem = some q)
      (hs : n.sender.step (device machines ident) e = some S) :
      Acts machines numBoxes ident n (packet, a)
        ((n.sender.seen (device machines ident) e).map .sender) { n with sender := S }
  | sendFail {packet t pktHdr mailHdr data mem}
      (hq : PostOffice.send numBoxes ident pktHdr mailHdr data mem = none) :
      Acts machines numBoxes ident n (packet, .send t pktHdr mailHdr data mem) [] n.abort
  | receiveFail {packet t b} (hb : ¬ IsBox numBoxes b) :
      Acts machines numBoxes ident n (packet, .receive t b) [] n.abort
  | receive {packet t b m} (ht : n.receiving t = none)
      (hm : (n.boxes b).step SynchList.code ⟨some t, .remove⟩ = some m) :
      Acts machines numBoxes ident n (packet, .receive t b) (n.movedIn b ⟨some t, .remove⟩)
        ({ n with receiving := Function.update n.receiving t (some b) }.setBox b m)
  | remove {packet t b m lost mem} (ht : n.receiving t = some b)
      (hm : (n.boxes b).step SynchList.code ⟨some t, .go⟩ = some m)
      (hr : ∀ mail, n.returns b (some t) ≠ some (.outside (some mail))) :
      Acts machines numBoxes ident n (packet, .run t lost mem) (n.movedIn b ⟨some t, .go⟩)
        (n.setBox b m)
  | get {packet t b m lost mem mail} (ht : n.receiving t = some b)
      (hm : (n.boxes b).step SynchList.code ⟨some t, .go⟩ = some m)
      (hr : n.returns b (some t) = some (.outside (some mail)))
      (hlen : mail.mailHdr.length.toNat ≤ maxMailSize) :
      Acts machines numBoxes ident n (packet, .run t lost mem)
        (n.movedIn b ⟨some t, .go⟩ ++ [.received t b
          { mail with data := mem.copy 0 mail.mailHdr.length.toNat mail.data }])
        { n.setBox b m with receiving := Function.update n.receiving t none }
  | getFail {packet t b m lost mem mail} (ht : n.receiving t = some b)
      (hm : (n.boxes b).step SynchList.code ⟨some t, .go⟩ = some m)
      (hr : n.returns b (some t) = some (.outside (some mail)))
      (hlen : ¬ mail.mailHdr.length.toNat ≤ maxMailSize) :
      Acts machines numBoxes ident n (packet, .run t lost mem) (n.movedIn b ⟨some t, .go⟩ ++ [])
        (n.setBox b m).abort
  | awaitSleep {packet addr mem} (hw : n.worker = .waitP) (hv : n.messageAvailable.value = 0) :
      Acts machines numBoxes ident n (packet, .work addr mem) [] { n with
        messageAvailable := ⟨0, n.messageAvailable.queue ++ [none]⟩
        worker := .waitP }
  | awaitPass {packet addr mem} (hw : n.worker = .waitP) (hv : n.messageAvailable.value ≠ 0) :
      Acts machines numBoxes ident n (packet, .work addr mem) [] { n with
        messageAvailable := { n.messageAvailable with value := n.messageAvailable.value - 1 }
        worker := .receive }
  | deliverFail {packet addr mem} (hw : n.worker = .receive)
      (hsort : sort numBoxes n.network.inHdr (n.network.receive n.buffer).2.1 mem = none) :
      Acts machines numBoxes ident n (packet, .work addr mem) [] n.abort
  | deliver {packet addr mem b mail m} (hw : n.worker = .receive)
      (hsort : sort numBoxes n.network.inHdr (n.network.receive n.buffer).2.1 mem = some (b, mail))
      (hm : (n.boxes b).step SynchList.code ⟨none, .append mail⟩ = some m) :
      Acts machines numBoxes ident n (packet, .work addr mem) (n.movedIn b ⟨none, .append mail⟩)
        ({ n with
          network := (n.network.receive n.buffer).2.2
          buffer := (n.network.receive n.buffer).2.1
          worker := .putting b }.setBox b m)
  | append {packet addr mem b m} (hw : n.worker = .putting b)
      (hm : (n.boxes b).step SynchList.code ⟨none, addr.elim .go .new⟩ = some m)
      (hr : ∀ r, n.returns b none ≠ some (.outside r)) :
      Acts machines numBoxes ident n (packet, .work addr mem)
        (n.movedIn b ⟨none, addr.elim .go .new⟩) (n.setBox b m)
  | appended {packet addr mem b m r} (hw : n.worker = .putting b)
      (hm : (n.boxes b).step SynchList.code ⟨none, addr.elim .go .new⟩ = some m)
      (hr : n.returns b none = some (.outside r)) :
      Acts machines numBoxes ident n (packet, .work addr mem)
        (n.movedIn b ⟨none, addr.elim .go .new⟩) { n.setBox b m with worker := .waitP }
  | pollFail {packet mem} (hp : n.network.checkPktAvail ident packet mem = none) :
      Acts machines numBoxes ident n (packet, .checkPktAvail mem) [] n.abort
  | pollNothing {packet mem network}
      (hp : n.network.checkPktAvail ident packet mem = some (network, false)) :
      Acts machines numBoxes ident n (packet, .checkPktAvail mem) [] { n with network := network }
  | poll {packet mem network}
      (hp : n.network.checkPktAvail ident packet mem = some (network, true)) :
      Acts machines numBoxes ident n (packet, .checkPktAvail mem) (packet.toList.map .read)
        { n with
          network := network
          messageAvailable := n.messageAvailable.V }

variable {machines : List NetworkAddress} {numBoxes : ℤ} {ident : NetworkAddress}
  {n n' : Node Tid Addr} {e : Option Mem × Act Tid Addr} {l : List (Seen Tid)} {b : ℤ}

theorem acts_of_moveSender {packet : Option Mem} {a : Act Tid Addr}
    {e : Driver.Event Tid Outgoing (Bool × Mem)}
    (hcall : ∀ t q, e = .call t q → ∃ pktHdr mailHdr data mem,
      a = .send t pktHdr mailHdr data mem ∧
        PostOffice.send numBoxes ident pktHdr mailHdr data mem = some q)
    (h : n.moveSender machines ident e = some (n', l)) :
    Acts machines numBoxes ident n (packet, a) l n' := by
  obtain ⟨S, hS, h⟩ := Option.map_eq_some_iff.mp h
  cases h
  exact .sender hcall hS

theorem acts_of_act (h : n.act machines numBoxes ident e = some (n', l)) :
    Acts machines numBoxes ident n e l n' := by
  rcases e with ⟨packet, a⟩
  obtain ⟨-, h⟩ := Option.ite_none_left_eq_some.mp h
  cases a with
  | send t pktHdr mailHdr data mem =>
    obtain ⟨-, h⟩ := Option.ite_none_right_eq_some.mp h
    cases hq : PostOffice.send numBoxes ident pktHdr mailHdr data mem with
    | none =>
      rw [hq] at h
      cases h
      exact .sendFail hq
    | some q =>
      rw [hq] at h
      apply acts_of_moveSender ?_ h
      rintro t' q' ⟨⟩
      exact ⟨pktHdr, mailHdr, data, mem, rfl, hq⟩
  | receive t b =>
    obtain ⟨hidle, h⟩ := Option.ite_none_right_eq_some.mp h
    have ht : n.receiving t = none := Option.isNone_iff_eq_none.mp (Bool.and_eq_true_iff.mp hidle).1
    by_cases hb : IsBox numBoxes b
    · rw [if_pos hb] at h
      obtain ⟨m, hm, h⟩ := Option.map_eq_some_iff.mp h
      cases h
      exact .receive ht hm
    · rw [if_neg hb] at h
      cases h
      exact .receiveFail hb
  | run t lost mem =>
    cases ht : n.receiving t with
    | none =>
      simp only [ht] at h
      apply acts_of_moveSender ?_ h
      rintro t' q' ⟨⟩
    | some b =>
      simp only [ht, Option.map_eq_some_iff] at h
      obtain ⟨⟨n₁, l₁⟩, hmove, h⟩ := h
      obtain ⟨m, hm, hmove⟩ := Option.map_eq_some_iff.mp hmove
      cases hmove
      split at h
      case h_1 mail hr =>
        by_cases hlen : mail.mailHdr.length.toNat ≤ maxMailSize
        · simp only [get, if_pos hlen] at h
          cases h
          exact .get ht hm hr hlen
        · simp only [get, if_neg hlen] at h
          cases h
          exact .getFail ht hm hr hlen
      case h_2 hr =>
        cases h
        exact .remove ht hm hr
  | work addr mem =>
    cases hw : n.worker with
    | waitP =>
      simp only [hw, await, Option.map_eq_some_iff, Option.ite_none_left_eq_some] at h
      obtain ⟨n₁, ⟨-, hn₁⟩, h⟩ := h
      cases h
      by_cases hv : n.messageAvailable.value = 0
      · simp only [Semaphore.P, hv, if_true, Bool.false_eq_true, if_false] at hn₁
        cases hn₁
        exact .awaitSleep hw hv
      · simp only [Semaphore.P, hv, if_true, if_false] at hn₁
        cases hn₁
        exact .awaitPass hw hv
    | receive =>
      simp only [hw, deliver] at h
      split at h
      case h_1 hsort =>
        cases h
        exact .deliverFail hw hsort
      case h_2 b mail hsort =>
        obtain ⟨m, hm, h⟩ := Option.map_eq_some_iff.mp h
        cases h
        exact .deliver hw hsort hm
    | putting b =>
      simp only [hw, Option.map_eq_some_iff] at h
      obtain ⟨⟨n₁, l₁⟩, hmove, h⟩ := h
      obtain ⟨m, hm, hmove⟩ := Option.map_eq_some_iff.mp hmove
      cases hmove
      split at h
      case h_1 r hr =>
        cases h
        exact .appended hw hm hr
      case h_2 hr =>
        cases h
        exact .append hw hm hr
  | checkPktAvail mem =>
    simp only at h
    split at h
    case h_1 hp =>
      cases h
      exact .pollFail hp
    case h_2 network readHandler hp =>
      cases readHandler with
      | false =>
        cases h
        exact .pollNothing hp
      | true =>
        cases h
        exact .poll hp
  | sendDone k =>
    apply acts_of_moveSender ?_ h
    rintro t' q' ⟨⟩

theorem acts_of_step (h : n.step machines numBoxes ident e = some n') :
    Acts machines numBoxes ident n e (n.seen machines numBoxes ident e) n' := by
  obtain ⟨⟨n₁, l⟩, hact, rfl⟩ := Option.map_eq_some_iff.mp h
  rw [seen, hact]
  exact acts_of_act hact

/-- The callers keep to the rules, and so does what comes in. -/
def EventOk (machines : List NetworkAddress) (numBoxes : ℤ) (ident : NetworkAddress)
    (_ : Node Tid Addr × List (Seen Tid)) (e : Option Mem × Act Tid Addr) : Prop :=
  e.2.Valid machines numBoxes ∧ ∀ packet ∈ e.1, LegalPacket numBoxes ident packet

/-! ### The parts -/

section Views
variable {β : Type} {v : Seen Tid → Option β} {l' : List (Driver.Seen Tid Outgoing (Option Mem))}
  {b' : ℤ} {i : Monitor.Event (Option Tid) (SynchList.Input Addr Mail)}

section
omit [DecidableEq Tid]

theorem view_sender (hv : ∀ x, v (.sender x) = none) : (l'.map .sender).filterMap v = [] :=
  filterMap_map_of_none hv l'

theorem view_movedIn (hv : ∀ x, v (.box b x) = none) : (n.movedIn b i).filterMap v = [] :=
  filterMap_map_of_none hv _

theorem senderOf_sender : (l'.map .sender).filterMap (fun x : Seen Tid => x.senderOf) = l' := by
  apply filterMap_map_of_some
  intro x
  rfl

end

omit [DecidableEq Tid] in
theorem boxOf_movedIn : (n.movedIn b' i).filterMap (Seen.boxOf b) =
    if b' = b then
      (n.boxes b').moved SynchList.code SynchList.Loc.puts SynchList.Loc.ret i
    else [] := by
  by_cases hb : b' = b
  · rw [if_pos hb, movedIn, filterMap_map_of_some fun _ => by simp [Seen.boxOf, hb]]
  · rw [if_neg hb]
    exact view_movedIn fun _ => if_neg hb

end Views

variable {p : Node Tid Addr × List (Seen Tid)}

/-- The sending side is a driver of the network, and all its requests are in order. -/
theorem sender_reach
    (hr : ((machine machines numBoxes ident).observe (seen machines numBoxes ident)).Reach
      (EventOk machines numBoxes ident) p) :
    ((Driver.machine (device machines ident) (· = false)).observe
      (Driver.State.seen (device machines ident))).Reach
        (fun _ e => e.Valid (Outgoing.Valid machines numBoxes ident))
        (p.1.sender, p.2.filterMap Seen.senderOf) := by
  apply hr.component Node.sender Seen.senderOf
  · intro n hn
    have hn : n.Start := hn
    exact hn.sender
  · intro p e n' hok hs
    have hacts := acts_of_step hs
    revert hacts
    generalize hl : p.1.seen machines numBoxes ident e = l
    intro hacts
    cases hacts with
    | @sender packet a e S hcall hS =>
      rw [senderOf_sender]
      apply Machine.Follows.step ?_ hS
      cases e with
      | call t q =>
        obtain ⟨pktHdr, mailHdr, data, mem, rfl, hq⟩ := hcall t q rfl
        exact valid_of_send hq hok.1.2.2
      | _ => trivial
    | receive | remove | deliver | append | appended =>
      exact .of_eq (view_movedIn fun _ => rfl) rfl
    | get | getFail =>
      refine .of_eq ?_ rfl
      rw [List.filterMap_append, view_movedIn fun _ => rfl]
      rfl
    | poll => exact .of_eq (filterMap_map_of_none (fun _ => rfl) _) rfl
    | _ => exact .idle

section MoveBox
variable {m : MailBox Tid Addr} {b' : ℤ}
  {i : Monitor.Event (Option Tid) (SynchList.Input Addr Mail)}
  {q : MailBox Tid Addr × List (Moved (Option Tid) Mail)}

theorem follows_moveBox (hm : (n.boxes b').step SynchList.code i = some m)
    (hq : q.1 = n.boxes b) (hboxes : n'.boxes = Function.update n.boxes b' m) :
    Machine.Follows SynchList.machine
      (Monitor.State.moved SynchList.code SynchList.Loc.puts SynchList.Loc.ret)
      (fun _ _ => True) q ((n.movedIn b' i).filterMap (Seen.boxOf b)) (n'.boxes b) := by
  rw [boxOf_movedIn, hboxes]
  by_cases hb : b' = b
  · subst hb
    rw [if_pos rfl, Function.update_self, ← hq]
    apply Machine.Follows.step trivial
    rw [hq]
    exact hm
  · rw [if_neg hb, Function.update_of_ne (Ne.symm hb)]
    exact .of_eq rfl hq.symm

end MoveBox

/-- Each mailbox is a synchronized list. -/
theorem box_reach
    (hr : ((machine machines numBoxes ident).observe (seen machines numBoxes ident)).Reach
      (EventOk machines numBoxes ident) p) (b : ℤ) :
    (SynchList.machine.observe (Monitor.State.moved SynchList.code SynchList.Loc.puts
      SynchList.Loc.ret)).Reachable (p.1.boxes b, p.2.filterMap (Seen.boxOf b)) := by
  apply hr.component (fun n => n.boxes b) (Seen.boxOf b)
  · intro n hn
    have hn : n.Start := hn
    exact hn.boxes b
  · intro p e n' _ hs
    have hacts := acts_of_step hs
    revert hacts
    generalize p.1.seen machines numBoxes ident e = l
    intro hacts
    cases hacts with
    | sender => exact .of_eq (view_sender fun _ => rfl) rfl
    | receive _ hm | remove _ hm | deliver _ _ hm | append _ hm | appended _ hm =>
      exact follows_moveBox hm rfl rfl
    | get _ hm | getFail _ hm =>
      rw [List.filterMap_append]
      exact (List.append_nil _).symm ▸ follows_moveBox hm rfl rfl
    | poll => exact .of_eq (filterMap_map_of_none (fun _ => rfl) _) rfl
    | _ => exact .idle

end Node
end Coursework.Nachos.PostOffice
