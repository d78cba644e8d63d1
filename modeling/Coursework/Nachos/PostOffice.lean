import Coursework.Lib.Component
import Coursework.Nachos.Driver.Rounds
import Coursework.Nachos.Network
import Coursework.Nachos.SynchList
import Mathlib.Data.Fintype.Option

/-!
# The post office of `post.cc`

A machine has the threads that call `Send` and `Receive`, and the postal worker, which is thread
`none`. `Send` uses the network as a driver uses its device; each mailbox is a `SynchList` of mails.
The two interrupt handlers of `network.cc` run at any time between two steps of the threads.
-/
namespace Coursework.Nachos

/-- `class MailHeader`; its fields `to` and `from` are keywords here. -/
structure MailHeader where
  toBox : BitVec 32
  fromBox : BitVec 32
  length : BitVec 32
  deriving DecidableEq

namespace MailHeader

/-- `sizeof(MailHeader)` -/
def size : ℕ := 12

def image (h : MailHeader) : Mem := Mem.words [h.toBox, h.fromBox, h.length]

/-- The header that a pointer points to. -/
def read (m : Mem) : MailHeader := ⟨m.word 0, m.word 4, m.word 8⟩

theorem read_image (h : MailHeader) : read h.image = h := by
  rw [read, image, Mem.word_words _ 0, Mem.word_words _ 1, Mem.word_words _ 2]
  rfl

theorem read_congr {m m' : Mem} (h : m.Agree size m') : read m = read m' := by
  rw [size] at h
  rw [read, read, h.word (by omega), h.word (by omega), h.word (by omega)]

end MailHeader

def maxMailSize : ℕ := Network.maxPacketSize - MailHeader.size

/-- `class Mail` -/
structure Mail where
  pktHdr : PacketHeader
  mailHdr : MailHeader
  data : Mem

/-- The constructor, in new memory. -/
def Mail.new (pktH : PacketHeader) (mailH : MailHeader) (msgData garbage : Mem) : Option Mail :=
  if mailH.length.toNat ≤ maxMailSize then
    some ⟨pktH, mailH, garbage.copy 0 mailH.length.toNat msgData⟩
  else none

/-- What a mail says: where its packet came from, its header, and that much of its data. -/
structure Letter where
  source : NetworkAddress
  mailHdr : MailHeader
  text : List UInt8
  deriving DecidableEq

def letter (pktHdr : PacketHeader) (mailHdr : MailHeader) (data : Mem) : Letter :=
  ⟨pktHdr.fromAddr, mailHdr, data.bytes mailHdr.length.toNat⟩

def Mail.letter (m : Mail) : Letter := Nachos.letter m.pktHdr m.mailHdr m.data

namespace PostOffice
open Monitor (Moved)

/-- The check of a mailbox number. -/
def IsBox (numBoxes : ℤ) (b : ℤ) : Prop := 0 ≤ b ∧ b < numBoxes

instance (numBoxes b : ℤ) : Decidable (IsBox numBoxes b) :=
  inferInstanceAs (Decidable (0 ≤ b ∧ b < numBoxes))

/-- The variables of `Send` when it comes to `sendLock->Acquire()`. -/
structure Outgoing where
  pktHdr : PacketHeader
  mailHdr : MailHeader
  data : Mem
  buffer : Mem

def Outgoing.letter (q : Outgoing) : Letter := Nachos.letter q.pktHdr q.mailHdr q.data

/-- `Send` up to `sendLock->Acquire()`, with a new `buffer`. -/
def send (numBoxes : ℤ) (netAddr : NetworkAddress) (pktHdr : PacketHeader) (mailHdr : MailHeader)
    (data buffer : Mem) : Option Outgoing :=
  if mailHdr.length.toNat ≤ maxMailSize then
    if IsBox numBoxes mailHdr.toBox.toInt then
      some {
        pktHdr := {
          toAddr := pktHdr.toAddr
          fromAddr := netAddr
          length := mailHdr.length + BitVec.ofNat 32 MailHeader.size }
        mailHdr := mailHdr
        data := data
        buffer := (buffer.copy 0 MailHeader.size mailHdr.image).copy MailHeader.size
          mailHdr.length.toNat data }
    else none
  else none

/-- `PostalDelivery` from the packet in `buffer` to the mail for the mailbox that it names. -/
def sort (numBoxes : ℤ) (pktHdr : PacketHeader) (buffer garbage : Mem) : Option (ℤ × Mail) :=
  let mailHdr := MailHeader.read buffer
  if IsBox numBoxes mailHdr.toBox.toInt then
    if mailHdr.length.toNat ≤ maxMailSize then
      (Mail.new pktHdr mailHdr (buffer.drop MailHeader.size) garbage).map fun mail =>
        (mailHdr.toBox.toInt, mail)
    else none
  else none

/-- The network as `sendLock` and `messageSent` guard it: `sendBusy` is its state, and a request
is a packet, or nothing where it is lost. A request also finds new memory for its buffer. -/
def device (machines : List NetworkAddress) (ident : NetworkAddress) :
    Device Bool Outgoing (Bool × Mem) (Option Mem) where
  request sendBusy q env :=
    (Network.send machines ident sendBusy env.1 q.pktHdr q.buffer env.2).map fun packet =>
      (sendBusy, packet)
  finish _ := false

/-- The statement that the postal worker runs next. -/
inductive Worker where
  /-- In the loop of `messageAvailable->P()`. -/
  | waitP
  | receive
  /-- In `Append` for mailbox `b`. -/
  | putting (b : ℤ)
  deriving DecidableEq

abbrev MailBox (Tid Addr : Type) :=
  Monitor.State (Option Tid) SynchList.Cond (SynchList.Loc Mail) (LinkedList Addr Mail)

structure Node (Tid Addr : Type) where
  sender : Driver.State Tid Bool Outgoing (Option Mem)
  network : Network
  messageAvailable : Semaphore (Option Tid)
  worker : Worker
  /-- The buffer of the postal worker. -/
  buffer : Mem
  boxes : ℤ → MailBox Tid Addr
  /-- The mailbox of a thread that is in `Receive`. -/
  receiving : Tid → Option ℤ
  /-- An assertion has failed. -/
  aborted : Bool

/-- What happens next; `mem` is what a buffer holds before it is filled. -/
inductive Act (Tid Addr : Type) where
  | send (t : Tid) (pktHdr : PacketHeader) (mailHdr : MailHeader) (data mem : Mem)
  | receive (t : Tid) (box : ℤ)
  /-- Thread `t` runs on; a packet that it sends may be lost. -/
  | run (t : Tid) (lost : Bool) (mem : Mem)
  /-- The postal worker runs on; `addr` is where it gets memory for a list element. -/
  | work (addr : Option Addr) (mem : Mem)
  | checkPktAvail (mem : Mem)
  | sendDone (n : ℕ)

/-- What is seen of a machine. -/
inductive Seen (Tid : Type) where
  | sender (x : Driver.Seen Tid Outgoing (Option Mem))
  /-- A packet is read from the socket. -/
  | read (packet : Mem)
  | box (b : ℤ) (x : Moved (Option Tid) Mail)
  /-- `Receive` hands this to its caller. -/
  | received (t : Tid) (b : ℤ) (x : Mail)

variable {Tid Addr : Type} [DecidableEq Tid] [DecidableEq Addr]

namespace Node

/-- The thread is outside `Send` and `Receive`. -/
def idle (n : Node Tid Addr) (t : Tid) : Bool :=
  (n.receiving t).isNone &&
    match n.sender.pc t with
    | .outside _ => true
    | _ => false

def abort (n : Node Tid Addr) : Node Tid Addr := { n with aborted := true }

def setBox (n : Node Tid Addr) (b : ℤ) (m : MailBox Tid Addr) : Node Tid Addr :=
  { n with boxes := Function.update n.boxes b m }

/-- What the thread gets from `Append` or `Remove` when it runs on. -/
def returns (n : Node Tid Addr) (b : ℤ) (t : Option Tid) : Option (SynchList.Loc Mail) :=
  match ((n.boxes b).thread t).pc with
  | .releaseV (.client k) => some k
  | _ => none

/-- A step of a thread in `Send`, or the interrupt for one. -/
def moveSender (machines : List NetworkAddress) (ident : NetworkAddress) (n : Node Tid Addr)
    (e : Driver.Event Tid Outgoing (Bool × Mem)) : Option (Node Tid Addr × List (Seen Tid)) :=
  (n.sender.step (device machines ident) e).map fun S =>
    ({ n with sender := S }, (n.sender.seen (device machines ident) e).map .sender)

/-- A step of a thread in a mailbox. -/
def moveBox (n : Node Tid Addr) (b : ℤ)
    (e : Monitor.Event (Option Tid) (SynchList.Input Addr Mail)) :
    Option (Node Tid Addr × List (Seen Tid)) :=
  ((n.boxes b).step SynchList.code e).map fun m =>
    (n.setBox b m, ((n.boxes b).moved SynchList.code SynchList.Loc.puts SynchList.Loc.ret e).map
      (.box b))

/-- `Get` and `Receive` after `Remove`; `data` is the buffer of the caller. -/
def get (n : Node Tid Addr) (t : Tid) (b : ℤ) (mail : Mail) (data : Mem) :
    Node Tid Addr × List (Seen Tid) :=
  if mail.mailHdr.length.toNat ≤ maxMailSize then
    ({ n with receiving := Function.update n.receiving t none },
      [.received t b { mail with data := data.copy 0 mail.mailHdr.length.toNat mail.data }])
  else (n.abort, [])

/-- One pass of the postal worker through `messageAvailable->P()`. -/
def await (n : Node Tid Addr) : Option (Node Tid Addr) :=
  if none ∈ n.messageAvailable.queue then none
  else
    let (S, passed) := n.messageAvailable.P none
    some { n with
      messageAvailable := S
      worker := if passed then .receive else .waitP }

/-- The postal worker takes the packet and goes into `Append`. -/
def deliver (numBoxes : ℤ) (n : Node Tid Addr) (mem : Mem) :
    Option (Node Tid Addr × List (Seen Tid)) :=
  let (pktHdr, buffer, network) := n.network.receive n.buffer
  match sort numBoxes pktHdr buffer mem with
  | none => some (n.abort, [])
  | some (b, mail) =>
    { n with
      network := network
      buffer := buffer
      worker := .putting b }.moveBox b ⟨none, .append mail⟩

/-- What happens under an event, and what is seen of it. The first part of the event is the packet
at the head of the socket. -/
def act (machines : List NetworkAddress) (numBoxes : ℤ) (ident : NetworkAddress)
    (n : Node Tid Addr) : Option Mem × Act Tid Addr → Option (Node Tid Addr × List (Seen Tid))
  | (packet, a) =>
    if n.aborted then none
    else match a with
    | .send t pktHdr mailHdr data mem =>
      if n.idle t then
        match PostOffice.send numBoxes ident pktHdr mailHdr data mem with
        | none => some (n.abort, [])
        | some q => n.moveSender machines ident (.call t q)
      else none
    | .receive t b =>
      if n.idle t then
        if IsBox numBoxes b then
          { n with receiving := Function.update n.receiving t (some b) }.moveBox b
            ⟨some t, .remove⟩
        else some (n.abort, [])
      else none
    | .run t lost mem =>
      match n.receiving t with
      | none => n.moveSender machines ident (.step t (lost, mem))
      | some b =>
        (n.moveBox b ⟨some t, .go⟩).map fun (n', l) =>
          match n.returns b (some t) with
          | some (.outside (some mail)) => ((n'.get t b mail mem).1, l ++ (n'.get t b mail mem).2)
          | _ => (n', l)
    | .work addr mem =>
      match n.worker with
      | .waitP => n.await.map fun n' => (n', [])
      | .receive => n.deliver numBoxes mem
      | .putting b =>
        (n.moveBox b ⟨none, addr.elim .go .new⟩).map fun (n', l) =>
          match n.returns b none with
          | some (.outside _) => ({ n' with worker := .waitP }, l)
          | _ => (n', l)
    | .checkPktAvail mem =>
      match n.network.checkPktAvail ident packet mem with
      | none => some (n.abort, [])
      | some (network, readHandler) =>
        some ({ n with
            network := network
            messageAvailable :=
              if readHandler then n.messageAvailable.V else n.messageAvailable },
          if readHandler then packet.toList.map .read else [])
    | .sendDone k => n.moveSender machines ident (.interrupt k)

def step (machines : List NetworkAddress) (numBoxes : ℤ) (ident : NetworkAddress)
    (n : Node Tid Addr) (e : Option Mem × Act Tid Addr) : Option (Node Tid Addr) :=
  (n.act machines numBoxes ident e).map Prod.fst

def seen (machines : List NetworkAddress) (numBoxes : ℤ) (ident : NetworkAddress)
    (n : Node Tid Addr) (e : Option Mem × Act Tid Addr) : List (Seen Tid) :=
  ((n.act machines numBoxes ident e).map Prod.snd).getD []

/-- A post office before anything has happened in it. -/
structure Start (n : Node Tid Addr) : Prop where
  sender : Driver.Start (· = false) n.sender
  length : n.network.inHdr.length = 0
  messageAvailable : n.messageAvailable = ⟨0, []⟩
  worker : n.worker = .waitP
  boxes : ∀ b, SynchList.machine.init (n.boxes b)
  receiving : ∀ t, n.receiving t = none
  aborted : n.aborted = false

def machine (machines : List NetworkAddress) (numBoxes : ℤ) (ident : NetworkAddress) :
    Machine (Node Tid Addr) (Option Mem × Act Tid Addr) where
  init := Start
  step := step machines numBoxes ident

end Node

/-! ### The machines and their sockets -/

/-- All machines, and the packets on the way to each. -/
structure Net (Tid Addr : Type) where
  node : NetworkAddress → Node Tid Addr
  socket : NetworkAddress → List Mem

/-- An event at the machine `place`. -/
structure Event (Tid Addr : Type) where
  place : NetworkAddress
  act : Act Tid Addr

/-- The packet that goes to machine `a`. -/
def Seen.sentTo (a : NetworkAddress) : Seen Tid → Option Mem
  | .sender (.requested _ _ q packet) => if q.pktHdr.toAddr = a then packet else none
  | _ => none

def Seen.readOf : Seen Tid → Option Mem
  | .read packet => some packet
  | _ => none

namespace Net

/-- Sockets deliver in order, and lose or double nothing. -/
def step (machines : List NetworkAddress) (numBoxes : ℤ) (s : Net Tid Addr)
    (e : Event Tid Addr) : Option (Net Tid Addr) :=
  if e.place ∈ machines then
    ((s.node e.place).act machines numBoxes e.place ((s.socket e.place).head?, e.act)).map fun p =>
      { node := Function.update s.node e.place p.1
        socket := fun a =>
          (if a = e.place then (s.socket a).drop (p.2.filterMap Seen.readOf).length
            else s.socket a) ++ p.2.filterMap (Seen.sentTo a) }
  else none

def seen (machines : List NetworkAddress) (numBoxes : ℤ) (s : Net Tid Addr)
    (e : Event Tid Addr) : List (NetworkAddress × Seen Tid) :=
  ((s.node e.place).seen machines numBoxes e.place ((s.socket e.place).head?, e.act)).map
    fun x => (e.place, x)

def machine (machines : List NetworkAddress) (numBoxes : ℤ) :
    Machine (Net Tid Addr) (Event Tid Addr) where
  init s := (∀ a, (s.node a).Start) ∧ ∀ a, s.socket a = []
  step := step machines numBoxes

end Net

/-- The callers keep to the rules: mails fit, and they go to mailboxes of machines that are
there. -/
def Act.Valid (machines : List NetworkAddress) (numBoxes : ℤ) : Act Tid Addr → Prop
  | .send _ pktHdr mailHdr _ _ => mailHdr.length.toNat ≤ maxMailSize ∧
      IsBox numBoxes mailHdr.toBox.toInt ∧ pktHdr.toAddr ∈ machines
  | .receive _ b => IsBox numBoxes b
  | _ => True

instance (machines : List NetworkAddress) (numBoxes : ℤ) :
    (a : Act Tid Addr) → Decidable (a.Valid machines numBoxes)
  | .send _ pktHdr mailHdr _ _ => inferInstanceAs (Decidable (mailHdr.length.toNat ≤ maxMailSize ∧
      IsBox numBoxes mailHdr.toBox.toInt ∧ pktHdr.toAddr ∈ machines))
  | .receive _ b => inferInstanceAs (Decidable (IsBox numBoxes b))
  | .run _ _ _ | .work _ _ | .checkPktAvail _ | .sendDone _ => inferInstanceAs (Decidable True)

end PostOffice
end Coursework.Nachos
