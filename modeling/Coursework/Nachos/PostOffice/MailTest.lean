import Coursework.Nachos.PostOffice.Delivery

/-!
# Two letters for each machine, after `nettest.cc`

Each machine sends a greeting to another one, waits for a greeting, acknowledges it and waits for
its own to be acknowledged; then it halts. Any number of machines do so, and the network may lose
packets. A machine that comes to its end knows that its greeting was received. `Halt` closes the
socket, and the assertion of a `Send` to a machine without one fails.
-/
namespace Coursework.Nachos.PostOffice.MailTest

/-- "Hello there!" -/
def data : List UInt8 :=
  [0x48, 0x65, 0x6c, 0x6c, 0x6f, 0x20, 0x74, 0x68, 0x65, 0x72, 0x65, 0x21, 0]

/-- "Got it!" -/
def ack : List UInt8 := [0x47, 0x6f, 0x74, 0x20, 0x69, 0x74, 0x21, 0]

/-- A string in memory. -/
def text (s : List UInt8) : Mem := fun j => s.getD j 0

/-- The call of `MailTest` that comes next or is being made, with the letters received. -/
inductive Pc where
  | greet
  /-- The greeting is being sent; when it is sent, `Receive` is called. -/
  | greeted
  | receive
  | acknowledge (x : Letter)
  | acknowledged (x : Letter)
  | receiveAck (x : Letter)
  | halt (x y : Letter)
  | halted (x y : Letter)
  deriving DecidableEq

/-- The arguments of the next call, with `outPktHdr` not yet filled in, and the state afterwards. -/
def Pc.call {Addr : Type} (farAddr : NetworkAddress) (outPktHdr : PacketHeader) (mem : Mem) :
    Pc → Option (Act Unit Addr × Pc)
  | .greet => some (.send () { outPktHdr with toAddr := farAddr } ⟨0, 1, 13⟩ (text data) mem,
      .greeted)
  | .greeted => some (.receive () 0, .receive)
  | .acknowledge x => some (.send () { outPktHdr with toAddr := x.source }
      ⟨x.mailHdr.fromBox, 1, 8⟩ (text ack) mem, .acknowledged x)
  | .acknowledged x => some (.receive () 1, .receiveAck x)
  | .receive | .receiveAck _ | .halt _ _ | .halted _ _ => none

/-- `Receive` returns with a letter. -/
def Pc.got (x : Letter) : Pc → Pc
  | .receive => .acknowledge x
  | .receiveAck y => .halt y x
  | pc => pc

def letterOf : Seen Unit → Option Letter
  | .received _ _ mail => some mail.letter
  | _ => none

structure State (Addr : Type) where
  net : Net Unit Addr
  pc : NetworkAddress → Pc

inductive Event (Addr : Type) where
  /-- The thread of machine `a` makes its next call. -/
  | call (a : NetworkAddress) (outPktHdr : PacketHeader) (mem : Mem)
  /-- `interrupt->Halt()` -/
  | halt (a : NetworkAddress)
  | net (e : PostOffice.Event Unit Addr)

def isCall {Addr : Type} : Act Unit Addr → Bool
  | .send _ _ _ _ _ | .receive _ _ => true
  | .run _ _ _ | .work _ _ | .checkPktAvail _ | .sendDone _ => false

def Pc.isHalted : Pc → Bool
  | .halted _ _ => true
  | _ => false

/-- An assertion of `Send`, `Receive` or the network has failed. -/
def failed {Addr : Type} (n : Node Unit Addr) : Bool :=
  n.aborted || match n.sender.pc () with
    | .assertFailed => true
    | _ => false

/-- The machines that are still there, each with its socket. `Halt` deletes the post office, and
`~Network` closes the socket and unlinks its name; a failed assertion ends the program. -/
def State.running {Addr : Type} (machines : List NetworkAddress) (s : State Addr) :
    List NetworkAddress :=
  machines.filter fun a => !(s.pc a).isHalted && !failed (s.net.node a)

variable {Addr : Type} [DecidableEq Addr]

/-- The event of the network, if there is one, and the machines afterwards. -/
def step (machines : List NetworkAddress) (numBoxes : ℤ) (farAddr : NetworkAddress → NetworkAddress)
    (s : State Addr) : Event Addr → Option (State Addr)
  | .call a outPktHdr mem => do
    let (act, pc) ← (s.pc a).call (farAddr a) outPktHdr mem
    let net ← s.net.step (s.running machines) numBoxes ⟨a, act⟩
    some ⟨net, Function.update s.pc a pc⟩
  | .halt a =>
    if a ∈ s.running machines then
      match s.pc a with
      | .halt x y => some { s with pc := Function.update s.pc a (.halted x y) }
      | _ => none
    else none
  | .net e => do
    if isCall e.act then none
    else
      let net ← s.net.step (s.running machines) numBoxes e
      some ⟨net, Function.update s.pc e.place
        (((s.net.seen (s.running machines) numBoxes e).filterMap (letterOf ·.2)).foldl
          (fun pc x => pc.got x) (s.pc e.place))⟩

def seen (machines : List NetworkAddress) (numBoxes : ℤ) (farAddr : NetworkAddress → NetworkAddress)
    (s : State Addr) : Event Addr → List (NetworkAddress × Seen Unit)
  | .call a outPktHdr mem =>
    match (s.pc a).call (farAddr a) outPktHdr mem with
    | some (act, _) => s.net.seen (s.running machines) numBoxes ⟨a, act⟩
    | none => []
  | .halt _ => []
  | .net e => s.net.seen (s.running machines) numBoxes e

def machine (machines : List NetworkAddress) (numBoxes : ℤ)
    (farAddr : NetworkAddress → NetworkAddress) : Machine (State Addr) (Event Addr) where
  init s := (Net.machine machines numBoxes).init s.net ∧ ∀ a, s.pc a = .greet
  step := step machines numBoxes farAddr

/-! ### Letters -/

def greeting (a : NetworkAddress) : Letter := ⟨a, ⟨0, 1, 13⟩, data⟩

/-- The answer of machine `a` to the letter `x`. -/
def answer (a : NetworkAddress) (x : Letter) : Letter := ⟨a, ⟨x.mailHdr.fromBox, 1, 8⟩, ack⟩

def acknowledgement (a : NetworkAddress) : Letter := ⟨a, ⟨1, 1, 8⟩, ack⟩

namespace Pc

/-- The letter received from the first mailbox. -/
def greetingOf : Pc → Option Letter
  | .greet | .greeted | .receive => none
  | .acknowledge x | .acknowledged x | .receiveAck x | .halt x _ | .halted x _ => some x

def ackOf : Pc → Option Letter
  | .halt _ y | .halted _ y => some y
  | _ => none

/-- The letters sent, with their addresses. -/
def sent (farAddr : NetworkAddress) (a : NetworkAddress) : Pc → List (NetworkAddress × Letter)
  | .greet => []
  | .greeted | .receive | .acknowledge _ => [(farAddr, greeting a)]
  | .acknowledged x | .receiveAck x | .halt x _ | .halted x _ =>
    [(farAddr, greeting a), (x.source, answer a x)]

/-- The mailbox that is waited at. -/
def waitsAt : Pc → Option ℤ
  | .receive => some 0
  | .receiveAck _ => some 1
  | _ => none

end Pc

/-- What `Send` has been given. -/
def addressed (q : Outgoing) : NetworkAddress × Letter := (q.pktHdr.toAddr, q.letter)

def requestOf {R : Type} : Driver.Seen Unit Outgoing R → Option Outgoing
  | .requested _ _ q _ => some q
  | _ => none

/-- What a machine has sent. -/
def requests (h : List (Seen Unit)) : List (NetworkAddress × Letter) :=
  ((h.filterMap Seen.senderOf).filterMap requestOf).map addressed

/-- What it is going to send. -/
def wanted (n : Node Unit Addr) : List (NetworkAddress × Letter) :=
  (n.sender.pc ()).wants.toList.map addressed

end Coursework.Nachos.PostOffice.MailTest
