import Coursework.Lib.Memory

/-!
# The packets of `network.cc`

A packet has a header of three words and then its data. On the wire it is padded to `maxWireSize`
with whatever the buffer held. Nothing ever sets `sendBusy`; it is only reset.
-/
namespace Coursework.Nachos

abbrev NetworkAddress := BitVec 32

instance NetworkAddress.decidableMem (a : NetworkAddress) (machines : List NetworkAddress) :
    Decidable (a ∈ machines) := inferInstance

/-- `class PacketHeader`; its fields `to` and `from` are keywords here. -/
structure PacketHeader where
  toAddr : NetworkAddress
  fromAddr : NetworkAddress
  length : BitVec 32
  deriving DecidableEq

namespace PacketHeader

/-- `sizeof(PacketHeader)` -/
def size : ℕ := 12

def image (h : PacketHeader) : Mem := Mem.words [h.toAddr, h.fromAddr, h.length]

/-- The header that a pointer points to. -/
def read (m : Mem) : PacketHeader := ⟨m.word 0, m.word 4, m.word 8⟩

theorem read_image (h : PacketHeader) : read h.image = h := by
  rw [read, image, Mem.word_words _ 0, Mem.word_words _ 1, Mem.word_words _ 2]
  rfl

theorem read_congr {m m' : Mem} (h : m.Agree size m') : read m = read m' := by
  rw [size] at h
  rw [read, read, h.word (by omega), h.word (by omega), h.word (by omega)]

end PacketHeader

/-- The part of class `Network` that a packet comes in through. -/
structure Network where
  inHdr : PacketHeader
  inbox : Mem

namespace Network

def maxWireSize : ℕ := 64

def maxPacketSize : ℕ := maxWireSize - PacketHeader.size

/-- `Send` up to the scheduling of its interrupt, and then the packet that it puts on the wire,
unless it is lost; `none` for a failed assertion. The socket of a machine that is not there
takes no packet. -/
def send (machines : List NetworkAddress) (ident : NetworkAddress) (sendBusy lost : Bool)
    (hdr : PacketHeader) (data buffer : Mem) : Option (Option Mem) :=
  if sendBusy = false ∧ 0 < hdr.length.toNat ∧ hdr.length.toNat ≤ maxPacketSize ∧
      hdr.fromAddr = ident then
    if lost then some none
    else if hdr.toAddr ∈ machines then
      some (some ((buffer.copy 0 PacketHeader.size hdr.image).copy PacketHeader.size
        hdr.length.toNat data))
    else none
  else none

/-- `CheckPktAvail` on a socket with the packet `packet` at its head; the flag tells whether it
calls `readHandler`. -/
def checkPktAvail (net : Network) (ident : NetworkAddress) (packet : Option Mem) (buffer : Mem) :
    Option (Network × Bool) :=
  if net.inHdr.length ≠ 0 then some (net, false)
  else
    match packet with
    | none => some (net, false)
    | some p =>
      let buffer := buffer.copy 0 maxWireSize p
      let inHdr := PacketHeader.read buffer
      if inHdr.toAddr = ident ∧ inHdr.length.toNat ≤ maxPacketSize then
        some (⟨inHdr, net.inbox.copy 0 inHdr.length.toNat (buffer.drop PacketHeader.size)⟩, true)
      else none

/-- `Receive`: the header, what `data` holds afterwards, and the device. -/
def receive (net : Network) (data : Mem) : PacketHeader × Mem × Network :=
  (net.inHdr,
    if net.inHdr.length ≠ 0 then data.copy 0 net.inHdr.length.toNat net.inbox else data,
    { net with inHdr := { net.inHdr with length := 0 } })

variable {machines : List NetworkAddress} {ident : NetworkAddress} {hdr : PacketHeader}
  {data buffer packet : Mem} {net : Network}

/-- What `Send` puts on the wire. -/
theorem packet_of_send {sendBusy lost : Bool}
    (h : send machines ident sendBusy lost hdr data buffer = some (some packet)) :
    PacketHeader.read packet = hdr ∧
      (packet.drop PacketHeader.size).Agree hdr.length.toNat data := by
  obtain ⟨-, h⟩ := Option.ite_none_right_eq_some.mp h
  cases lost with
  | true => cases h
  | false =>
    obtain ⟨-, h⟩ := Option.ite_none_right_eq_some.mp h
    cases h
    constructor
    · rw [← hdr.read_image]
      apply PacketHeader.read_congr
      intro j hj
      rw [Mem.copy_of_not_mem (.inl hj), Mem.copy_of_mem (Nat.zero_le j) (by omega), Nat.sub_zero,
        hdr.read_image]
    · intro j hj
      rw [Mem.drop, Mem.copy_of_mem (by omega) (by omega), Nat.add_sub_cancel_left]

/-- A packet for this machine is read whole. -/
theorem checkPktAvail_read (buffer : Mem) (h0 : net.inHdr.length = 0)
    (hto : (PacketHeader.read packet).toAddr = ident)
    (hlen : (PacketHeader.read packet).length.toNat ≤ maxPacketSize) :
    ∃ inbox, net.checkPktAvail ident (some packet) buffer =
        some (⟨PacketHeader.read packet, inbox⟩, true) ∧
      inbox.Agree (PacketHeader.read packet).length.toNat (packet.drop PacketHeader.size) := by
  have hwire : (buffer.copy 0 maxWireSize packet).Agree maxWireSize packet := Mem.agree_copy
  have hread : PacketHeader.read (buffer.copy 0 maxWireSize packet) = PacketHeader.read packet := by
    apply PacketHeader.read_congr
    exact hwire.mono (by decide)
  have hsize : PacketHeader.size + (PacketHeader.read packet).length.toNat ≤ maxWireSize := by
    rw [maxPacketSize] at hlen
    have hle : PacketHeader.size ≤ maxWireSize := by decide
    omega
  refine ⟨net.inbox.copy 0 (PacketHeader.read packet).length.toNat
    ((buffer.copy 0 maxWireSize packet).drop PacketHeader.size), ?_, ?_⟩
  · rw [checkPktAvail, if_neg (not_not.mpr h0)]
    simp only [hread]
    rw [if_pos ⟨hto, hlen⟩]
  · exact Mem.agree_copy.trans (hwire.mono hsize).drop

theorem checkPktAvail_false {net' : Network} {packet : Option Mem}
    (h : net.checkPktAvail ident packet buffer = some (net', false)) : net' = net := by
  cases packet with
  | none =>
    rw [checkPktAvail, ite_self] at h
    cases h
    rfl
  | some p =>
    rw [checkPktAvail] at h
    split at h
    · cases h
      rfl
    · obtain ⟨-, h⟩ := Option.ite_none_right_eq_some.mp h
      cases h

theorem checkPktAvail_true {net' : Network} {packet : Option Mem}
    (h : net.checkPktAvail ident packet buffer = some (net', true)) :
    net.inHdr.length = 0 ∧ ∃ p, packet = some p := by
  cases packet with
  | none =>
    rw [checkPktAvail, ite_self] at h
    cases h
  | some p =>
    rw [checkPktAvail] at h
    split at h
    case isTrue => cases h
    case isFalse hlen => exact ⟨not_not.mp hlen, p, rfl⟩

theorem checkPktAvail_ne_none {packet : Option Mem}
    (hto : ∀ p ∈ packet, (PacketHeader.read p).toAddr = ident)
    (hlen : ∀ p ∈ packet, (PacketHeader.read p).length.toNat ≤ maxPacketSize) :
    net.checkPktAvail ident packet buffer ≠ none := by
  by_cases h0 : net.inHdr.length = 0
  · cases packet with
    | none =>
      rw [checkPktAvail, ite_self]
      simp
    | some p =>
      obtain ⟨inbox, hread, -⟩ := checkPktAvail_read buffer h0 (hto p rfl) (hlen p rfl)
      rw [hread]
      simp
  · cases packet with
    | none =>
      rw [checkPktAvail, ite_self]
      simp
    | some p =>
      rw [checkPktAvail, if_pos h0]
      simp

theorem agree_receive (h : net.inHdr.length ≠ 0) :
    (net.receive data).2.1.Agree net.inHdr.length.toNat net.inbox := by
  rw [receive, if_pos h]
  exact Mem.agree_copy

end Network
end Coursework.Nachos
