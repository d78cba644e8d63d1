import Coursework.Nachos.PostOffice

/-!
# The letter in a packet

`Send` puts a mail header in front of the data, and the network puts its own in front of that; the
other machine takes them off again. Both sides agree on which letter is in a packet.
-/
namespace Coursework.Nachos

/-- The mailbox that a letter is for. -/
def Letter.box (x : Letter) : ℤ := x.mailHdr.toBox.toInt

namespace PostOffice

/-- The letter in a buffer that came with this packet header. -/
def contents (hdr : PacketHeader) (buffer : Mem) : Letter :=
  letter hdr (MailHeader.read buffer) (buffer.drop MailHeader.size)

/-- The letter in a packet. -/
def packetLetter (packet : Mem) : Letter :=
  contents (PacketHeader.read packet) (packet.drop PacketHeader.size)

/-- A buffer with a letter for one of the mailboxes, and nothing else. -/
structure Legal (numBoxes : ℤ) (hdr : PacketHeader) (buffer : Mem) : Prop where
  box : IsBox numBoxes (contents hdr buffer).box
  small : (contents hdr buffer).mailHdr.length.toNat ≤ maxMailSize
  length : hdr.length.toNat =
    MailHeader.size + (contents hdr buffer).mailHdr.length.toNat

/-- A packet with a letter for one of the mailboxes of machine `ident`. -/
structure LegalPacket (numBoxes : ℤ) (ident : NetworkAddress) (packet : Mem) : Prop where
  toAddr : (PacketHeader.read packet).toAddr = ident
  legal : Legal numBoxes (PacketHeader.read packet) (packet.drop PacketHeader.size)

/-- What `Send` has made of the arguments of its caller. -/
structure Outgoing.Valid (machines : List NetworkAddress) (numBoxes : ℤ) (ident : NetworkAddress)
    (q : Outgoing) : Prop where
  fromAddr : q.pktHdr.fromAddr = ident
  toAddr : q.pktHdr.toAddr ∈ machines
  legal : Legal numBoxes q.pktHdr q.buffer
  contents : contents q.pktHdr q.buffer = q.letter

variable {machines : List NetworkAddress} {numBoxes : ℤ} {ident : NetworkAddress}
  {hdr : PacketHeader} {mailHdr : MailHeader} {buffer buffer' data packet : Mem}
  {q : Outgoing}

theorem contents_of_read (h : MailHeader.read buffer = mailHdr)
    (hdata : (buffer.drop MailHeader.size).Agree mailHdr.length.toNat data) :
    contents hdr buffer = letter hdr mailHdr data := by
  rw [contents, h, letter, letter, Mem.bytes_congr hdata]

/-- A copy of the buffer has the same letter. -/
theorem Legal.contents_congr (h : Legal numBoxes hdr buffer)
    (hcopy : buffer'.Agree hdr.length.toNat buffer) :
    contents hdr buffer' = contents hdr buffer := by
  have hlen : hdr.length.toNat = MailHeader.size + (MailHeader.read buffer).length.toNat := h.length
  rw [hlen] at hcopy
  apply contents_of_read
  · exact MailHeader.read_congr (hcopy.mono (Nat.le_add_right _ _))
  · exact hcopy.drop

theorem Legal.congr (h : Legal numBoxes hdr buffer)
    (hcopy : buffer'.Agree hdr.length.toNat buffer) : Legal numBoxes hdr buffer' := by
  have heq := h.contents_congr hcopy
  constructor
  · rw [heq]
    exact h.box
  · rw [heq]
    exact h.small
  · rw [heq]
    exact h.length

theorem Legal.length_le (h : Legal numBoxes hdr buffer) :
    hdr.length.toNat ≤ Network.maxPacketSize := by
  have hlen := h.length
  have hsmall := h.small
  have hmax : MailHeader.size + maxMailSize = Network.maxPacketSize := by decide
  omega

theorem Legal.length_pos (h : Legal numBoxes hdr buffer) : 0 < hdr.length.toNat := by
  rw [h.length]
  exact Nat.add_pos_left (by decide) _

theorem Legal.length_ne_zero (h : Legal numBoxes hdr buffer) : hdr.length ≠ 0 := by
  have hpos := h.length_pos
  rintro heq
  rw [heq] at hpos
  exact absurd hpos (by decide)

/-- The arguments of a call are put together as they should. -/
theorem valid_of_send {pktHdr : PacketHeader}
    (h : send numBoxes ident pktHdr mailHdr data buffer = some q)
    (hto : pktHdr.toAddr ∈ machines) : q.Valid machines numBoxes ident := by
  obtain ⟨hlen, h⟩ := Option.ite_none_right_eq_some.mp h
  obtain ⟨hbox, h⟩ := Option.ite_none_right_eq_some.mp h
  cases h
  have hhdr : MailHeader.read ((buffer.copy 0 MailHeader.size mailHdr.image).copy MailHeader.size
      mailHdr.length.toNat data) = mailHdr := by
    rw [← mailHdr.read_image]
    apply MailHeader.read_congr
    intro j hj
    rw [Mem.copy_of_not_mem (.inl hj), Mem.copy_of_mem (Nat.zero_le j) (by omega), Nat.sub_zero,
      mailHdr.read_image]
  have hdata : (((buffer.copy 0 MailHeader.size mailHdr.image).copy MailHeader.size
      mailHdr.length.toNat data).drop MailHeader.size).Agree mailHdr.length.toNat data := by
    intro j hj
    rw [Mem.drop, Mem.copy_of_mem (by omega) (by omega), Nat.add_sub_cancel_left]
  have hcontents : contents ⟨pktHdr.toAddr, ident,
      mailHdr.length + BitVec.ofNat 32 MailHeader.size⟩ _ = _ := contents_of_read hhdr hdata
  refine ⟨rfl, hto, ⟨?_, ?_, ?_⟩, hcontents⟩
  · rwa [hcontents]
  · rwa [hcontents]
  · rw [hcontents]
    change (mailHdr.length + BitVec.ofNat 32 12).toNat = 12 + mailHdr.length.toNat
    have hmax : maxMailSize = 40 := by decide
    rw [BitVec.toNat_add, BitVec.toNat_ofNat]
    omega

/-- The network takes the packet, whether or not it gets lost. -/
theorem isSome_send (hq : q.Valid machines numBoxes ident) (lost : Bool) (mem : Mem) :
    (Network.send machines ident false lost q.pktHdr q.buffer mem).isSome := by
  rw [Network.send, if_pos ⟨rfl, hq.legal.length_pos, hq.legal.length_le, hq.fromAddr⟩,
    if_pos hq.toAddr]
  cases lost <;> rfl

/-- What goes on the wire is a packet with the letter of the call. -/
theorem legalPacket_of_send {sendBusy lost : Bool} {mem : Mem}
    (hq : q.Valid machines numBoxes ident)
    (h : Network.send machines ident sendBusy lost q.pktHdr q.buffer mem = some (some packet)) :
    LegalPacket numBoxes q.pktHdr.toAddr packet ∧ packetLetter packet = q.letter := by
  obtain ⟨hread, hcopy⟩ := Network.packet_of_send h
  refine ⟨⟨by rw [hread], ?_⟩, ?_⟩
  · rw [hread]
    exact hq.legal.congr hcopy
  · rw [packetLetter, hread, hq.legal.contents_congr hcopy, hq.contents]

/-- The postal worker makes the letter in the buffer a mail for its mailbox. -/
theorem sort_eq (garbage : Mem) (h : Legal numBoxes hdr buffer) : ∃ mail,
    sort numBoxes hdr buffer garbage = some ((contents hdr buffer).box, mail) ∧
      mail.letter = contents hdr buffer := by
  have hbox : IsBox numBoxes (MailHeader.read buffer).toBox.toInt := h.box
  have hsmall : (MailHeader.read buffer).length.toNat ≤ maxMailSize := h.small
  refine ⟨⟨hdr, MailHeader.read buffer, garbage.copy 0 (MailHeader.read buffer).length.toNat
    (buffer.drop MailHeader.size)⟩, ?_, ?_⟩
  · rw [sort]
    simp only [Mail.new, if_pos hbox, if_pos hsmall, Option.map_some]
    rfl
  · rw [Mail.letter, contents, letter, letter, Mem.bytes_congr Mem.agree_copy]

end PostOffice
end Coursework.Nachos
