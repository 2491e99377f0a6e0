import Nachos.Lib.Buffer
import Nachos.Machine.Basic

/-!
# Packets and mail, `network.h` and `post.h`

A mail goes over the wire behind two headers: the post office puts its own in front of the data, and
the network takes both as the data of a packet, puts the packet header in front and sends a fixed
number of bytes. Both headers are three words. The receiver takes the packet apart by byte offsets.
`packetMail_packetBytes`: it finds the mail that was sent, whatever the padding.
-/

namespace Nachos

abbrev maxWireSize : ℕ := 64

/-- `sizeof(PacketHeader)` and `sizeof(MailHeader)`. -/
abbrev headerSize : ℕ := 12

abbrev maxPacketSize : ℕ := maxWireSize - headerSize

abbrev maxMailSize : ℕ := maxPacketSize - headerSize

structure PacketHeader where
  to' : Word
  from' : Word
  length : Word
  deriving DecidableEq, Repr

structure MailHeader where
  to' : Word
  from' : Word
  length : Word
  deriving DecidableEq, Repr

/-- The bytes of three words in a row. -/
def headerBytes (a b c : Word) (k : ℕ) : Byte :=
  (if k < 4 then a else if k < 8 then b else c).extractLsb' (8 * (k % 4)) 8

def PacketHeader.bytes (h : PacketHeader) : ℕ → Byte := headerBytes h.to' h.from' h.length

def MailHeader.bytes (h : MailHeader) : ℕ → Byte := headerBytes h.to' h.from' h.length

/-- `*(PacketHeader *)buffer` -/
def PacketHeader.ofBytes (buffer : ℕ → Byte) : PacketHeader where
  to' := wordAt buffer 0
  from' := wordAt buffer 4
  length := wordAt buffer 8

/-- `*(MailHeader *)buffer` -/
def MailHeader.ofBytes (buffer : ℕ → Byte) : MailHeader where
  to' := wordAt buffer 0
  from' := wordAt buffer 4
  length := wordAt buffer 8

/-- `buffer + i` -/
def bytesAt (buffer : ℕ → Byte) (i : ℕ) : ℕ → Byte := fun k => buffer (i + k)

/-- A `Mail`, with the bytes of `data` that are set. -/
structure Mail where
  pktHdr : PacketHeader
  mailHdr : MailHeader
  data : List Byte
  deriving DecidableEq, Repr

/-- The constructor, after its assertion on the length. -/
def Mail.new (pktH : PacketHeader) (mailH : MailHeader) (msgData : ℕ → Byte) : Mail where
  pktHdr := pktH
  mailHdr := mailH
  data := (List.range mailH.length.toNat).map msgData

/-- The mail header and the data, in the buffer of `PostOffice::Send`. -/
def mailBytes (mailHdr : MailHeader) (data buffer : ℕ → Byte) : ℕ → Byte :=
  Buffer.splice (Buffer.splice buffer 0 headerSize mailHdr.bytes) headerSize mailHdr.length.toNat
    data

/-- The packet header and its data, in the buffer of `Network::Send`. -/
def packetBytes (hdr : PacketHeader) (data buffer : ℕ → Byte) : ℕ → Byte :=
  Buffer.splice (Buffer.splice buffer 0 headerSize hdr.bytes) headerSize hdr.length.toNat data

/-- The mail that `PostalDelivery` makes of a packet. -/
def mailOf (hdr : PacketHeader) (body : ℕ → Byte) : Mail :=
  Mail.new hdr (MailHeader.ofBytes body) (bytesAt body headerSize)

/-- The mail in a packet on the wire. -/
def packetMail (p : ℕ → Byte) : Mail := mailOf (PacketHeader.ofBytes p) (bytesAt p headerSize)

/-- The two lengths agree, and the mail is not too long. -/
def Sound (hdr : PacketHeader) (body : ℕ → Byte) : Prop :=
  hdr.length.toNat = headerSize + (MailHeader.ofBytes body).length.toNat ∧
    (MailHeader.ofBytes body).length.toNat ≤ maxMailSize

/-! ## Taking a packet apart -/

theorem wordAt_headerBytes (a b c : Word) :
    wordAt (headerBytes a b c) 0 = a ∧ wordAt (headerBytes a b c) 4 = b ∧
      wordAt (headerBytes a b c) 8 = c :=
  ⟨append_extractLsb' a, append_extractLsb' b, append_extractLsb' c⟩

theorem PacketHeader.ofBytes_congr {p p' : ℕ → Byte} (h : ∀ k < headerSize, p k = p' k) :
    PacketHeader.ofBytes p = PacketHeader.ofBytes p' := by
  unfold PacketHeader.ofBytes
  have hw : ∀ i ≤ 8, wordAt p i = wordAt p' i := fun i hi =>
    wordAt_congr fun j hj => h (i + j) (by simp only [headerSize]; omega)
  rw [hw 0 (by omega), hw 4 (by omega), hw 8 le_rfl]

theorem MailHeader.ofBytes_congr {p p' : ℕ → Byte} (h : ∀ k < headerSize, p k = p' k) :
    MailHeader.ofBytes p = MailHeader.ofBytes p' := by
  unfold MailHeader.ofBytes
  have hw : ∀ i ≤ 8, wordAt p i = wordAt p' i := fun i hi =>
    wordAt_congr fun j hj => h (i + j) (by simp only [headerSize]; omega)
  rw [hw 0 (by omega), hw 4 (by omega), hw 8 le_rfl]

theorem PacketHeader.ofBytes_bytes (h : PacketHeader) : PacketHeader.ofBytes h.bytes = h := by
  obtain ⟨ha, hb, hc⟩ := wordAt_headerBytes h.to' h.from' h.length
  rw [PacketHeader.ofBytes, PacketHeader.bytes, ha, hb, hc]

theorem MailHeader.ofBytes_bytes (h : MailHeader) : MailHeader.ofBytes h.bytes = h := by
  obtain ⟨ha, hb, hc⟩ := wordAt_headerBytes h.to' h.from' h.length
  rw [MailHeader.ofBytes, MailHeader.bytes, ha, hb, hc]

theorem Mail.new_congr {pktH : PacketHeader} {mailH : MailHeader} {data data' : ℕ → Byte}
    (h : ∀ k < mailH.length.toNat, data k = data' k) :
    Mail.new pktH mailH data = Mail.new pktH mailH data' := by
  unfold Mail.new
  rw [List.map_congr_left fun k hk => h k (List.mem_range.mp hk)]

/-- Only the bytes that the packet header counts matter. -/
theorem mailOf_congr {hdr : PacketHeader} {body body' : ℕ → Byte} (hs : Sound hdr body)
    (h : ∀ k < hdr.length.toNat, body' k = body k) :
    mailOf hdr body' = mailOf hdr body ∧ Sound hdr body' := by
  obtain ⟨hlen, hmax⟩ := hs
  have hh : MailHeader.ofBytes body' = MailHeader.ofBytes body :=
    MailHeader.ofBytes_congr fun k hk => h k (by omega)
  refine ⟨?_, ?_⟩
  · rw [mailOf, mailOf, hh]
    exact Mail.new_congr fun k hk => h (headerSize + k) (by omega)
  · rw [Sound, hh]
    exact ⟨hlen, hmax⟩

/-- A sound packet is not taken for none. -/
theorem Sound.length_ne_zero {hdr : PacketHeader} {body : ℕ → Byte} (hs : Sound hdr body) :
    hdr.length ≠ 0 := by
  intro h
  have hlen : (0 : Word).toNat = _ := h ▸ hs.1
  have hw : headerSize = 12 := rfl
  rw [show (0 : Word).toNat = 0 from rfl] at hlen
  omega

theorem splice_header {buffer hdr data : ℕ → Byte} {n k : ℕ} (hk : k < headerSize) :
    Buffer.splice (Buffer.splice buffer 0 headerSize hdr) headerSize n data k = hdr k := by
  rw [Buffer.splice_outside (.inl hk), Buffer.splice_inside (Nat.zero_le k) (by omega),
    Nat.sub_zero]

theorem splice_data {buffer data : ℕ → Byte} {n k : ℕ} (hk : k < n) :
    Buffer.splice buffer headerSize n data (headerSize + k) = data k := by
  rw [Buffer.splice_inside (Nat.le_add_right ..) (by omega), Nat.add_sub_cancel_left]

theorem ofBytes_packetBytes (hdr : PacketHeader) (data buffer : ℕ → Byte) :
    PacketHeader.ofBytes (packetBytes hdr data buffer) = hdr := by
  rw [← PacketHeader.ofBytes_bytes hdr]
  exact PacketHeader.ofBytes_congr fun k hk => by
    rw [PacketHeader.ofBytes_bytes]
    exact splice_header hk

theorem ofBytes_mailBytes (mailHdr : MailHeader) (data buffer : ℕ → Byte) :
    MailHeader.ofBytes (mailBytes mailHdr data buffer) = mailHdr := by
  rw [← MailHeader.ofBytes_bytes mailHdr]
  exact MailHeader.ofBytes_congr fun k hk => by
    rw [MailHeader.ofBytes_bytes]
    exact splice_header hk

/-- The receiver of a packet finds the mail that was sent. -/
theorem packetMail_packetBytes {hdr : PacketHeader} {mailHdr : MailHeader}
    (hlen : hdr.length.toNat = headerSize + mailHdr.length.toNat)
    (hmax : mailHdr.length.toNat ≤ maxMailSize) (data buffer wire : ℕ → Byte) :
    packetMail (packetBytes hdr (mailBytes mailHdr data buffer) wire) =
        Mail.new hdr mailHdr data ∧
      Sound hdr (bytesAt (packetBytes hdr (mailBytes mailHdr data buffer) wire) headerSize) := by
  have hbody : ∀ k < hdr.length.toNat,
      bytesAt (packetBytes hdr (mailBytes mailHdr data buffer) wire) headerSize k =
        mailBytes mailHdr data buffer k := fun k hk => splice_data hk
  have hsound : Sound hdr (mailBytes mailHdr data buffer) := by
    rw [Sound, ofBytes_mailBytes]
    exact ⟨hlen, hmax⟩
  obtain ⟨hmail, hs⟩ := mailOf_congr hsound hbody
  refine ⟨?_, hs⟩
  rw [packetMail, ofBytes_packetBytes, hmail, mailOf, ofBytes_mailBytes]
  exact Mail.new_congr fun k hk => splice_data hk

end Nachos
