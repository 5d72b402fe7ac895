import RdsProv.Base
import RdsProv.Lib.LittleEndian

/-!
# Wire framing

The packed structures that travel between endpoints: the header every datagram
starts with (`struct rds_hdr`), the source segment of a rendezvous request
(`struct rds_rndzv_seg`) and the ring handshake payload
(`struct rds_ring_info`). All fields are little-endian, since the provider
copies the structures as they lie in memory.

What is read back is what was written: `Hdr.decode_encode`,
`decodeSegs_encodeSegs` and `RingInfo.decode_encode`. An eager-ring slot is
kept as a record, because one RDMA write places it whole and the receiver
reads its fields in place.
-/

/-- `RDS_HDR_MAGIC`. -/
abbrev rdsHdrMagic : UInt32 := 0x53445231

/-! ## Operations and header flags (`enum rds_op`, `RDS_HF_*`) -/

abbrev rdsOpEager : UInt8 := 1
abbrev rdsOpRts : UInt8 := 2
abbrev rdsOpFin : UInt8 := 3
abbrev rdsOpRingReq : UInt8 := 4
abbrev rdsOpRingAck : UInt8 := 5

abbrev rdsHfTagged : UInt8 := 1
abbrev rdsHfCqData : UInt8 := 2

/-- `struct rds_hdr`. The operation is a byte off the wire, so it need not be
one of the five the provider sends. -/
structure Hdr where
  magic : UInt32
  op : UInt8
  flags : UInt8
  segCnt : UInt16
  tag : UInt64
  data : UInt64
  size : UInt64
  id : UInt64
  deriving DecidableEq, Repr

namespace Hdr

/-- A header as `memset` leaves it, apart from its magic and operation. -/
def blank (op : UInt8) : Hdr where
  magic := rdsHdrMagic
  op := op
  flags := 0
  segCnt := 0
  tag := 0
  data := 0
  size := 0
  id := 0

/-- Whether the header is that of a tagged message. -/
def tagged (h : Hdr) : Bool := h.flags &&& rdsHfTagged != 0

/-- The forty bytes of a header. -/
def encode (h : Hdr) : List UInt8 :=
  leEncode 4 h.magic.toNat ++ (leEncode 1 h.op.toNat ++ (leEncode 1 h.flags.toNat
    ++ (leEncode 2 h.segCnt.toNat ++ (leEncode 8 h.tag.toNat
    ++ (leEncode 8 h.data.toNat ++ (leEncode 8 h.size.toNat
    ++ leEncode 8 h.id.toNat))))))

/-- The header a byte string starts with. -/
def decode (bs : List UInt8) : Hdr where
  magic := UInt32.ofNat (leField bs 0 4)
  op := UInt8.ofNat (leField bs 4 1)
  flags := UInt8.ofNat (leField bs 5 1)
  segCnt := UInt16.ofNat (leField bs 6 2)
  tag := UInt64.ofNat (leField bs 8 8)
  data := UInt64.ofNat (leField bs 16 8)
  size := UInt64.ofNat (leField bs 24 8)
  id := UInt64.ofNat (leField bs 32 8)

@[simp] theorem encode_length (h : Hdr) : h.encode.length = rdsHdrSize := by
  simp only [encode, List.length_append, leEncode_length]

end Hdr

/-- Reading a field back from the concatenation it was written in, the earlier
fields collected in front of it. -/
theorem leField_of_split {bs : List UInt8} {off w n : ℕ} (pre post : List UInt8)
    (hbs : bs = pre ++ (leEncode w n ++ post)) (hoff : pre.length = off)
    (hn : n < 256 ^ w) : leField bs off w = n := by
  rw [hbs, leField_append hoff, Nat.mod_eq_of_lt hn]

namespace Hdr

/-- **A header is read back as it was written**, whatever payload follows
it. -/
theorem decode_encode (h : Hdr) (rest : List UInt8) :
    decode (h.encode ++ rest) = h := by
  have hmagic : leField (h.encode ++ rest) 0 4 = h.magic.toNat :=
    leField_of_split [] _ (by simp only [encode, List.append_assoc, List.nil_append]; rfl)
      rfl h.magic.toNat_lt
  have hop : leField (h.encode ++ rest) 4 1 = h.op.toNat :=
    leField_of_split (leEncode 4 h.magic.toNat) _
      (by simp only [encode, List.append_assoc]; rfl)
      (by simp only [leEncode_length]) h.op.toNat_lt
  have hflags : leField (h.encode ++ rest) 5 1 = h.flags.toNat :=
    leField_of_split (leEncode 4 h.magic.toNat ++ leEncode 1 h.op.toNat) _
      (by simp only [encode, List.append_assoc]; rfl)
      (by simp only [List.length_append, leEncode_length]) h.flags.toNat_lt
  have hseg : leField (h.encode ++ rest) 6 2 = h.segCnt.toNat :=
    leField_of_split (leEncode 4 h.magic.toNat ++ leEncode 1 h.op.toNat
        ++ leEncode 1 h.flags.toNat) _
      (by simp only [encode, List.append_assoc]; rfl)
      (by simp only [List.length_append, leEncode_length]) h.segCnt.toNat_lt
  have htag : leField (h.encode ++ rest) 8 8 = h.tag.toNat :=
    leField_of_split (leEncode 4 h.magic.toNat ++ leEncode 1 h.op.toNat
        ++ leEncode 1 h.flags.toNat ++ leEncode 2 h.segCnt.toNat) _
      (by simp only [encode, List.append_assoc]; rfl)
      (by simp only [List.length_append, leEncode_length]) h.tag.toNat_lt
  have hdata : leField (h.encode ++ rest) 16 8 = h.data.toNat :=
    leField_of_split (leEncode 4 h.magic.toNat ++ leEncode 1 h.op.toNat
        ++ leEncode 1 h.flags.toNat ++ leEncode 2 h.segCnt.toNat
        ++ leEncode 8 h.tag.toNat) _
      (by simp only [encode, List.append_assoc]; rfl)
      (by simp only [List.length_append, leEncode_length]) h.data.toNat_lt
  have hsize : leField (h.encode ++ rest) 24 8 = h.size.toNat :=
    leField_of_split (leEncode 4 h.magic.toNat ++ leEncode 1 h.op.toNat
        ++ leEncode 1 h.flags.toNat ++ leEncode 2 h.segCnt.toNat
        ++ leEncode 8 h.tag.toNat ++ leEncode 8 h.data.toNat) _
      (by simp only [encode, List.append_assoc]; rfl)
      (by simp only [List.length_append, leEncode_length]) h.size.toNat_lt
  have hid : leField (h.encode ++ rest) 32 8 = h.id.toNat :=
    leField_of_split (leEncode 4 h.magic.toNat ++ leEncode 1 h.op.toNat
        ++ leEncode 1 h.flags.toNat ++ leEncode 2 h.segCnt.toNat
        ++ leEncode 8 h.tag.toNat ++ leEncode 8 h.data.toNat
        ++ leEncode 8 h.size.toNat) _
      (by simp only [encode, List.append_assoc]; rfl)
      (by simp only [List.length_append, leEncode_length]) h.id.toNat_lt
  simp only [decode, hmagic, hop, hflags, hseg, htag, hdata, hsize, hid,
    UInt8.ofNat_toNat, UInt16.ofNat_toNat, UInt32.ofNat_toNat, UInt64.ofNat_toNat]

/-- What follows the header is the payload. -/
theorem drop_encode (h : Hdr) (rest : List UInt8) :
    (h.encode ++ rest).drop rdsHdrSize = rest := by
  rw [List.drop_left' (encode_length h)]

end Hdr

/-! ## Rendezvous segments -/

/-- `struct rds_rndzv_seg`: the cookie of a registered source chunk, the offset
into it and its length. -/
structure Seg where
  cookie : UInt64
  off : UInt64
  len : UInt64
  deriving DecidableEq, Repr

namespace Seg

/-- The twenty-four bytes of a segment. -/
def encode (s : Seg) : List UInt8 :=
  leEncode 8 s.cookie.toNat ++ (leEncode 8 s.off.toNat ++ leEncode 8 s.len.toNat)

/-- The segment a byte string starts with. -/
def decode (bs : List UInt8) : Seg where
  cookie := UInt64.ofNat (leField bs 0 8)
  off := UInt64.ofNat (leField bs 8 8)
  len := UInt64.ofNat (leField bs 16 8)

@[simp] theorem encode_length (s : Seg) : s.encode.length = rdsSegSize := by
  simp only [encode, List.length_append, leEncode_length]

/-- A segment is read back as it was written. -/
theorem decode_encode (s : Seg) (rest : List UInt8) :
    decode (s.encode ++ rest) = s := by
  have hcookie : leField (s.encode ++ rest) 0 8 = s.cookie.toNat :=
    leField_of_split [] _ (by simp only [encode, List.append_assoc, List.nil_append]; rfl)
      rfl s.cookie.toNat_lt
  have hoff : leField (s.encode ++ rest) 8 8 = s.off.toNat :=
    leField_of_split (leEncode 8 s.cookie.toNat) _
      (by simp only [encode, List.append_assoc]; rfl)
      (by simp only [leEncode_length]) s.off.toNat_lt
  have hlen : leField (s.encode ++ rest) 16 8 = s.len.toNat :=
    leField_of_split (leEncode 8 s.cookie.toNat ++ leEncode 8 s.off.toNat) _
      (by simp only [encode, List.append_assoc]; rfl)
      (by simp only [List.length_append, leEncode_length]) s.len.toNat_lt
  simp only [decode, hcookie, hoff, hlen, UInt64.ofNat_toNat]

end Seg

/-- The segment array of a request, as it lies in the payload. -/
def encodeSegs (segs : List Seg) : List UInt8 := segs.flatMap Seg.encode

/-- The first `n` segments of a payload. -/
def decodeSegs : ℕ → List UInt8 → List Seg
  | 0, _ => []
  | n + 1, bs => Seg.decode bs :: decodeSegs n (bs.drop rdsSegSize)

@[simp] theorem encodeSegs_length (segs : List Seg) :
    (encodeSegs segs).length = segs.length * rdsSegSize := by
  induction segs with
  | nil => rfl
  | cons s segs ih =>
    rw [encodeSegs, List.flatMap_cons, List.length_append, Seg.encode_length]
    rw [encodeSegs] at ih
    rw [ih, List.length_cons]
    ring

@[simp] theorem decodeSegs_length (n : ℕ) (bs : List UInt8) :
    (decodeSegs n bs).length = n := by
  induction n generalizing bs with
  | zero => rfl
  | succ n ih => rw [decodeSegs, List.length_cons, ih]

/-- **A segment array is read back as it was written.** -/
theorem decodeSegs_encodeSegs (segs : List Seg) (rest : List UInt8) :
    decodeSegs segs.length (encodeSegs segs ++ rest) = segs := by
  induction segs with
  | nil => rfl
  | cons s segs ih =>
    have hsplit : encodeSegs (s :: segs) ++ rest
        = s.encode ++ (encodeSegs segs ++ rest) := by
      rw [encodeSegs, List.flatMap_cons, List.append_assoc]
      rfl
    rw [hsplit, List.length_cons, decodeSegs, Seg.decode_encode,
      List.drop_left' (Seg.encode_length s), ih]

/-! ## The ring handshake -/

/-- `struct rds_ring_info`: where the peer may write data and credit, and the
geometry of the ring. -/
structure RingInfo where
  ringCookie : UInt64
  creditCookie : UInt64
  slots : UInt32
  slotSize : UInt32
  deriving DecidableEq, Repr

namespace RingInfo

/-- `sizeof(struct rds_ring_info)`. -/
abbrev size : ℕ := 24

/-- The bytes of a handshake payload. -/
def encode (i : RingInfo) : List UInt8 :=
  leEncode 8 i.ringCookie.toNat ++ (leEncode 8 i.creditCookie.toNat
    ++ (leEncode 4 i.slots.toNat ++ leEncode 4 i.slotSize.toNat))

/-- The handshake payload a byte string starts with. -/
def decode (bs : List UInt8) : RingInfo where
  ringCookie := UInt64.ofNat (leField bs 0 8)
  creditCookie := UInt64.ofNat (leField bs 8 8)
  slots := UInt32.ofNat (leField bs 16 4)
  slotSize := UInt32.ofNat (leField bs 20 4)

@[simp] theorem encode_length (i : RingInfo) : i.encode.length = size := by
  simp only [encode, List.length_append, leEncode_length]

/-- **A handshake payload is read back as it was written.** -/
theorem decode_encode (i : RingInfo) : decode i.encode = i := by
  have hring : leField i.encode 0 8 = i.ringCookie.toNat :=
    leField_of_split [] _ (by rw [encode, List.nil_append])
      rfl i.ringCookie.toNat_lt
  have hcredit : leField i.encode 8 8 = i.creditCookie.toNat :=
    leField_of_split (leEncode 8 i.ringCookie.toNat) _ rfl
      (by simp only [leEncode_length]) i.creditCookie.toNat_lt
  have hslots : leField i.encode 16 4 = i.slots.toNat :=
    leField_of_split (leEncode 8 i.ringCookie.toNat
        ++ leEncode 8 i.creditCookie.toNat) _
      (by simp only [encode, List.append_assoc]; rfl)
      (by simp only [List.length_append, leEncode_length]) i.slots.toNat_lt
  have hsize : leField i.encode 20 4 = i.slotSize.toNat :=
    leField_of_split (leEncode 8 i.ringCookie.toNat
        ++ leEncode 8 i.creditCookie.toNat ++ leEncode 4 i.slots.toNat) []
      (by simp only [encode, List.append_assoc, List.append_nil])
      (by simp only [List.length_append, leEncode_length]) i.slotSize.toNat_lt
  simp only [decode, hring, hcredit, hslots, hsize, UInt32.ofNat_toNat,
    UInt64.ofNat_toNat]

end RingInfo

/-! ## Eager-ring slots -/

/-- `struct rds_ring_slot` with the payload bytes it carries and the trailing
generation word. -/
structure RingSlot where
  len : UInt32
  flags : UInt8
  op : UInt8
  tag : UInt64
  data : UInt64
  ack : UInt64
  payload : List UInt8
  gen : UInt32
  deriving DecidableEq, Repr

/-- A slot of a ring cleared with `memset`. -/
def RingSlot.zero : RingSlot where
  len := 0
  flags := 0
  op := 0
  tag := 0
  data := 0
  ack := 0
  payload := []
  gen := 0

/-- The slot header and generation word, `RDS_RING_HDR_SIZE` and
`RDS_RING_GEN_SIZE`. -/
abbrev rdsRingOverhead : ℕ := 36

/-- **Ring geometry**, as `RDS_INI` admits it: a power-of-two number of slots,
and slots that hold their own header, the generation word and eight bytes. Both
are kept in thirty-two bits. -/
structure RingGeom where
  slots : UInt32
  slotSize : UInt32
  /-- `rds_pow2`. -/
  slots_pow2 : ∃ k, slots.toNat = 2 ^ k
  slotSize_min : rdsRingOverhead + 8 ≤ slotSize.toNat

namespace RingGeom

/-- `rds_ring_payload_max`: the usable bytes of a slot. -/
def payload (g : RingGeom) : ℕ := g.slotSize.toNat - rdsRingOverhead

theorem slots_pos (g : RingGeom) : 0 < g.slots.toNat := by
  obtain ⟨k, hk⟩ := g.slots_pow2
  rw [hk]
  exact Nat.two_pow_pos k

end RingGeom
