import MfskCore.Uvpacket.Puncture

/-! The header of a uvpacket frame (`uvpacket/framing.rs`): one word of fields and a checksum over the word and the
payload. The checksum is the `crc` crate's. -/
namespace MfskCore.Uvpacket
open Library

def HEADER_BYTES : Nat := 4
def INFO_BYTES_PER_BLOCK : Nat := 12
def MAX_BLOCKS_PER_FRAME : Nat := 32
def MAX_PAYLOAD_BYTES : Nat := MAX_BLOCKS_PER_FRAME * INFO_BYTES_PER_BLOCK

structure FrameHeader where
  mode : Mode
  blockCount : UInt8
  appType : UInt8
  sequence : UInt8
  deriving DecidableEq

inductive PackError where
  | InvalidBlockCount (blockCount : UInt8)
  | InvalidAppType (appType : UInt8)
  | InvalidSequence (sequence : UInt8)
  | PayloadTooLarge (len : Nat)
  deriving DecidableEq

inductive UnpackError where
  | Truncated
  | CrcMismatch (expected computed : UInt16)
  | ReservedNotZero (reserved : UInt8)
  deriving DecidableEq

/-- `u16::to_be_bytes`. -/
def toBeBytes (w : UInt16) : List UInt8 := [(w >>> 8).toUInt8,w.toUInt8]

/-- `u16::from_be_bytes`. -/
def fromBeBytes (hi lo : UInt8) : UInt16 := hi.toUInt16 <<< 8 ||| lo.toUInt16

def headerWord (header : FrameHeader) : UInt16 :=
  let blocksBits := (header.blockCount - 1).toUInt16 &&& 0x1F
  let appBits := header.appType.toUInt16 &&& 0xF
  let seqBits := header.sequence.toUInt16 &&& 0x1F
  blocksBits <<< 11 ||| appBits <<< 7 ||| seqBits <<< 2

def blocksCode (headerWord : UInt16) : UInt8 := (headerWord >>> 11 &&& 0x1F).toUInt8
def appTypeOf (headerWord : UInt16) : UInt8 := (headerWord >>> 7 &&& 0x0F).toUInt8
def sequenceOf (headerWord : UInt16) : UInt8 := (headerWord >>> 2 &&& 0x1F).toUInt8
def reservedOf (headerWord : UInt16) : UInt8 := (headerWord &&& 0x3).toUInt8

section Codec
variable (crc16 : List UInt8 → UInt16)

def packHeader (header : FrameHeader) (payload : List UInt8) : Except PackError (List UInt8) :=
  if ¬(1 ≤ header.blockCount ∧ header.blockCount ≤ MAX_BLOCKS_PER_FRAME.toUInt8) then
    .error (.InvalidBlockCount header.blockCount)
  else if header.appType > 15 then .error (.InvalidAppType header.appType)
  else if header.sequence > 31 then .error (.InvalidSequence header.sequence)
  else if payload.length > MAX_PAYLOAD_BYTES then .error (.PayloadTooLarge payload.length)
  else
    let out := toBeBytes (headerWord header)
    .ok (out ++ toBeBytes (crc16 (out ++ payload)))

def unpackHeader (bytes : List UInt8) (mode : Mode) : Except UnpackError (FrameHeader × List UInt8) :=
  match bytes with
  | b0 :: b1 :: b2 :: b3 :: payload =>
    let headerWord := fromBeBytes b0 b1
    let crcRecv := fromBeBytes b2 b3
    let crcCalc := crc16 ([b0,b1] ++ payload)
    if crcCalc ≠ crcRecv then .error (.CrcMismatch crcRecv crcCalc)
    else
      let reserved := reservedOf headerWord
      if reserved ≠ 0 then .error (.ReservedNotZero reserved)
      else .ok (⟨mode,blocksCode headerWord + 1,appTypeOf headerWord,sequenceOf headerWord⟩,payload)
  | _ => .error .Truncated

end Codec

section Word

theorem toNat_fromBeBytes (hi lo : UInt8) : (fromBeBytes hi lo).toNat = hi.toNat * 2^8 + lo.toNat := by
  have hhi := hi.toNat_lt
  have hlo := lo.toNat_lt
  rw [fromBeBytes,UInt16.toNat_or,UInt16.toNat_shiftLeft,UInt8.toNat_toUInt16,UInt8.toNat_toUInt16]
  show hi.toNat <<< 8 % 2^16 ||| lo.toNat = _
  rw [Nat.shiftLeft_eq,Nat.mod_eq_of_lt (by omega),or_eq_add 8 (Nat.dvd_mul_left _ _) hlo]

theorem toNat_highByte (w : UInt16) : (w >>> 8).toUInt8.toNat = w.toNat / 2^8 := by
  have hw := w.toNat_lt
  rw [UInt16.toNat_toUInt8,UInt16.toNat_shiftRight]
  show w.toNat >>> 8 % 2^8 = _
  rw [Nat.shiftRight_eq_div_pow]
  omega

theorem fromBeBytes_toBeBytes (w : UInt16) : fromBeBytes (w >>> 8).toUInt8 w.toUInt8 = w := by
  apply UInt16.toNat_inj.1
  rw [toNat_fromBeBytes,toNat_highByte,UInt16.toNat_toUInt8]
  omega

theorem toBeBytes_fromBeBytes (hi lo : UInt8) : toBeBytes (fromBeBytes hi lo) = [hi,lo] := by
  have hlo := lo.toNat_lt
  have hhigh : (fromBeBytes hi lo >>> 8).toUInt8 = hi := by
    apply UInt8.toNat_inj.1
    rw [toNat_highByte,toNat_fromBeBytes]
    omega
  have hlow : (fromBeBytes hi lo).toUInt8 = lo := by
    apply UInt8.toNat_inj.1
    rw [UInt16.toNat_toUInt8,toNat_fromBeBytes]
    omega
  rw [toBeBytes,hhigh,hlow]

/-- The word of a header is its fields in their places. -/
theorem toNat_headerWord {header : FrameHeader} (hblocks : 1 ≤ header.blockCount.toNat ∧ header.blockCount.toNat ≤ 32)
    (happ : header.appType.toNat < 16) (hseq : header.sequence.toNat < 32) : (headerWord header).toNat =
      (header.blockCount.toNat - 1) * 2^11 + header.appType.toNat * 2^7 + header.sequence.toNat * 2^2 := by
  have hb : ((header.blockCount - 1).toUInt16 &&& 0x1F).toNat = header.blockCount.toNat - 1 := by
    have hone : 1 ≤ header.blockCount := UInt8.le_iff_toNat_le.2 hblocks.1
    rw [UInt16.toNat_and,UInt8.toNat_toUInt16,UInt8.toNat_sub_of_le _ _ hone]
    show (_ - 1) &&& (2^5 - 1) = _
    rw [Nat.and_two_pow_sub_one_eq_mod]
    omega
  have ha : (header.appType.toUInt16 &&& 0xF).toNat = header.appType.toNat := by
    rw [UInt16.toNat_and,UInt8.toNat_toUInt16]
    show _ &&& (2^4 - 1) = _
    rw [Nat.and_two_pow_sub_one_eq_mod]
    omega
  have hs : (header.sequence.toUInt16 &&& 0x1F).toNat = header.sequence.toNat := by
    rw [UInt16.toNat_and,UInt8.toNat_toUInt16]
    show _ &&& (2^5 - 1) = _
    rw [Nat.and_two_pow_sub_one_eq_mod]
    omega
  rw [headerWord,UInt16.toNat_or,UInt16.toNat_or,UInt16.toNat_shiftLeft,UInt16.toNat_shiftLeft,UInt16.toNat_shiftLeft,
    hb,ha,hs]
  show (header.blockCount.toNat - 1) <<< 11 % 2^16 ||| header.appType.toNat <<< 7 % 2^16 |||
    header.sequence.toNat <<< 2 % 2^16 = _
  rw [Nat.shiftLeft_eq,Nat.shiftLeft_eq,Nat.shiftLeft_eq,Nat.mod_eq_of_lt (by omega),Nat.mod_eq_of_lt (by omega),
    Nat.mod_eq_of_lt (by omega),or_eq_add 11 (Nat.dvd_mul_left _ _) (by omega),or_eq_add 7 (by omega) (by omega)]

theorem toNat_blocksCode (w : UInt16) : (blocksCode w).toNat = w.toNat / 2^11 % 2^5 := by
  rw [blocksCode,UInt16.toNat_toUInt8,UInt16.toNat_and,UInt16.toNat_shiftRight]
  show (w.toNat >>> 11 &&& (2^5 - 1)) % 2^8 = _
  rw [Nat.shiftRight_eq_div_pow,Nat.and_two_pow_sub_one_eq_mod]
  omega

theorem toNat_appTypeOf (w : UInt16) : (appTypeOf w).toNat = w.toNat / 2^7 % 2^4 := by
  rw [appTypeOf,UInt16.toNat_toUInt8,UInt16.toNat_and,UInt16.toNat_shiftRight]
  show (w.toNat >>> 7 &&& (2^4 - 1)) % 2^8 = _
  rw [Nat.shiftRight_eq_div_pow,Nat.and_two_pow_sub_one_eq_mod]
  omega

theorem toNat_sequenceOf (w : UInt16) : (sequenceOf w).toNat = w.toNat / 2^2 % 2^5 := by
  rw [sequenceOf,UInt16.toNat_toUInt8,UInt16.toNat_and,UInt16.toNat_shiftRight]
  show (w.toNat >>> 2 &&& (2^5 - 1)) % 2^8 = _
  rw [Nat.shiftRight_eq_div_pow,Nat.and_two_pow_sub_one_eq_mod]
  omega

theorem toNat_reservedOf (w : UInt16) : (reservedOf w).toNat = w.toNat % 2^2 := by
  rw [reservedOf,UInt16.toNat_toUInt8,UInt16.toNat_and]
  show (w.toNat &&& (2^2 - 1)) % 2^8 = _
  rw [Nat.and_two_pow_sub_one_eq_mod]
  omega

/-- The fields that a header may have. -/
structure FrameHeader.Valid (header : FrameHeader) : Prop where
  blocks : 1 ≤ header.blockCount.toNat ∧ header.blockCount.toNat ≤ 32
  app : header.appType.toNat < 16
  seq : header.sequence.toNat < 32

/-- The fields as they are read. -/
def headerOf (w : UInt16) (mode : Mode) : FrameHeader := ⟨mode,blocksCode w + 1,appTypeOf w,sequenceOf w⟩

theorem toNat_blockCount (w : UInt16) (mode : Mode) : (headerOf w mode).blockCount.toNat = w.toNat / 2^11 % 2^5 + 1 := by
  have h := toNat_blocksCode w
  rw [headerOf,UInt8.toNat_add,h]
  show (w.toNat / 2^11 % 2^5 + 1) % 2^8 = _
  omega

theorem valid_headerOf (w : UInt16) (mode : Mode) : (headerOf w mode).Valid := by
  refine ⟨?_,?_,?_⟩
  · rw [toNat_blockCount]
    omega
  · rw [headerOf,toNat_appTypeOf]
    omega
  · rw [headerOf,toNat_sequenceOf]
    omega

theorem headerOf_headerWord {header : FrameHeader} (h : header.Valid) :
    headerOf (headerWord header) header.mode = header ∧ reservedOf (headerWord header) = 0 := by
  have hword := toNat_headerWord h.blocks h.app h.seq
  obtain ⟨⟨hlo,hhi⟩,happ,hseq⟩ := h
  have hb : blocksCode (headerWord header) + 1 = header.blockCount := by
    apply UInt8.toNat_inj.1
    refine (toNat_blockCount _ header.mode).trans ?_
    rw [hword]
    omega
  have ha : appTypeOf (headerWord header) = header.appType := by
    apply UInt8.toNat_inj.1
    rw [toNat_appTypeOf,hword]
    omega
  have hs : sequenceOf (headerWord header) = header.sequence := by
    apply UInt8.toNat_inj.1
    rw [toNat_sequenceOf,hword]
    omega
  refine ⟨?_,?_⟩
  · rw [headerOf,hb,ha,hs]
  · apply UInt8.toNat_inj.1
    rw [toNat_reservedOf,hword]
    show _ = 0
    omega

theorem headerWord_headerOf {w : UInt16} (mode : Mode) (h : reservedOf w = 0) : headerWord (headerOf w mode) = w := by
  obtain ⟨hblocks,happ,hseq⟩ := valid_headerOf w mode
  have hrsv := toNat_reservedOf w
  have hw := w.toNat_lt
  rw [h] at hrsv
  apply UInt16.toNat_inj.1
  rw [toNat_headerWord hblocks happ hseq,toNat_blockCount,headerOf,toNat_appTypeOf,toNat_sequenceOf]
  have hzero : (0 : UInt8).toNat = 0 := rfl
  omega

end Word

section RoundTrip
variable {crc16 : List UInt8 → UInt16} {header : FrameHeader} {payload : List UInt8}

theorem packHeader_ok (h : header.Valid) (hlen : payload.length ≤ MAX_PAYLOAD_BYTES) :
    packHeader crc16 header payload = .ok (toBeBytes (headerWord header) ++
      toBeBytes (crc16 (toBeBytes (headerWord header) ++ payload))) := by
  rw [packHeader,if_neg,if_neg,if_neg,if_neg (Nat.not_lt.2 hlen)]
  · exact fun hgt => absurd (UInt8.lt_iff_toNat_lt.1 hgt) (Nat.not_lt.2 (Nat.le_of_lt_succ h.seq))
  · exact fun hgt => absurd (UInt8.lt_iff_toNat_lt.1 hgt) (Nat.not_lt.2 (Nat.le_of_lt_succ h.app))
  · exact not_not.2 ⟨UInt8.le_iff_toNat_le.2 h.blocks.1,UInt8.le_iff_toNat_le.2 h.blocks.2⟩

/-- What is packed is valid and fits. -/
theorem valid_of_packHeader {bytes : List UInt8} (h : packHeader crc16 header payload = .ok bytes) :
    header.Valid ∧ payload.length ≤ MAX_PAYLOAD_BYTES := by
  rw [packHeader] at h
  split at h
  · exact absurd h (by simp)
  rename_i hblocks
  split at h
  · exact absurd h (by simp)
  rename_i happ
  split at h
  · exact absurd h (by simp)
  rename_i hseq
  split at h
  · exact absurd h (by simp)
  rename_i hlen
  obtain ⟨hlo,hhi⟩ := not_not.1 hblocks
  exact ⟨⟨⟨UInt8.le_iff_toNat_le.1 hlo,UInt8.le_iff_toNat_le.1 hhi⟩,
    Nat.lt_succ_of_le (Nat.not_lt.1 fun hgt => happ (UInt8.lt_iff_toNat_lt.2 hgt)),
    Nat.lt_succ_of_le (Nat.not_lt.1 fun hgt => hseq (UInt8.lt_iff_toNat_lt.2 hgt))⟩,Nat.not_lt.1 hlen⟩

theorem unpackHeader_of_crc {w : UInt16} {mode : Mode} (h : reservedOf w = 0) :
    unpackHeader crc16 (toBeBytes w ++ toBeBytes (crc16 (toBeBytes w ++ payload)) ++ payload) mode =
      .ok (headerOf w mode,payload) := by
  show (if crc16 (toBeBytes w ++ payload) ≠ fromBeBytes _ _ then _ else _) = _
  rw [fromBeBytes_toBeBytes,if_neg (not_not.2 rfl)]
  show (if reservedOf (fromBeBytes _ _) ≠ 0 then _ else _) = _
  rw [fromBeBytes_toBeBytes,if_neg (not_not.2 h)]
  rfl

/-- An accepted frame has the checksum of its word and payload, and nothing in the reserved bits. -/
theorem of_unpackHeader {bytes : List UInt8} {mode : Mode} {r : FrameHeader × List UInt8}
    (h : unpackHeader crc16 bytes mode = .ok r) : ∃ w, reservedOf w = 0 ∧ r.1 = headerOf w mode ∧
      bytes = toBeBytes w ++ toBeBytes (crc16 (toBeBytes w ++ r.2)) ++ r.2 := by
  obtain _ | ⟨b0,_ | ⟨b1,_ | ⟨b2,_ | ⟨b3,payload⟩⟩⟩⟩ := bytes
  · exact absurd h (by simp [unpackHeader])
  · exact absurd h (by simp [unpackHeader])
  · exact absurd h (by simp [unpackHeader])
  · exact absurd h (by simp [unpackHeader])
  rw [unpackHeader] at h
  dsimp only at h
  split at h
  · exact absurd h (by simp)
  rename_i hcrc
  split at h
  · exact absurd h (by simp)
  rename_i hreserved
  obtain rfl := Except.ok.inj h
  refine ⟨fromBeBytes b0 b1,not_not.1 hreserved,rfl,?_⟩
  rw [toBeBytes_fromBeBytes,not_not.1 hcrc,toBeBytes_fromBeBytes]
  rfl

/-- The accepted frames are the packed ones: a header reads back from its bytes, and what is accepted packs to the bytes that
it was read from. -/
theorem header_round_trip (crc16 : List UInt8 → UInt16) (header : FrameHeader) (payload bytes : List UInt8) :
    packHeader crc16 header payload = .ok bytes ↔ bytes.length = HEADER_BYTES ∧ payload.length ≤ MAX_PAYLOAD_BYTES ∧
      unpackHeader crc16 (bytes ++ payload) header.mode = .ok (header,payload) := by
  constructor
  · intro h
    obtain ⟨hvalid,hlen⟩ := valid_of_packHeader h
    obtain ⟨hheader,hreserved⟩ := headerOf_headerWord hvalid
    rw [packHeader_ok hvalid hlen] at h
    obtain rfl := Except.ok.inj h
    refine ⟨rfl,hlen,?_⟩
    rw [unpackHeader_of_crc hreserved,hheader]
  · rintro ⟨hbytes,hlen,h⟩
    obtain ⟨w,hreserved,hheader,hsplit⟩ := of_unpackHeader h
    obtain ⟨rfl,-⟩ := List.append_inj hsplit hbytes
    replace hheader : header = headerOf w header.mode := hheader
    have hvalid : header.Valid := by
      rw [hheader]
      exact valid_headerOf w header.mode
    have hword : headerWord header = w := by
      rw [hheader]
      exact headerWord_headerOf header.mode hreserved
    rw [packHeader_ok hvalid hlen,hword]

end RoundTrip

end MfskCore.Uvpacket
