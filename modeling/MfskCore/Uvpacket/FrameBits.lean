import MfskCore.Fec.LdpcErasures
import MfskCore.Uvpacket.HeaderBursts
import MfskCore.Uvpacket.Interleaver

/-! The bits of a uvpacket frame (`uvpacket/tx.rs`) and what the receiver reads from their soft values
(`uvpacket/rx.rs`): a header codeword, then the punctured and interleaved codewords of the payload. -/
namespace MfskCore.Uvpacket
open Fec Library Rust

/-- Payload bits of one block. -/
def PAYLOAD_BITS_PER_BLOCK : Nat := INFO_BYTES_PER_BLOCK * 8

section Bits

/-- The bits of a byte, the highest first. -/
def byteMsb (byte : UInt8) : List UInt8 := (List.range 8).map fun bitIdx => byte >>> UInt8.ofNat (7 - bitIdx) &&& 1

/-- The leading bits are overwritten; no value is a panic. -/
def bytesToBitsMsb (bytes bits : List UInt8) : Option (List UInt8) :=
  if bytes.length * 8 ≤ bits.length then some (bytes.flatMap byteMsb ++ bits.drop (bytes.length * 8)) else none

def bitsToBytesMsb (bits : List UInt8) : List UInt8 :=
  (List.range (bits.length / 8)).map fun byteIdx => (List.range 8).foldl (fun byte bitIdx =>
    if bits.getD (byteIdx * 8 + bitIdx) 0 ≠ 0 then byte ||| 1 <<< UInt8.ofNat (7 - bitIdx) else byte) 0

theorem length_flatMap_byteMsb (bytes : List UInt8) : (bytes.flatMap byteMsb).length = bytes.length * 8 := by
  induction bytes with
  | nil => rfl
  | cons byte bytes ih =>
    have hlen : (byteMsb byte).length = 8 := rfl
    rw [List.flatMap_cons,List.length_append,ih,hlen,List.length_cons,Nat.succ_mul,Nat.add_comm]

theorem byteMsb_lt_two (bytes : List UInt8) : ∀ b ∈ bytes.flatMap byteMsb, b.toNat < 2 := by
  intro b hb
  obtain ⟨byte,-,hb⟩ := List.mem_flatMap.1 hb
  obtain ⟨i,-,rfl⟩ := List.mem_map.1 hb
  rw [UInt8.toNat_and]
  exact Nat.and_lt_two_pow _ (by decide : (1 : UInt8).toNat < 2^1)

/-- A byte is read back from its bits. -/
theorem foldl_byteMsb (byte : UInt8) : (List.range 8).foldl (fun acc bitIdx =>
    if (byteMsb byte).getD bitIdx 0 ≠ 0 then acc ||| 1 <<< UInt8.ofNat (7 - bitIdx) else acc) 0 = byte := by
  have hall : ∀ n < 256, (List.range 8).foldl (fun acc bitIdx =>
      if (byteMsb (UInt8.ofNat n)).getD bitIdx 0 ≠ 0 then acc ||| 1 <<< UInt8.ofNat (7 - bitIdx) else acc) 0 =
        UInt8.ofNat n := by decide +kernel
  have hbyte := hall byte.toNat byte.toNat_lt
  rwa [UInt8.ofNat_toNat] at hbyte

theorem bitsToBytesMsb_flatMap (bytes : List UInt8) : bitsToBytesMsb (bytes.flatMap byteMsb) = bytes := by
  induction bytes with
  | nil => rfl
  | cons byte bytes ih =>
    have hlen : (byteMsb byte).length = 8 := rfl
    have hcount : ((byte :: bytes).flatMap byteMsb).length / 8 = bytes.length + 1 := by
      rw [length_flatMap_byteMsb,Nat.mul_div_cancel _ (by decide),List.length_cons]
    have hrest : (bytes.flatMap byteMsb).length / 8 = bytes.length := by
      rw [length_flatMap_byteMsb,Nat.mul_div_cancel _ (by decide)]
    rw [bitsToBytesMsb,hcount,List.range_succ_eq_map (n := bytes.length),List.map_cons,List.map_map]
    rw [bitsToBytesMsb,hrest] at ih
    refine congrArg₂ List.cons ?_ (Eq.trans (List.map_congr_left fun i _ => ?_) ih)
    · refine Eq.trans (List.foldl_ext _ _ _ fun acc i hi => ?_) (foldl_byteMsb byte)
      rw [Nat.zero_mul,Nat.zero_add,List.flatMap_cons,List.getD_append _ _ _ _ (hlen.symm ▸ List.mem_range.1 hi)]
    · refine List.foldl_ext _ _ _ fun acc k hk => ?_
      have hplace : (i + 1) * 8 + k - 8 = i * 8 + k := by omega
      rw [List.flatMap_cons,Nat.succ_eq_add_one,List.getD_append_right _ _ _ _ (by omega),hlen,hplace]

end Bits

section Encode
variable (crc16 : List UInt8 → UInt16)

/-- A block of bytes as a codeword, behind them the information bits that stay clear. -/
def encodeBlock (infoBytes : List UInt8) : Option (List UInt8) :=
  (bytesToBitsMsb infoBytes (List.replicate PAYLOAD_BITS_PER_BLOCK 0)).map fun bits =>
    LdpcCodec.Ldpc240_101.encode (bits ++ List.replicate (K_INFO - PAYLOAD_BITS_PER_BLOCK) 0)

/-- The payload with zeros up to the capacity of its blocks. -/
def paddedPayload (payloadCapacity : Nat) (payload : List UInt8) : List UInt8 :=
  payload ++ List.replicate (payloadCapacity - payload.length) 0

def payloadChunk (padded : List UInt8) (blockIdx : Nat) : List UInt8 :=
  (padded.drop (blockIdx * INFO_BYTES_PER_BLOCK)).take INFO_BYTES_PER_BLOCK

/-- `encode_into` up to the bits that become phases: the header codeword, then the interleaved payload. No value is a
panic. -/
def dataBits (header : FrameHeader) (payload : List UInt8) : Option (Except PackError (List UInt8)) :=
  let mode := header.mode
  let nBlocks := header.blockCount.toNat
  let payloadCapacity := nBlocks * INFO_BYTES_PER_BLOCK
  if payload.length > payloadCapacity then some (.error (.PayloadTooLarge payload.length))
  else
    let padded := paddedPayload payloadCapacity payload
    match packHeader crc16 header padded with
    | .error err => some (.error err)
    | .ok headerBytes => do
      let headerInfoBytes := headerBytes ++ List.replicate (INFO_BYTES_PER_BLOCK - HEADER_BYTES) 0
      let headerCodeword ← encodeBlock headerInfoBytes
      let interleaverIn ← (List.range nBlocks).mapM fun blockIdx =>
        (encodeBlock (payloadChunk padded blockIdx)).bind fun codeword => puncture codeword mode
      let interleaved ← interleave interleaverIn.flatten nBlocks
      pure (.ok (headerCodeword ++ interleaved))

end Encode

section Decode

inductive DecodeError where
  | Truncated
  | PayloadTruncated (neededSamples : Nat)
  | HeaderFecFailed
  | PayloadFecFailed
  | Crc (err : UnpackError)
  deriving DecidableEq

structure DecodedFrame (F : Type) where
  appType : UInt8
  sequence : UInt8
  mode : Mode
  blockCount : UInt8
  payload : List UInt8
  snrDb : F
  deriving DecidableEq

/-- Speculative: the checksum covers the payload too, which is not there yet. -/
def peekHeaderBlockCount (headerInfo : List UInt8) : Except DecodeError (UInt8 × UInt8 × UInt8) :=
  match headerInfo with
  | b0 :: b1 :: _ :: _ :: _ =>
    let headerWord := fromBeBytes b0 b1
    if reservedOf headerWord ≠ 0 then .error .HeaderFecFailed
    else .ok (blocksCode headerWord + 1,appTypeOf headerWord,sequenceOf headerWord)
  | _ => .error .HeaderFecFailed

variable {F : Type} [F32 F]

/-- What the demodulator hands on: the soft values of the header block, and those of so many payload symbols with the
strength of the signal, or the number of samples that they need. No value is a panic. -/
structure Demodulated (F : Type) where
  headerLlrs : Option (List F)
  payloadLlrs : Nat → Option (Except Nat (List F × F))

/-- A computation that panics or fails with one of the errors. -/
abbrev Decoding (α : Type) : Type := ExceptT DecodeError Option α

def ofExcept {α ε : Type} (asError : ε → DecodeError) (r : Except ε α) : Decoding α := ExceptT.mk (some (r.mapError asError))

variable (crc16 : List UInt8 → UInt16) (sorter : SortUnstable) (useNpre : Bool) (fecOpts : DecodeOpts F)

/-- The bytes of a decoded block, or an error when it is not decoded. -/
def decodeBlock (llrs : List F) (failed : DecodeError) : Decoding (List UInt8) := do
  let found : Option FecResult ← ExceptT.lift (LdpcCodec.Ldpc240_101.decodeSoft sorter useNpre llrs fecOpts)
  match found with
  | none => throw failed
  | some result =>
    let bits ← ExceptT.lift (checkedTake PAYLOAD_BITS_PER_BLOCK result.info)
    pure (bitsToBytesMsb bits)

/-- `decode_at_inner` from the soft values on. -/
def decodeAtInner (received : Demodulated F) (mode : Mode) : Decoding (DecodedFrame F) := do
  let headerLlrs ← ExceptT.lift received.headerLlrs
  let headerInfoBytes ← decodeBlock sorter useNpre fecOpts headerLlrs .HeaderFecFailed
  let (protoNBlocks,_,_) ← ofExcept id (peekHeaderBlockCount headerInfoBytes)
  let blockChBits := mode.chBitsPerBlock
  let payloadSyms := protoNBlocks.toNat * blockChBits / 2
  let demodulated ← ExceptT.lift (received.payloadLlrs payloadSyms)
  let (payloadLlrs,snrDb) ← ofExcept .PayloadTruncated demodulated
  let llrPerBlock ← ExceptT.lift (deinterleaveLlr payloadLlrs protoNBlocks.toNat)
  let decodedInfoBytes ← llrPerBlock.foldlM (fun bytes blockLlrs => do
    let fullLlrs ← ExceptT.lift (dePunctureLlr blockLlrs mode)
    let infoBytes ← decodeBlock sorter useNpre fecOpts fullLlrs .PayloadFecFailed
    pure (bytes ++ infoBytes)) []
  let (frameHeader,payloadSlice) ←
    ofExcept .Crc (unpackHeader crc16 (headerInfoBytes.take HEADER_BYTES ++ decodedInfoBytes) mode)
  pure ⟨frameHeader.appType,frameHeader.sequence,mode,frameHeader.blockCount,payloadSlice,snrDb⟩

end Decode

section Blocks
variable {F : Type} [F32 F] {sorter : SortUnstable} {useNpre : Bool} {fecOpts : DecodeOpts F} {soft : UInt8 → F}

/-- The information of a block of bytes. -/
def infoBits (bytes : List UInt8) : List UInt8 :=
  bytes.flatMap byteMsb ++ List.replicate (K_INFO - PAYLOAD_BITS_PER_BLOCK) 0

theorem isBits_infoBits {bytes : List UInt8} (h : bytes.length = INFO_BYTES_PER_BLOCK) :
    IsBits LdpcCodec.Ldpc240_101.params.K (infoBits bytes) := by
  refine ⟨?_,fun b hb => ?_⟩
  · rw [infoBits,List.length_append,length_flatMap_byteMsb,List.length_replicate,h]
    rfl
  · rcases List.mem_append.1 hb with hb | hb
    · exact UInt8.lt_iff_toNat_lt.2 (byteMsb_lt_two bytes b hb)
    · obtain rfl := List.eq_of_mem_replicate hb
      decide

theorem encodeBlock_eq {bytes : List UInt8} (h : bytes.length = INFO_BYTES_PER_BLOCK) :
    encodeBlock bytes = some (LdpcCodec.Ldpc240_101.encode (infoBits bytes)) := by
  have hle : bytes.length * 8 ≤ (List.replicate PAYLOAD_BITS_PER_BLOCK (0 : UInt8)).length := by
    rw [List.length_replicate,h]
    exact Nat.le_refl _
  have hnone : (List.replicate PAYLOAD_BITS_PER_BLOCK (0 : UInt8)).drop (bytes.length * 8) = [] := by
    rw [h]
    rfl
  rw [encodeBlock,bytesToBitsMsb,if_pos hle,hnone,List.append_nil]
  rfl

/-- The decoder returns the information of every codeword that is heard without noise, where the positions that are not
sent are erased. -/
def ReturnsInfo (sorter : SortUnstable) (useNpre : Bool) (fecOpts : DecodeOpts F) (soft : UInt8 → F) (keep : List Nat) :
    Prop :=
  ∀ info, IsBits LdpcCodec.Ldpc240_101.params.K info → ∀ llrs : List F, llrs.length = N →
    (∀ i < N, llrs.getD i 0.0 = if i ∈ keep then soft ((LdpcCodec.Ldpc240_101.encode info).getD i 0) else 0.0) →
    ∃ r, LdpcCodec.Ldpc240_101.decodeSoft sorter useNpre llrs fecOpts = some (some r) ∧ r.info = info

theorem decodeBlock_eq {keep : List Nat} (hdecoder : ReturnsInfo sorter useNpre fecOpts soft keep) {bytes : List UInt8}
    (h : bytes.length = INFO_BYTES_PER_BLOCK) {llrs : List F} (hlen : llrs.length = N)
    (hheard : ∀ i < N, llrs.getD i 0.0 =
      if i ∈ keep then soft ((LdpcCodec.Ldpc240_101.encode (infoBits bytes)).getD i 0) else 0.0) (failed : DecodeError) :
    decodeBlock sorter useNpre fecOpts llrs failed = pure bytes := by
  obtain ⟨r,hr,hinfo⟩ := hdecoder (infoBits bytes) (isBits_infoBits h) llrs hlen hheard
  have hbits : checkedTake PAYLOAD_BITS_PER_BLOCK r.info = some (bytes.flatMap byteMsb) := by
    have hlength : (bytes.flatMap byteMsb).length = PAYLOAD_BITS_PER_BLOCK := by
      rw [length_flatMap_byteMsb,h]
      rfl
    rw [hinfo,infoBits,checkedTake_eq (by rw [List.length_append]; omega),← hlength,List.take_left']
    rfl
  rw [decodeBlock,hr]
  show (do
    let bits ← ExceptT.lift (checkedTake PAYLOAD_BITS_PER_BLOCK r.info)
    pure (bitsToBytesMsb bits) : Decoding (List UInt8)) = pure bytes
  rw [hbits]
  show (pure (bitsToBytesMsb (bytes.flatMap byteMsb)) : Decoding (List UInt8)) = pure bytes
  rw [bitsToBytesMsb_flatMap]

theorem length_encode_infoBits {bytes : List UInt8} (h : bytes.length = INFO_BYTES_PER_BLOCK) :
    (LdpcCodec.Ldpc240_101.encode (infoBits bytes)).length = N :=
  (isBits_encode (LdpcCodec.consistent .Ldpc240_101).size (isBits_infoBits h)).1

theorem length_payloadChunk {padded : List UInt8} {n : Nat} (h : padded.length = n * INFO_BYTES_PER_BLOCK) {k : Nat}
    (hk : k < n) : (payloadChunk padded k).length = INFO_BYTES_PER_BLOCK := by
  have hend : (k + 1) * INFO_BYTES_PER_BLOCK ≤ n * INFO_BYTES_PER_BLOCK := Nat.mul_le_mul_right _ hk
  rw [Nat.succ_mul] at hend
  rw [payloadChunk,List.length_take,List.length_drop]
  omega

theorem flatMap_payloadChunk {padded : List UInt8} {n : Nat} (h : padded.length = n * INFO_BYTES_PER_BLOCK) :
    (List.range n).flatMap (payloadChunk padded) = padded := by
  have hfront : ∀ m, (List.range m).flatMap (payloadChunk padded) = padded.take (m * INFO_BYTES_PER_BLOCK) := by
    intro m
    induction m with
    | zero => rw [Nat.zero_mul,List.take_zero]; rfl
    | succ m ih => rw [List.range_succ,List.flatMap_append,List.flatMap_singleton,ih,payloadChunk,Nat.succ_mul,List.take_add]
  rw [hfront,← h,List.take_length]

/-- The transmitted bits of a block. -/
def sentBlock (keep : List Nat) (bytes : List UInt8) : List UInt8 :=
  keep.map fun i => (LdpcCodec.Ldpc240_101.encode (infoBits bytes)).getD i 0

/-- Blocks that are decoded one by one are put together. -/
theorem foldlM_blocks {β γ : Type} {front : β → Decoding γ} {back : γ → Decoding (List UInt8)}
    {bytesOf : β → List UInt8} {l : List β} (h : ∀ b ∈ l, (front b >>= back) = pure (bytesOf b)) (acc : List UInt8) :
    l.foldlM (fun bytes b => do
      let middle ← front b
      let infoBytes ← back middle
      pure (bytes ++ infoBytes)) acc = (pure (acc ++ l.flatMap bytesOf) : Decoding (List UInt8)) := by
  induction l generalizing acc with
  | nil => rw [List.foldlM_nil,List.flatMap_nil,List.append_nil]
  | cons b l ih =>
    rw [List.foldlM_cons,← bind_assoc (front b),h b List.mem_cons_self,pure_bind,pure_bind,
      ih fun c hc => h c (List.mem_cons_of_mem b hc),List.flatMap_cons,List.append_assoc]

end Blocks

section Frames
variable {F : Type} [F32 F] {crc16 : List UInt8 → UInt16} {sorter : SortUnstable} {useNpre : Bool}
  {fecOpts : DecodeOpts F} {soft : UInt8 → F} {header : FrameHeader} {mode : Mode} {payload padded : List UInt8}
  {keep : List Nat} {nBlocks : Nat}

/-- The bytes of the header block. -/
def headerInfo (crc16 : List UInt8 → UInt16) (header : FrameHeader) (padded : List UInt8) : List UInt8 :=
  toBeBytes (headerWord header) ++ toBeBytes (crc16 (toBeBytes (headerWord header) ++ padded)) ++
    List.replicate (INFO_BYTES_PER_BLOCK - HEADER_BYTES) 0

/-- The interleaved payload. -/
def sentPayload (mode : Mode) (keep : List Nat) (nBlocks : Nat) (padded : List UInt8) : List UInt8 :=
  (buildPermutation nBlocks mode.chBitsPerBlock).map fun p =>
    ((List.range nBlocks).flatMap fun k => sentBlock keep (payloadChunk padded k)).getD p 0

theorem length_paddedPayload {capacity : Nat} (h : payload.length ≤ capacity) :
    (paddedPayload capacity payload).length = capacity := by
  rw [paddedPayload,List.length_append,List.length_replicate,Nat.add_sub_cancel' h]

theorem length_headerInfo (crc16 : List UInt8 → UInt16) (header : FrameHeader) (padded : List UInt8) :
    (headerInfo crc16 header padded).length = INFO_BYTES_PER_BLOCK := rfl

theorem length_sentBlock (hkeeps : Keeps mode keep) (bytes : List UInt8) :
    (sentBlock keep bytes).length = mode.chBitsPerBlock := (List.length_map _).trans hkeeps.length

theorem length_flatMap_sentBlock (hkeeps : Keeps mode keep) (n : Nat) (padded : List UInt8) :
    ((List.range n).flatMap fun k => sentBlock keep (payloadChunk padded k)).length = n * mode.chBitsPerBlock :=
  length_flatMap_range fun _ _ => length_sentBlock hkeeps _

theorem length_sentPayload : (sentPayload mode keep nBlocks padded).length = nBlocks * mode.chBitsPerBlock := by
  rw [sentPayload,List.length_map,buildPermutation_eq,List.length_map,List.length_range]

theorem dataBits_eq (hkeep : keepIndices header.mode = some keep) (hkeeps : Keeps header.mode keep) (h : header.Valid)
    (hlen : payload.length ≤ header.blockCount.toNat * INFO_BYTES_PER_BLOCK)
    (hpadded : paddedPayload (header.blockCount.toNat * INFO_BYTES_PER_BLOCK) payload = padded) :
    dataBits crc16 header payload = some (.ok (LdpcCodec.Ldpc240_101.encode (infoBits (headerInfo crc16 header padded)) ++
      sentPayload header.mode keep header.blockCount.toNat padded)) := by
  have hlength : padded.length = header.blockCount.toNat * INFO_BYTES_PER_BLOCK := hpadded ▸ length_paddedPayload hlen
  have hfits : padded.length ≤ MAX_PAYLOAD_BYTES := by
    rw [hlength]
    exact Nat.mul_le_mul_right _ h.blocks.2
  have hblocks : ((List.range header.blockCount.toNat).mapM fun blockIdx =>
      (encodeBlock (payloadChunk padded blockIdx)).bind fun codeword => puncture codeword header.mode) =
        some ((List.range header.blockCount.toNat).map fun k => sentBlock keep (payloadChunk padded k)) := by
    refine mapM_eq_some fun k hk => ?_
    have hchunk := length_payloadChunk hlength (List.mem_range.1 hk)
    rw [encodeBlock_eq hchunk,Option.bind_some,puncture_eq hkeep hkeeps (length_encode_infoBits hchunk)]
    rfl
  have hinterleaved : interleave ((List.range header.blockCount.toNat).map fun k =>
      sentBlock keep (payloadChunk padded k)).flatten header.blockCount.toNat =
        some (sentPayload header.mode keep header.blockCount.toNat padded) :=
    interleave_eq h.blocks.1 (length_flatMap_sentBlock hkeeps _ _)
  rw [dataBits,if_neg (Nat.not_lt.2 hlen),hpadded]
  dsimp only
  rw [packHeader_ok h hfits]
  refine (congrArg (Option.bind · _) (encodeBlock_eq (length_headerInfo crc16 header padded))).trans ?_
  rw [Option.bind_some,hblocks,Option.bind_eq_bind,Option.bind_some,hinterleaved]
  rfl

/-- What is heard of a frame without noise: the soft value of each of its bits. -/
structure HeardExactly (soft : UInt8 → F) (bits : List UInt8) (snrDb : F) (received : Demodulated F) : Prop where
  header : received.headerLlrs = some ((bits.take N).map soft)
  payload : received.payloadLlrs ((bits.length - N) / 2) = some (.ok ((bits.drop N).map soft,snrDb))

theorem peekHeaderBlockCount_headerInfo (h : header.Valid) (padded : List UInt8) :
    peekHeaderBlockCount (headerInfo crc16 header padded) = .ok (header.blockCount,header.appType,header.sequence) := by
  obtain ⟨hheader,hreserved⟩ := headerOf_headerWord h
  have hword : fromBeBytes (headerWord header >>> 8).toUInt8 (headerWord header).toUInt8 = headerWord header :=
    fromBeBytes_toBeBytes _
  have hblocks : blocksCode (headerWord header) + 1 = header.blockCount := congrArg FrameHeader.blockCount hheader
  have happ : appTypeOf (headerWord header) = header.appType := congrArg FrameHeader.appType hheader
  have hseq : sequenceOf (headerWord header) = header.sequence := congrArg FrameHeader.sequence hheader
  have hsplit : headerInfo crc16 header padded = (headerWord header >>> 8).toUInt8 :: (headerWord header).toUInt8 ::
      (crc16 (toBeBytes (headerWord header) ++ padded) >>> 8).toUInt8 ::
      (crc16 (toBeBytes (headerWord header) ++ padded)).toUInt8 :: List.replicate (INFO_BYTES_PER_BLOCK - HEADER_BYTES) 0 :=
    rfl
  rw [hsplit,peekHeaderBlockCount,hword,if_neg (not_not.2 hreserved),hblocks,happ,hseq]

theorem unpackHeader_headerInfo (h : header.Valid) (padded : List UInt8) :
    unpackHeader crc16 ((headerInfo crc16 header padded).take HEADER_BYTES ++ padded) header.mode = .ok (header,padded) := by
  obtain ⟨hheader,hreserved⟩ := headerOf_headerWord h
  have htake : (headerInfo crc16 header padded).take HEADER_BYTES = toBeBytes (headerWord header) ++
      toBeBytes (crc16 (toBeBytes (headerWord header) ++ padded)) := rfl
  rw [htake,unpackHeader_of_crc hreserved,hheader]

/-- A codeword of which every bit is heard. -/
theorem decodeBlock_codeword (hdecoder : ReturnsInfo sorter useNpre fecOpts soft (List.range N)) {bytes : List UInt8}
    (h : bytes.length = INFO_BYTES_PER_BLOCK) (failed : DecodeError) :
    decodeBlock sorter useNpre fecOpts ((LdpcCodec.Ldpc240_101.encode (infoBits bytes)).map soft) failed = pure bytes := by
  have hcodeword := length_encode_infoBits h
  refine decodeBlock_eq hdecoder h (by rw [List.length_map,hcodeword]) (fun i hi => ?_) failed
  rw [if_pos (List.mem_range.2 hi),List.getD_eq_getElem _ _ (by rwa [List.length_map,hcodeword]),List.getElem_map,
    List.getD_eq_getElem _ _ (by rwa [hcodeword])]

/-- A block of the payload, of which the kept bits are heard. -/
theorem decode_sentBlock (hkeep : keepIndices mode = some keep) (hkeeps : Keeps mode keep)
    (hdecoder : ReturnsInfo sorter useNpre fecOpts soft keep) {bytes : List UInt8}
    (h : bytes.length = INFO_BYTES_PER_BLOCK) (failed : DecodeError) :
    (ExceptT.lift (dePunctureLlr ((sentBlock keep bytes).map soft) mode) >>= fun fullLlrs =>
      decodeBlock sorter useNpre fecOpts fullLlrs failed) = pure bytes := by
  obtain ⟨out,hout,hlen,hplaces⟩ := dePunctureLlr_punctured hkeep hkeeps
    (LdpcCodec.Ldpc240_101.encode (infoBits bytes)) soft
  have hlift : (ExceptT.lift (dePunctureLlr ((sentBlock keep bytes).map soft) mode) : Decoding (List F)) = pure out := by
    rw [sentBlock,hout]
    rfl
  rw [hlift,pure_bind]
  exact decodeBlock_eq hdecoder h hlen (fun i _ => hplaces i) failed

theorem deinterleaveLlr_sentPayload (hkeeps : Keeps mode keep) (h1 : 1 ≤ nBlocks) :
    deinterleaveLlr ((sentPayload mode keep nBlocks padded).map soft) nBlocks =
      some ((List.range nBlocks).map fun k => (sentBlock keep (payloadChunk padded k)).map soft) := by
  rw [sentPayload,deinterleaveLlr_interleaved h1 (length_flatMap_sentBlock hkeeps _ _)]
  refine congrArg some (List.map_congr_left fun k hk => ?_)
  rw [take_drop_flatMap (fun _ _ => length_sentBlock hkeeps _) (List.mem_range.1 hk)]

/-- The receiver trusts the block count that it finds, and it is the one that was sent. -/
theorem decodeAtInner_heard (hkeep : keepIndices header.mode = some keep) (hkeeps : Keeps header.mode keep)
    (h : header.Valid) (hheader : ReturnsInfo sorter useNpre fecOpts soft (List.range N))
    (hpayload : ReturnsInfo sorter useNpre fecOpts soft keep)
    (hlength : padded.length = header.blockCount.toNat * INFO_BYTES_PER_BLOCK) {received : Demodulated F} {snrDb : F}
    (hheard : HeardExactly soft (LdpcCodec.Ldpc240_101.encode (infoBits (headerInfo crc16 header padded)) ++
      sentPayload header.mode keep header.blockCount.toNat padded) snrDb received) :
    decodeAtInner crc16 sorter useNpre fecOpts received header.mode =
      pure ⟨header.appType,header.sequence,header.mode,header.blockCount,padded,snrDb⟩ := by
  have hinfo := length_headerInfo crc16 header padded
  have hcodeword := length_encode_infoBits hinfo
  obtain ⟨hheaderLlrs,hpayloadLlrs⟩ := hheard
  rw [List.take_left' hcodeword] at hheaderLlrs
  rw [List.length_append,hcodeword,Nat.add_sub_cancel_left,length_sentPayload,List.drop_left' hcodeword] at hpayloadLlrs
  have hblocks : ∀ k ∈ List.range header.blockCount.toNat, _ := fun k hk =>
    decode_sentBlock hkeep hkeeps hpayload (length_payloadChunk hlength (List.mem_range.1 hk)) .PayloadFecFailed
  have hok {α ε : Type} (asError : ε → DecodeError) (a : α) : ofExcept asError (.ok a) = pure a := rfl
  have hsome {α : Type} (a : α) : (ExceptT.lift (some a) : Decoding α) = pure a := rfl
  rw [decodeAtInner,hheaderLlrs,hsome,pure_bind,decodeBlock_codeword hheader hinfo,pure_bind,
    peekHeaderBlockCount_headerInfo h,hok,pure_bind]
  dsimp only
  rw [hpayloadLlrs,hsome,pure_bind,hok,pure_bind]
  dsimp only
  rw [deinterleaveLlr_sentPayload hkeeps h.blocks.1,hsome,pure_bind,List.foldlM_map]
  refine (congrArg (· >>= _) (foldlM_blocks hblocks [])).trans ?_
  rw [pure_bind,List.nil_append,flatMap_payloadChunk hlength,unpackHeader_headerInfo h,hok,pure_bind]

/-- A frame comes back from its bits without noise, for every header, payload and mode, with the zeros that fill up its
blocks. A change of one to three bits, a burst of sixteen in one part and any short burst give a wrong checksum, and so
does every other change that the generator does not divide. -/
theorem frame_round_trip {F : Type} [F32 F] {crc16 : List UInt8 → UInt16} (hcrc : IsCrc16Ibm3740 crc16)
    (sorter : SortUnstable) (useNpre : Bool) (fecOpts : DecodeOpts F) (soft : UInt8 → F) (header : FrameHeader)
    (payload : List UInt8) (h : header.Valid)
    (hlen : payload.length ≤ header.blockCount.toNat * INFO_BYTES_PER_BLOCK)
    (hheader : ReturnsInfo sorter useNpre fecOpts soft (List.range N))
    (hpayload : ∀ keep, keepIndices header.mode = some keep → ReturnsInfo sorter useNpre fecOpts soft keep) :
    ∃ bits padded bytes, dataBits crc16 header payload = some (.ok bits) ∧
      padded = paddedPayload (header.blockCount.toNat * INFO_BYTES_PER_BLOCK) payload ∧
      (∀ received snrDb, HeardExactly soft bits snrDb received →
        (decodeAtInner crc16 sorter useNpre fecOpts received header.mode).run =
          some (.ok ⟨header.appType,header.sequence,header.mode,header.blockCount,padded,snrDb⟩)) ∧
      packHeader crc16 header padded = .ok bytes ∧
      ∀ e mode, e.length = (bytes ++ padded).length →
        ((∃ expected computed, unpackHeader crc16 (List.zipWith (· ^^^ ·) (bytes ++ padded) e) mode =
          .error (.CrcMismatch expected computed)) ↔ ¬crcGenerator CRC16_POLY ∣ bitPoly (checkedBits e)) ∧
        (Noticeable e ∨ ShortBurst e → ∃ expected computed, unpackHeader crc16
          (List.zipWith (· ^^^ ·) (bytes ++ padded) e) mode = .error (.CrcMismatch expected computed)) := by
  obtain ⟨keep,hkeep,hkeeps⟩ := keepIndices_keeps header.mode
  have hlength := length_paddedPayload hlen
  have hfits : (paddedPayload (header.blockCount.toNat * INFO_BYTES_PER_BLOCK) payload).length ≤ MAX_PAYLOAD_BYTES := by
    rw [hlength]
    exact Nat.mul_le_mul_right _ h.blocks.2
  have hpack : packHeader crc16 header (paddedPayload (header.blockCount.toNat * INFO_BYTES_PER_BLOCK) payload) = .ok _ :=
    packHeader_ok h hfits
  refine ⟨_,_,_,dataBits_eq hkeep hkeeps h hlen rfl,rfl,fun received snrDb hheard => ?_,hpack,fun e mode he => ?_⟩
  · rw [decodeAtInner_heard hkeep hkeeps h hheader (hpayload keep hkeep) hlength hheard]
    rfl
  · have hiff := crcMismatch_change_iff hcrc hpack he mode
    refine ⟨hiff,fun hchange => hiff.2 ?_⟩
    have hbytes : e.length = HEADER_BYTES + 12 * header.blockCount.toNat := by
      rw [he,List.length_append,(length_packHeader hpack).1,hlength,Nat.mul_comm]
      rfl
    rcases hchange with hfew | hshort
    · have hmax := h.blocks.2
      have hheader4 : HEADER_BYTES = 4 := rfl
      have hpayload384 : MAX_PAYLOAD_BYTES = 384 := rfl
      exact not_dvd_of_noticeable (by omega) (by omega) hfew
    · exact not_dvd_of_shortBurst h.blocks.1 h.blocks.2 hbytes hshort

end Frames

section Exact

/-- `default_fec_opts`. -/
def defaultFecOpts {F : Type} [F32 F] : DecodeOpts F := ⟨⟨50,none,1.01,none,.SumProduct⟩,2⟩

/-- No hint and no filter, and ordered statistics behind the default kernel. -/
structure OpenOpts {F : Type} (fecOpts : DecodeOpts F) : Prop where
  apMask : fecOpts.apMask = none
  verifyInfo : fecOpts.verifyInfo = none
  bpKind : fecOpts.bpKind = .SumProduct
  osdDepth : fecOpts.osdDepth ≠ 0

theorem openOpts_default {F : Type} [F32 F] : OpenOpts (defaultFecOpts : DecodeOpts F) := ⟨rfl,rfl,rfl,Nat.succ_ne_zero 1⟩

/-- In exact arithmetic the decoder returns the information whatever else is not sent. -/
theorem returnsInfo_exact {K : Type} [Field K] [LinearOrder K] [IsStrictOrderedRing K] (tanh atanh : K → K) (infinity : K)
    (toI32 : K → Int) (htanh : KeepsSide tanh) (hatanh : KeepsSide atanh) (sorter : SortUnstable) (useNpre : Bool)
    {fecOpts : DecodeOpts K} (hopen : OpenOpts fecOpts) {soft : UInt8 → K} (hone : 0 < soft 1) (hnone : soft 0 < 0)
    {keep : List Nat} (hinfo : ∀ i < K_INFO, i ∈ keep) :
    letI := fieldF32 K tanh atanh infinity toI32
    ReturnsInfo sorter useNpre fecOpts soft keep := by
  let _ := fieldF32 K tanh atanh infinity toI32
  intro info hbits llrs hlen hheard
  have hword : IsBits N (LdpcCodec.Ldpc240_101.encode info) := isBits_encode (LdpcCodec.consistent .Ldpc240_101).size hbits
  have hsigned (i : Nat) : Signed ((LdpcCodec.Ldpc240_101.encode info).getD i 0 = 1)
      (soft ((LdpcCodec.Ldpc240_101.encode info).getD i 0)) := by
    have hne : ¬(0 : UInt8) = 1 := by decide
    rcases bit_cases hword i with hbit | hbit
    · exact ⟨fun h1 => absurd (hbit.symm.trans h1) hne,fun _ => by rw [hbit]; exact hnone⟩
    · exact ⟨fun _ => by rw [hbit]; exact hone,fun h0 => absurd hbit h0⟩
  have hvalue : ∀ i < N, llrs.getD i 0 =
      if i ∈ keep then soft ((LdpcCodec.Ldpc240_101.encode info).getD i 0) else 0 := by
    intro i hi
    have hplace := hheard i hi
    rwa [zero_literal] at hplace
  refine LdpcCodec.decodeSoft_errorFree tanh atanh infinity toI32 htanh hatanh sorter useNpre hbits hlen ⟨fun i hi => ?_,
    fun i hi => ?_⟩ hopen.apMask hopen.bpKind hopen.osdDepth (by rw [hopen.verifyInfo]; rfl)
  · rw [hvalue i hi]
    split
    · exact .inr (hsigned i)
    · exact .inl rfl
  · have hlt : i < N := hi.trans (by decide)
    rw [hvalue i hlt,if_pos (hinfo i hi)]
    intro hzero
    obtain ⟨hpos,hneg⟩ := hsigned i
    by_cases hbit : (LdpcCodec.Ldpc240_101.encode info).getD i 0 = 1
    · exact (hpos hbit).ne' hzero
    · exact (hneg hbit).ne hzero

end Exact

section Runs

def plainSoft (bit : UInt8) : Rat := if bit = 1 then 1 else -1

/-- Ten places across the end of the word. -/
def tenPlaces : List UInt8 := [0,1,0x81,0] ++ List.replicate 24 0

/-- Thirteen bytes in two blocks of the express mode, of which less than a third of the parity is sent, through the real
decoder. -/
theorem frame_round_trip_express : letI := clampedF32
    ∃ bits padded bytes, dataBits bitwiseCrc16 ⟨.Express,2,5,17⟩ (List.replicate 13 0x41) = some (.ok bits) ∧
      padded = List.replicate 13 0x41 ++ List.replicate 11 0 ∧
      (decodeAtInner bitwiseCrc16 insertionSort true defaultFecOpts
        ⟨some ((bits.take N).map plainSoft),fun _ => some (.ok ((bits.drop N).map plainSoft,20))⟩ .Express).run =
          some (.ok ⟨5,17,.Express,2,padded,20⟩) ∧
      packHeader bitwiseCrc16 ⟨.Express,2,5,17⟩ padded = .ok bytes ∧
      ∃ expected computed, unpackHeader bitwiseCrc16 (List.zipWith (· ^^^ ·) (bytes ++ padded) tenPlaces) .Express =
        .error (.CrcMismatch expected computed) := by
  let _ := clampedF32
  have hclamp : KeepsSide fun x : Rat => max (-1) (min 1 x) :=
    ⟨fun x hx => le_max_of_le_right (le_min zero_le_one hx),fun x hx => max_le (by decide) ((min_le_right 1 x).trans hx)⟩
  have hid : KeepsSide (id : Rat → Rat) := ⟨fun _ => id,fun _ => id⟩
  have hreturns {keep : List Nat} (hinfo : ∀ i < K_INFO, i ∈ keep) :
      ReturnsInfo insertionSort true defaultFecOpts plainSoft keep :=
    returnsInfo_exact _ _ _ _ hclamp hid insertionSort true openOpts_default (by decide +kernel) (by decide +kernel) hinfo
  obtain ⟨keep,hkeep,hkeeps⟩ := keepIndices_keeps .Express
  obtain ⟨bits,padded,bytes,hbits,hpadded,hdecoded,hpack,hdetects⟩ := frame_round_trip isCrc16_bitwise insertionSort true
    defaultFecOpts plainSoft ⟨.Express,2,5,17⟩ (List.replicate 13 0x41) ⟨by decide,by decide,by decide⟩ (by decide)
    (hreturns fun i hi => List.mem_range.2 (hi.trans (by decide))) fun keep' hkeep' => by
      obtain rfl := Option.some.inj (hkeep.symm.trans hkeep')
      exact hreturns hkeeps.info
  refine ⟨bits,padded,bytes,hbits,hpadded,hdecoded _ 20 ⟨rfl,rfl⟩,hpack,
    (hdetects tenPlaces .Express ?_).2 (Or.inr ⟨by decide,15,?_⟩)⟩
  · rw [List.length_append,(length_packHeader hpack).1,hpadded]
    rfl
  · exact Or.inl (inWindow_of_outside (by decide +kernel) (by decide +kernel))

/-- A bit of the word and ten places of the checksum, in frames of twelve blocks. -/
def wordBurst : List UInt8 := [0,1,0xCC,0x40] ++ List.replicate 144 0

/-- Ten places of the checksum and two of the payload, in frames of three blocks. -/
def payloadBurst : List UInt8 := [0,0,0x03,0x3F,0xC0] ++ List.replicate 35 0

/-- Bursts across a border can keep the checksum right: eleven places are found out by a reserved bit only, and twelve
change the payload of an accepted frame. -/
theorem border_bursts_missed :
    InWindow (wordBurst.flatMap byteBits) 15 11 ∧
    packHeader bitwiseCrc16 ⟨.Robust,12,0,0⟩ (List.replicate 144 0) = .ok [0x58,0,0xC5,0x64] ∧
    unpackHeader bitwiseCrc16 (List.zipWith (· ^^^ ·) ([0x58,0,0xC5,0x64] ++ List.replicate 144 0) wordBurst) .Robust =
      .error (.ReservedNotZero 1) ∧
    InWindow (payloadBurst.flatMap byteBits) 22 12 ∧
    packHeader bitwiseCrc16 ⟨.Robust,3,0,0⟩ (List.replicate 36 0) = .ok [0x10,0,0xE6,0x21] ∧
    unpackHeader bitwiseCrc16 (List.zipWith (· ^^^ ·) ([0x10,0,0xE6,0x21] ++ List.replicate 36 0) payloadBurst) .Robust =
      .ok (⟨.Robust,3,0,0⟩,0xC0 :: List.replicate 35 0) := by
  exact ⟨inWindow_of_outside (by decide +kernel) (by decide +kernel),by decide +kernel,by decide +kernel,
    inWindow_of_outside (by decide +kernel) (by decide +kernel),by decide +kernel,by decide +kernel⟩

end Runs

end MfskCore.Uvpacket
