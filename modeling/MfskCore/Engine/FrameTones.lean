import MfskCore.Fec.Crc
import MfskCore.Fec.LdpcCode
import MfskCore.Library.BitWord
import MfskCore.Library.Placement
import Mathlib.Data.Bool.AllAny

/-! From a message to the tones of a frame (`engine/tx.rs`), for the protocols with sync blocks and a code that takes
the message and a CRC. A read or a write out of range panics. -/
namespace MfskCore.Engine
open Fec Library

inductive ProtocolId where
  | Ft8
  | Ft4
  | Ft2
  | Fst4
  | Jt65
  | Jt9
  | Wspr
  | Q65
  | UvPacket
  deriving DecidableEq

/-- A run of sync tones. -/
structure SyncBlock where
  startSymbol : Nat
  pattern : List UInt8

/-- The constants of a protocol that the tones and the soft values depend on. -/
structure FrameParams where
  ID : ProtocolId
  NTONES : Nat
  BITS_PER_SYMBOL : Nat
  GRAY_MAP : List UInt8
  LLR_NSYM_MAX : Nat
  LLR_NSYM_MID : Option Nat
  INFO_SCRAMBLE_RVEC : Option (List UInt8)
  N_SYNC : Nat
  N_SYMBOLS : Nat
  blocks : List SyncBlock
  CODEWORD_INTERLEAVE : Option (List Nat)
  fec : LdpcCodec

namespace FrameParams
variable (P : FrameParams)

/-- The data symbols between two places, as their first and their number. -/
def chunkBetween (after before : Nat) : List (Nat × Nat) := if before > after then [(after,before - after)] else []

def dataChunks : List (Nat × Nat) :=
  match P.blocks with
  | [] => if P.N_SYMBOLS > 0 then [(0,P.N_SYMBOLS)] else []
  | first :: rest =>
    let blocks := first :: rest
    let last := blocks.getLast (List.cons_ne_nil first rest)
    let leading := if first.startSymbol > 0 then [(0,first.startSymbol)] else []
    let between := (blocks.zip rest).flatMap fun p =>
      chunkBetween (p.1.startSymbol + p.1.pattern.length) p.2.startSymbol
    leading ++ between ++ chunkBetween (last.startSymbol + last.pattern.length) P.N_SYMBOLS

/-- The place in the codeword of a channel bit. -/
def channelIndex (j : Nat) : Option Nat := match P.CODEWORD_INTERLEAVE with
  | some table => table[j]?
  | none => some j

/-- The bits of one data symbol, the first leading. -/
def symbolValue (cw : List UInt8) (b : Nat) : Option UInt8 :=
  (List.range P.BITS_PER_SYMBOL).foldlM (fun v j =>
    (P.channelIndex (b + j)).bind fun idx => (cw[idx]?).map fun bit => (v <<< 1) ||| (bit &&& 1)) 0

/-- The sync tones in their places. -/
def syncTones (itone : List UInt8) : Option (List UInt8) :=
  P.blocks.foldlM (fun itone block =>
    block.pattern.zipIdx.foldlM (fun itone c => checkedSet itone (block.startSymbol + c.2) c.1) itone) itone

/-- The tones of one chunk. -/
def chunkTones (cw : List UInt8) (cwOffset : Nat) (chunk : Nat × Nat) (itone : List UInt8) : Option (List UInt8) :=
  (List.range chunk.2).foldlM (fun itone k =>
    (P.symbolValue cw (cwOffset + k * P.BITS_PER_SYMBOL)).bind fun v =>
      (P.GRAY_MAP[v.toNat]?).bind fun tone => checkedSet itone (chunk.1 + k) tone) itone

def codewordToItone (cw : List UInt8) : Option (List UInt8) := do
  let itone ← P.syncTones (List.replicate P.N_SYMBOLS 0)
  let s ← P.dataChunks.foldlM (fun (s : List UInt8 × Nat) chunk =>
    (P.chunkTones cw s.2 chunk s.1).map fun itone => (itone,s.2 + chunk.2 * P.BITS_PER_SYMBOL)) (itone,0)
  pure s.1

def infoToTones (info : List UInt8) : Option (List UInt8) := P.codewordToItone (P.fec.encode info)

end FrameParams

section Message

/-- The first bits with a scrambler added, in place. -/
def scrambleBits (rvec : Option (List UInt8)) (bits : List UInt8) : List UInt8 := match rvec with
  | none => bits
  | some rvec => List.zipWith (fun b r => (b ^^^ r) &&& 1) bits rvec ++ bits.drop rvec.length

/-- `Wsjt77Message::append_crc`: by the room there is for it. -/
def appendCrc (info : List UInt8) : Option (List UInt8) :=
  if info.length < 77 then none
  else if info.length = 91 then some (appendCrc14 (info.take 77))
  else if info.length = 101 then some (appendCrc24 (info.take 77))
  else none

/-- `Wsjt77Message::verify_info`. -/
def verifyInfo (info : List UInt8) : Bool :=
  if info.length = 91 then checkCrc14 info
  else if info.length = 101 then checkCrc24 info
  else false

def messageToTones (P : FrameParams) (message77 : List UInt8) : Option (List UInt8) := do
  let info ← appendCrc (scrambleBits P.INFO_SCRAMBLE_RVEC message77 ++ List.replicate (P.fec.params.K - 77) 0)
  P.infoToTones info

def descrambleInfo (P : FrameParams) (info : List UInt8) : List UInt8 := scrambleBits P.INFO_SCRAMBLE_RVEC info

end Message

namespace FrameParams
variable (P : FrameParams)

def syncSymbols : List Nat := P.blocks.flatMap fun b => List.range' b.startSymbol b.pattern.length

def dataSymbols : List Nat := P.dataChunks.flatMap fun c => List.range' c.1 c.2

def dataBits : Nat := P.dataSymbols.length * P.BITS_PER_SYMBOL

/-- What a protocol's constants have to meet for its frames to make sense. -/
structure Valid : Prop where
  bits : 1 ≤ P.BITS_PER_SYMBOL ∧ P.BITS_PER_SYMBOL ≤ 8
  tones : P.NTONES = 2^P.BITS_PER_SYMBOL
  grayLength : P.GRAY_MAP.length = P.NTONES
  grayNodup : P.GRAY_MAP.Nodup
  grayRange : ∀ g ∈ P.GRAY_MAP, g.toNat < P.NTONES
  ordered : P.blocks.Pairwise fun a b => a.startSymbol + a.pattern.length ≤ b.startSymbol
  inFrame : ∀ b ∈ P.blocks, b.startSymbol + b.pattern.length ≤ P.N_SYMBOLS
  interleave : ∀ table, P.CODEWORD_INTERLEAVE = some table → table.Perm (List.range P.dataBits)

/-- A channel bit of a codeword. -/
def channelBit (cw : List UInt8) (j : Nat) : UInt8 := cw.getD ((P.channelIndex j).getD 0) 0 &&& 1

/-- The number the bits of data symbol `d` write. -/
def dataValue (cw : List UInt8) (d : Nat) : Nat :=
  wordValue (fun j => (P.channelBit cw j).toNat) (d * P.BITS_PER_SYMBOL) P.BITS_PER_SYMBOL

/-- The tone of data symbol `d`. -/
def dataTone (cw : List UInt8) (d : Nat) : UInt8 := P.GRAY_MAP.getD (P.dataValue cw d) 0

def syncWrites : List (Nat × UInt8) :=
  P.blocks.flatMap fun b => b.pattern.zipIdx.map fun c => (b.startSymbol + c.2,c.1)

def dataWrites (cw : List UInt8) : List (Nat × UInt8) := P.dataSymbols.zipIdx.map fun p => (p.1,P.dataTone cw p.2)

end FrameParams

section Layout
open FrameParams

/-- What the blocks leave free, from a place on. -/
def gaps (n pos : Nat) : List SyncBlock → List (Nat × Nat)
  | [] => chunkBetween pos n
  | b :: bs => chunkBetween pos b.startSymbol ++ gaps n (b.startSymbol + b.pattern.length) bs

private theorem gaps_cons (n : Nat) (first : SyncBlock) (rest : List SyncBlock) :
    gaps n (first.startSymbol + first.pattern.length) rest =
      ((first :: rest).zip rest).flatMap (fun p =>
        chunkBetween (p.1.startSymbol + p.1.pattern.length) p.2.startSymbol) ++
      chunkBetween (((first :: rest).getLast (List.cons_ne_nil first rest)).startSymbol +
        ((first :: rest).getLast (List.cons_ne_nil first rest)).pattern.length) n := by
  induction rest generalizing first with
  | nil => rfl
  | cons b bs ih =>
    rw [gaps,ih b,List.zip_cons_cons,List.flatMap_cons,List.append_assoc,List.getLast_cons (List.cons_ne_nil b bs)]

theorem dataChunks_eq (P : FrameParams) : P.dataChunks = gaps P.N_SYMBOLS 0 P.blocks := by
  rw [dataChunks]
  split
  · rename_i hblocks
    rw [hblocks]
    rfl
  · rename_i first rest hblocks
    rw [hblocks,gaps,gaps_cons,chunkBetween,List.append_assoc]
    rfl

private theorem flatMap_chunkBetween {a b : Nat} (h : a ≤ b) :
    (chunkBetween a b).flatMap (fun c => List.range' c.1 c.2) = List.range' a (b - a) := by
  rw [chunkBetween]
  split
  · rw [List.flatMap_singleton]
  · rw [Nat.sub_eq_zero_of_le (by omega)]
    rfl

/-- The blocks and what they leave free are all the places there are, each once. -/
private theorem places_from {n : Nat} (blocks : List SyncBlock) {pos : Nat} (hpos : pos ≤ n)
    (hafter : ∀ b ∈ blocks, pos ≤ b.startSymbol)
    (hordered : blocks.Pairwise fun a b => a.startSymbol + a.pattern.length ≤ b.startSymbol)
    (hin : ∀ b ∈ blocks, b.startSymbol + b.pattern.length ≤ n) :
    ((blocks.flatMap fun b => List.range' b.startSymbol b.pattern.length) ++
      (gaps n pos blocks).flatMap fun c => List.range' c.1 c.2).Perm (List.range' pos (n - pos)) := by
  induction blocks generalizing pos with
  | nil => rw [gaps,flatMap_chunkBetween hpos]; exact List.Perm.refl _
  | cons b bs ih =>
    obtain ⟨hlater,hordered⟩ := List.pairwise_cons.1 hordered
    have hb := hafter b List.mem_cons_self
    have hend := hin b List.mem_cons_self
    have hrest := ih hend hlater hordered fun c hc => hin c (List.mem_cons_of_mem b hc)
    have hsplit : List.range' pos (n - pos) = List.range' pos (b.startSymbol - pos) ++
        (List.range' b.startSymbol b.pattern.length ++
          List.range' (b.startSymbol + b.pattern.length) (n - (b.startSymbol + b.pattern.length))) := by
      have hsum : n - pos = b.startSymbol - pos + (b.pattern.length + (n - (b.startSymbol + b.pattern.length))) := by
        omega
      rw [hsum,← List.range'_append_1,← List.range'_append_1,Nat.add_sub_cancel' hb]
    rw [gaps,List.flatMap_cons,List.flatMap_append,flatMap_chunkBetween hb,hsplit]
    refine List.Perm.trans ?_ (List.Perm.append_left _ (List.Perm.append_left _ hrest))
    rw [List.append_assoc]
    refine (List.Perm.append_left _ ?_).trans (List.perm_append_comm_assoc _ _ _)
    exact List.perm_append_comm_assoc _ _ _

variable {P : FrameParams}

private theorem chunkBetween_pos {a b : Nat} {c : Nat × Nat} (hc : c ∈ chunkBetween a b) : 0 < c.2 := by
  rw [chunkBetween] at hc
  split at hc
  · obtain rfl := List.mem_singleton.1 hc
    exact Nat.sub_pos_of_lt ‹_›
  · cases hc

/-- No chunk is empty. -/
theorem dataChunks_pos {c : Nat × Nat} (hc : c ∈ P.dataChunks) : 0 < c.2 := by
  have hgaps : ∀ (blocks : List SyncBlock) (pos : Nat), c ∈ gaps P.N_SYMBOLS pos blocks → 0 < c.2 := by
    intro blocks
    induction blocks with
    | nil => exact fun _ hc => chunkBetween_pos hc
    | cons b bs ih => exact fun _ hc => (List.mem_append.1 hc).elim chunkBetween_pos (ih _)
  exact hgaps P.blocks 0 (dataChunks_eq P ▸ hc)

/-- The sync symbols and the data symbols are the symbols of the frame, each once. -/
theorem FrameParams.Valid.places (h : P.Valid) :
    (P.syncSymbols ++ P.dataSymbols).Perm (List.range P.N_SYMBOLS) := by
  have hplaces := places_from P.blocks (Nat.zero_le P.N_SYMBOLS) (fun _ _ => Nat.zero_le _) h.ordered h.inFrame
  rwa [← dataChunks_eq,Nat.sub_zero,← List.range_eq_range'] at hplaces

end Layout

section Tones
variable {P : FrameParams} {cw : List UInt8}

theorem map_fst_syncWrites (P : FrameParams) : P.syncWrites.map Prod.fst = P.syncSymbols := by
  rw [FrameParams.syncWrites,List.map_flatMap]
  refine List.flatMap_congr fun b _ => ?_
  rw [List.map_map,List.zipIdx_eq_zip_range',List.range'_eq_map_range,List.range'_eq_map_range]
  refine List.ext_getElem (by simp) fun i hi _ => ?_
  simp

theorem map_fst_dataWrites (P : FrameParams) (cw : List UInt8) : (P.dataWrites cw).map Prod.fst = P.dataSymbols := by
  rw [FrameParams.dataWrites,List.map_map]
  exact List.zipIdx_map_fst 0 _

theorem channelIndex_eq (h : P.Valid) {j : Nat} (hj : j < P.dataBits) :
    ∃ idx < P.dataBits, P.channelIndex j = some idx := by
  rw [FrameParams.channelIndex]
  split
  · rename_i table htable
    have hperm := h.interleave table htable
    have hlt : j < table.length := by rwa [hperm.length_eq,List.length_range]
    exact ⟨table[j],List.mem_range.1 (hperm.subset (List.getElem_mem hlt)),List.getElem?_eq_getElem hlt⟩
  · exact ⟨j,hj,rfl⟩

/-- A bit put behind a number. -/
theorem toNat_shift_or (v bit : UInt8) (hv : v.toNat < 128) :
    ((v <<< 1) ||| (bit &&& 1)).toNat = 2 * v.toNat + (bit &&& 1).toNat := by
  have hbit : (bit &&& 1).toNat < 2^1 := by
    rw [UInt8.toNat_and]
    exact Nat.lt_succ_of_le Nat.and_le_right
  have hshift : (v <<< 1).toNat = 2 * v.toNat := by
    rw [UInt8.toNat_shiftLeft]
    show v.toNat <<< 1 % 2^8 = 2 * v.toNat
    rw [Nat.shiftLeft_eq]
    omega
  rw [UInt8.toNat_or,hshift]
  exact or_eq_add 1 ⟨_,rfl⟩ hbit

theorem channelBit_lt (P : FrameParams) (cw : List UInt8) (j : Nat) : (P.channelBit cw j).toNat < 2 := by
  rw [FrameParams.channelBit,UInt8.toNat_and]
  exact Nat.lt_succ_of_le Nat.and_le_right

/-- The value of a symbol is the number its channel bits write. -/
theorem symbolValue_eq (h : P.Valid) (hlen : cw.length = P.dataBits) {b : Nat}
    (hb : b + P.BITS_PER_SYMBOL ≤ P.dataBits) :
    ∃ v, P.symbolValue cw b = some v ∧
      v.toNat = wordValue (fun j => (P.channelBit cw j).toNat) b P.BITS_PER_SYMBOL := by
  rw [FrameParams.symbolValue]
  have hrun : ∀ n ≤ P.BITS_PER_SYMBOL, ∃ v : UInt8, (List.range n).foldlM (fun (v : UInt8) j =>
      (P.channelIndex (b + j)).bind fun idx => (cw[idx]?).map fun bit => (v <<< 1) ||| (bit &&& 1)) 0 = some v ∧
      v.toNat = wordValue (fun j => (P.channelBit cw j).toNat) b n := by
    intro n
    induction n with
    | zero => exact fun _ => ⟨0,rfl,rfl⟩
    | succ n ih =>
      intro hn
      obtain ⟨v,hv,hvalue⟩ := ih (by omega)
      obtain ⟨idx,hidx,hindex⟩ := channelIndex_eq h (j := b + n) (by omega)
      have hlt : v.toNat < 128 := by
        have hpow : 2^n ≤ 2^7 := Nat.pow_le_pow_right (by decide) (by have hbits := h.bits.2; omega)
        exact (hvalue ▸ wordValue_lt (fun j => channelBit_lt P cw j) b n).trans_le hpow
      have hbit : P.channelBit cw (b + n) = cw.getD idx 0 &&& 1 := by
        rw [FrameParams.channelBit,hindex,Option.getD_some]
      refine ⟨(v <<< 1) ||| (cw.getD idx 0 &&& 1),?_,?_⟩
      · rw [List.range_succ,List.foldlM_append,hv,Option.bind_eq_bind,Option.bind_some,List.foldlM_cons,hindex,
          Option.bind_some,getElem?_eq_some_getD (hlen ▸ hidx) 0]
        rfl
      · rw [toNat_shift_or v _ hlt,hvalue,wordValue_succ,hbit]
  exact hrun _ (Nat.le_refl _)

theorem dataValue_lt (h : P.Valid) (cw : List UInt8) (d : Nat) : P.dataValue cw d < P.NTONES :=
  h.tones ▸ wordValue_lt (fun j => channelBit_lt P cw j) _ _

/-- One chunk, whose first symbol is data symbol `o`. -/
private theorem chunkTones_eq (h : P.Valid) (hlen : cw.length = P.dataBits) {o : Nat} {chunk : Nat × Nat}
    (ho : o + chunk.2 ≤ P.dataSymbols.length) {itone : List UInt8} (hin : chunk.1 + chunk.2 ≤ itone.length) :
    P.chunkTones cw (o * P.BITS_PER_SYMBOL) chunk itone =
      some (place (((List.range' chunk.1 chunk.2).zipIdx o).map fun p => (p.1,P.dataTone cw p.2)) itone) := by
  have hwrites : ((List.range' chunk.1 chunk.2).zipIdx o).map (fun p => (p.1,P.dataTone cw p.2)) =
      (List.range chunk.2).map fun k => (chunk.1 + k,P.dataTone cw (o + k)) := by
    refine List.ext_getElem (by simp) fun i hi _ => ?_
    simp
  have hstep : ∀ k ∈ List.range chunk.2, ∀ itone : List UInt8,
      ((P.symbolValue cw (o * P.BITS_PER_SYMBOL + k * P.BITS_PER_SYMBOL)).bind fun v =>
        (P.GRAY_MAP[v.toNat]?).bind fun tone => checkedSet itone (chunk.1 + k) tone) =
        checkedSet itone (chunk.1 + k) (P.dataTone cw (o + k)) := by
    intro k hk itone
    have hk := List.mem_range.1 hk
    have hend : o * P.BITS_PER_SYMBOL + k * P.BITS_PER_SYMBOL + P.BITS_PER_SYMBOL ≤ P.dataBits := by
      rw [← Nat.add_mul,← Nat.succ_mul]
      exact Nat.mul_le_mul_right _ (by omega)
    obtain ⟨v,hv,hvalue⟩ := symbolValue_eq h hlen hend
    rw [← Nat.add_mul] at hvalue
    have hlt : v.toNat < P.GRAY_MAP.length := by
      rw [hvalue,h.grayLength]
      exact dataValue_lt h cw (o + k)
    rw [hv,Option.bind_some,getElem?_eq_some_getD hlt 0,Option.bind_some,hvalue]
    rfl
  rw [FrameParams.chunkTones,foldlM_congr hstep,hwrites,← foldlM_checkedSet_place,List.foldlM_map]
  intro w hw
  obtain ⟨k,hk,rfl⟩ := List.mem_map.1 hw
  have hk := List.mem_range.1 hk
  exact (Nat.add_lt_add_left hk _).trans_le hin

private theorem chunks_eq (h : P.Valid) (hlen : cw.length = P.dataBits) (chunks : List (Nat × Nat)) {o : Nat}
    (ho : o + (chunks.flatMap fun c => List.range' c.1 c.2).length ≤ P.dataSymbols.length) {itone : List UInt8}
    (hin : ∀ c ∈ chunks, c.1 + c.2 ≤ itone.length) :
    chunks.foldlM (fun (s : List UInt8 × Nat) chunk =>
      (P.chunkTones cw s.2 chunk s.1).map fun itone => (itone,s.2 + chunk.2 * P.BITS_PER_SYMBOL))
      (itone,o * P.BITS_PER_SYMBOL) =
      some (place (((chunks.flatMap fun c => List.range' c.1 c.2).zipIdx o).map fun p => (p.1,P.dataTone cw p.2)) itone,
        (o + (chunks.flatMap fun c => List.range' c.1 c.2).length) * P.BITS_PER_SYMBOL) := by
  induction chunks generalizing o itone with
  | nil => rfl
  | cons c chunks ih =>
    rw [List.flatMap_cons,List.length_append,List.length_range'] at ho
    rw [List.foldlM_cons,chunkTones_eq h hlen (by omega) (hin c List.mem_cons_self),Option.map_some,
      Option.bind_eq_bind,Option.bind_some,← Nat.add_mul,ih (by omega) (fun d hd => by
        rw [length_place]; exact hin d (List.mem_cons_of_mem c hd)),List.flatMap_cons,List.zipIdx_append,List.map_append,
      place_append,List.length_append,List.length_range',Nat.add_assoc]

theorem chunk_end_le (h : P.Valid) {c : Nat × Nat} (hc : c ∈ P.dataChunks) : c.1 + c.2 ≤ P.N_SYMBOLS := by
  have hpos := dataChunks_pos hc
  have hlast : c.1 + c.2 - 1 ∈ P.syncSymbols ++ P.dataSymbols :=
    List.mem_append_right _ (List.mem_flatMap.2 ⟨c,hc,List.mem_range'_1.2 ⟨by omega,by omega⟩⟩)
  have hlt := List.mem_range.1 (h.places.subset hlast)
  omega

/-- The frame holds the sync tones and the data tones, each in its place. -/
theorem codewordToItone_eq (h : P.Valid) (hlen : cw.length = P.dataBits) :
    P.codewordToItone cw =
      some (place (P.syncWrites ++ P.dataWrites cw) (List.replicate P.N_SYMBOLS 0)) := by
  have hsync : P.syncTones (List.replicate P.N_SYMBOLS 0) =
      some (place P.syncWrites (List.replicate P.N_SYMBOLS 0)) := by
    rw [FrameParams.syncTones,← foldlM_checkedSet_place,FrameParams.syncWrites,foldlM_flatMap]
    · simp only [List.foldlM_map]
    · intro w hw
      have hplace : w.1 ∈ P.syncSymbols ++ P.dataSymbols :=
        List.mem_append_left _ (map_fst_syncWrites P ▸ List.mem_map_of_mem hw)
      rw [List.length_replicate]
      exact List.mem_range.1 (h.places.subset hplace)
  have hin : ∀ c ∈ P.dataChunks, c.1 + c.2 ≤ (place P.syncWrites (List.replicate P.N_SYMBOLS 0)).length := by
    intro c hc
    rw [length_place,List.length_replicate]
    exact chunk_end_le h hc
  have hdata := chunks_eq h hlen P.dataChunks (o := 0) (by rw [Nat.zero_add]; exact Nat.le_refl _) hin
  rw [Nat.zero_mul] at hdata
  rw [FrameParams.codewordToItone,hsync,Option.bind_eq_bind,Option.bind_some,hdata,place_append]
  rfl

theorem writes_nodup (h : P.Valid) (cw : List UInt8) : ((P.syncWrites ++ P.dataWrites cw).map Prod.fst).Nodup := by
  rw [List.map_append,map_fst_syncWrites,map_fst_dataWrites]
  exact h.places.nodup_iff.2 List.nodup_range

theorem length_itone (h : P.Valid) (hlen : cw.length = P.dataBits) {itone : List UInt8}
    (hitone : P.codewordToItone cw = some itone) : itone.length = P.N_SYMBOLS := by
  rw [codewordToItone_eq h hlen] at hitone
  rw [← Option.some.inj hitone,length_place,List.length_replicate]

private theorem itone_write (h : P.Valid) (hlen : cw.length = P.dataBits) {itone : List UInt8}
    (hitone : P.codewordToItone cw = some itone) {w : Nat × UInt8} (hw : w ∈ P.syncWrites ++ P.dataWrites cw) :
    itone[w.1]? = some w.2 := by
  rw [codewordToItone_eq h hlen] at hitone
  have hkey : w.1 ∈ P.syncSymbols ++ P.dataSymbols := by
    rw [← map_fst_syncWrites,← map_fst_dataWrites P cw,← List.map_append]
    exact List.mem_map_of_mem hw
  have hlt := List.mem_range.1 (h.places.subset hkey)
  rw [← Option.some.inj hitone]
  exact getElem?_place (writes_nodup h cw) hw (by rwa [List.length_replicate])

/-- A data symbol has the Gray-mapped tone of its bits. -/
theorem itone_data (h : P.Valid) (hlen : cw.length = P.dataBits) {itone : List UInt8}
    (hitone : P.codewordToItone cw = some itone) {d pos : Nat} (hd : P.dataSymbols[d]? = some pos) :
    itone[pos]? = some (P.dataTone cw d) :=
  itone_write h hlen hitone (w := (pos,P.dataTone cw d)) (List.mem_append_right _
    (List.mem_map.2 ⟨(pos,d),List.mem_zipIdx_iff_getElem?.2 hd,rfl⟩))

theorem itone_data_lt (h : P.Valid) (hlen : cw.length = P.dataBits) {itone : List UInt8}
    (hitone : P.codewordToItone cw = some itone) {pos : Nat} (hpos : pos ∈ P.dataSymbols) :
    (itone.getD pos 0).toNat < P.NTONES := by
  obtain ⟨d,hd⟩ := List.mem_iff_getElem?.1 hpos
  have hlt : P.dataValue cw d < P.GRAY_MAP.length := h.grayLength.symm ▸ dataValue_lt h cw d
  rw [List.getD_eq_getElem?_getD,itone_data h hlen hitone hd,Option.getD_some,FrameParams.dataTone,
    List.getD_eq_getElem _ _ hlt]
  exact h.grayRange _ (List.getElem_mem hlt)

/-- A sync symbol has the tone of its block. -/
theorem itone_sync (h : P.Valid) (hlen : cw.length = P.dataBits) {itone : List UInt8}
    (hitone : P.codewordToItone cw = some itone) {b : SyncBlock} (hb : b ∈ P.blocks) {i : Nat} {c : UInt8}
    (hc : b.pattern[i]? = some c) : itone[b.startSymbol + i]? = some c :=
  itone_write h hlen hitone (w := (b.startSymbol + i,c)) (List.mem_append_left _ (List.mem_flatMap.2
    ⟨b,hb,List.mem_map.2 ⟨(c,i),List.mem_zipIdx_iff_getElem?.2 hc,rfl⟩⟩))

end Tones

section Protocols

def COSTAS : List UInt8 := [3,1,4,0,6,5,2]

def GRAYMAP : List UInt8 := [0,1,3,2,5,6,4,7]

def Ft8 : FrameParams where
  ID := .Ft8
  NTONES := 8
  BITS_PER_SYMBOL := 3
  GRAY_MAP := GRAYMAP
  LLR_NSYM_MAX := 3
  LLR_NSYM_MID := none
  INFO_SCRAMBLE_RVEC := none
  N_SYNC := 21
  N_SYMBOLS := 79
  blocks := [⟨0,COSTAS⟩,⟨36,COSTAS⟩,⟨72,COSTAS⟩]
  CODEWORD_INTERLEAVE := none
  fec := .Ldpc174_91

/-- FST4 has the same one. -/
def FT4_RVEC : List UInt8 :=
  [0,1,0,0,1,0,1,0,0,1,0,1,1,1,1,0,1,0,0,0,1,0,0,1,1,0,1,1,0,1,0,0,
   1,0,1,1,0,0,0,0,1,0,0,0,1,0,1,0,0,1,1,1,1,0,0,1,0,1,0,1,0,1,0,1,
   1,0,1,1,1,1,1,0,0,0,1,0,1]

def Ft4 : FrameParams where
  ID := .Ft4
  NTONES := 4
  BITS_PER_SYMBOL := 2
  GRAY_MAP := [0,1,3,2]
  LLR_NSYM_MAX := 4
  LLR_NSYM_MID := none
  INFO_SCRAMBLE_RVEC := some FT4_RVEC
  N_SYNC := 16
  N_SYMBOLS := 103
  blocks := [⟨0,[0,1,3,2]⟩,⟨33,[1,0,2,3]⟩,⟨66,[2,3,1,0]⟩,⟨99,[3,2,0,1]⟩]
  CODEWORD_INTERLEAVE := none
  fec := .Ldpc174_91

def FST4_SYNC_A : List UInt8 := [0,1,3,2,1,0,2,3]

def FST4_SYNC_B : List UInt8 := [2,3,1,0,3,2,0,1]

/-- What all its submodes share. -/
def Fst4 : FrameParams where
  ID := .Fst4
  NTONES := 4
  BITS_PER_SYMBOL := 2
  GRAY_MAP := [0,1,3,2]
  LLR_NSYM_MAX := 8
  LLR_NSYM_MID := some 4
  INFO_SCRAMBLE_RVEC := some FT4_RVEC
  N_SYNC := 40
  N_SYMBOLS := 160
  blocks := [⟨0,FST4_SYNC_A⟩,⟨38,FST4_SYNC_B⟩,⟨76,FST4_SYNC_A⟩,⟨114,FST4_SYNC_B⟩,⟨152,FST4_SYNC_A⟩]
  CODEWORD_INTERLEAVE := none
  fec := .Ldpc240_101

/-- The protocols whose frames carry a message of 77 bits and a CRC. -/
inductive MessageProtocol where
  | Ft8
  | Ft4
  | Fst4
  deriving DecidableEq

def MessageProtocol.params : MessageProtocol → FrameParams
  | .Ft8 => Engine.Ft8
  | .Ft4 => Engine.Ft4
  | .Fst4 => Engine.Fst4

/-- Their constants meet what they have to, and their frames hold a codeword. -/
theorem MessageProtocol.valid (p : MessageProtocol) :
    p.params.Valid ∧ p.params.dataBits = p.params.fec.params.N := by
  have hnone {Q : FrameParams} (h : Q.CODEWORD_INTERLEAVE = none) : ∀ table, Q.CODEWORD_INTERLEAVE = some table →
      table.Perm (List.range Q.dataBits) := fun table htable => by simp [h] at htable
  cases p with
  | Ft8 => exact ⟨⟨by decide,rfl,rfl,by decide,List.all_iff_forall_prop.1 rfl,by decide,by decide,hnone rfl⟩,by decide⟩
  | Ft4 => exact ⟨⟨by decide,rfl,rfl,by decide,List.all_iff_forall_prop.1 rfl,by decide,by decide,hnone rfl⟩,by decide⟩
  | Fst4 =>
    exact ⟨⟨by decide,rfl,rfl,by decide,List.all_iff_forall_prop.1 rfl,by decide,by decide,hnone rfl⟩,by decide +kernel⟩

end Protocols

section Words

/-- The protocol takes the message with its CRC, and a scrambler covers the message. -/
structure CarriesMessage (P : FrameParams) : Prop where
  room : P.fec.params.K = 91 ∨ P.fec.params.K = 101
  scrambler : ∀ rvec, P.INFO_SCRAMBLE_RVEC = some rvec → rvec.length = 77

theorem MessageProtocol.carries (p : MessageProtocol) : CarriesMessage p.params := by
  cases p with
  | Ft8 => exact ⟨Or.inl rfl,fun rvec h => by cases h⟩
  | Ft4 => exact ⟨Or.inl rfl,fun rvec h => Option.some.inj h ▸ rfl⟩
  | Fst4 => exact ⟨Or.inr rfl,fun rvec h => Option.some.inj h ▸ rfl⟩

theorem and_one_of_lt {b : UInt8} (h : b < 2) : b &&& 1 = b := by
  have hlt : b.toNat < 2 := h
  rw [← UInt8.toNat_inj,UInt8.toNat_and]
  exact (Nat.and_one_is_mod _).trans (Nat.mod_eq_of_lt hlt)

theorem and_one_lt (b : UInt8) : b &&& 1 < 2 := by
  show (b &&& 1).toNat < 2
  rw [UInt8.toNat_and]
  exact Nat.lt_succ_of_le Nat.and_le_right

/-- A bit is scrambled twice. -/
theorem scramble_twice (b r : UInt8) : (((b ^^^ r) &&& 1) ^^^ r) &&& 1 = b &&& 1 := by
  rw [← UInt8.toNat_inj]
  refine Nat.eq_of_testBit_eq fun i => ?_
  simp only [UInt8.toNat_and,UInt8.toNat_xor,Nat.testBit_and,Nat.testBit_xor]
  cases b.toNat.testBit i <;> cases r.toNat.testBit i <;> cases (1 : UInt8).toNat.testBit i <;> rfl

variable {rvec : Option (List UInt8)} {bits : List UInt8} {n : Nat}

theorem getElem?_scrambleBits (i : Nat) : (scrambleBits rvec bits)[i]? = (bits[i]?).map fun b =>
    match rvec.bind fun rvec => rvec[i]? with
    | some r => (b ^^^ r) &&& 1
    | none => b := by
  cases rvec with
  | none => exact Option.map_id'.symm
  | some rvec =>
    show (List.zipWith (fun b r => (b ^^^ r) &&& 1) bits rvec ++ bits.drop rvec.length)[i]? = _
    rw [Option.bind_some]
    by_cases hi : i < rvec.length
    · rw [List.getElem?_eq_getElem hi]
      by_cases hb : i < bits.length
      · rw [List.getElem?_append_left (by simp [hi,hb]),List.getElem?_zipWith,List.getElem?_eq_getElem hi,
          List.getElem?_eq_getElem hb]
        rfl
      · rw [List.getElem?_eq_none (by simp; omega),List.getElem?_eq_none (by omega)]
        rfl
    · rw [List.getElem?_append_right (by simp; omega),List.length_zipWith,List.getElem?_drop,
        List.getElem?_eq_none (by omega : rvec.length ≤ i)]
      by_cases hb : i < bits.length
      · have hplace : rvec.length + (i - min bits.length rvec.length) = i := by omega
        rw [hplace]
        exact Option.map_id'.symm
      · rw [List.getElem?_eq_none (by omega),List.getElem?_eq_none (by omega)]
        rfl

theorem isBits_scrambleBits (rvec : Option (List UInt8)) (h : IsBits n bits) : IsBits n (scrambleBits rvec bits) := by
  refine ⟨?_,fun b hb => ?_⟩
  · cases rvec with
    | none => exact h.1
    | some rvec =>
      show (List.zipWith (fun b r => (b ^^^ r) &&& 1) bits rvec ++ bits.drop rvec.length).length = n
      rw [List.length_append,List.length_zipWith,List.length_drop,← h.1]
      omega
  · obtain ⟨i,hi⟩ := List.mem_iff_getElem?.1 hb
    rw [getElem?_scrambleBits] at hi
    obtain ⟨c,hc,rfl⟩ := Option.map_eq_some_iff.1 hi
    split
    · exact and_one_lt _
    · exact h.2 c (List.mem_of_getElem? hc)

/-- Scrambling twice changes nothing. -/
theorem scrambleBits_scrambleBits (h : IsBits n bits) : scrambleBits rvec (scrambleBits rvec bits) = bits := by
  refine List.ext_getElem? fun i => ?_
  rw [getElem?_scrambleBits,getElem?_scrambleBits,Option.map_map]
  cases hb : bits[i]? with
  | none => rfl
  | some b =>
    have hbit := and_one_of_lt (h.2 b (List.mem_of_getElem? hb))
    rw [Option.map_some,Function.comp_apply]
    split
    · rw [scramble_twice,hbit]
    · rfl

/-- A scrambler acts place by place. -/
theorem take_scrambleBits (k : Nat) : (scrambleBits rvec bits).take k = scrambleBits rvec (bits.take k) := by
  refine List.ext_getElem? fun i => ?_
  rw [getElem?_scrambleBits]
  by_cases hi : i < k
  · rw [List.getElem?_take_of_lt hi,List.getElem?_take_of_lt hi,getElem?_scrambleBits]
  · rw [List.getElem?_take_eq_none (by omega),List.getElem?_take_eq_none (by omega)]
    rfl

variable {P : FrameParams} {word m : List UInt8}

private theorem isBits_le_one (h : IsBits n bits) : ∀ b ∈ bits, b ≤ 1 := by
  intro b hb
  have hlt : b.toNat < 2 := h.2 b hb
  exact UInt8.le_iff_toNat_le.2 (Nat.le_of_lt_succ hlt)

private theorem isBits_of_le_one {k : Nat} (hlen : bits.length = k) (h : ∀ b ∈ bits, b ≤ 1) : IsBits k bits := by
  refine ⟨hlen,fun b hb => ?_⟩
  have hle : b.toNat ≤ 1 := h b hb
  exact UInt8.lt_iff_toNat_lt.2 (Nat.lt_succ_of_le hle)

/-- What is appended to 77 bits, whatever stands in the place of the CRC, makes a word that is accepted. -/
theorem appendCrc_accepted (hroom : n = 91 ∨ n = 101) (hm : IsBits 77 m) {pad : List UInt8} (hpad : pad.length = n - 77) :
    ∃ word, appendCrc (m ++ pad) = some word ∧ IsBits n word ∧ verifyInfo word = true ∧ word.take 77 = m := by
  have htake : (m ++ pad).take 77 = m := List.take_left' hm.1
  have hlen : (m ++ pad).length = n := by
    rw [List.length_append,hm.1,hpad]
    omega
  rw [appendCrc,hlen,htake,if_neg (by omega)]
  rcases hroom with rfl | rfl
  · have hword : (appendCrc14 m).length = 91 := by rw [length_appendCrc14,hm.1]
    refine ⟨appendCrc14 m,if_pos rfl,isBits_of_le_one hword (appendCrc14_le_one (isBits_le_one hm)),?_,
      List.take_left' hm.1⟩
    rw [verifyInfo,if_pos hword,appendsCrc14.accepted m hm.1]
  · have hword : (appendCrc24 m).length = 101 := by rw [length_appendCrc24,hm.1]
    refine ⟨appendCrc24 m,by rw [if_neg (by decide),if_pos rfl],
      isBits_of_le_one hword (appendCrc24_le_one (isBits_le_one hm)),?_,List.take_left' hm.1⟩
    rw [verifyInfo,hword,if_neg (by decide),if_pos rfl,appendsCrc24.accepted m hm.1]

/-- An accepted word is what its first 77 bits are completed to. -/
theorem appendCrc_complete (hroom : n = 91 ∨ n = 101) (hword : IsBits n word) (hverify : verifyInfo word = true)
    {pad : List UInt8} (hpad : pad.length = n - 77) : appendCrc (word.take 77 ++ pad) = some word := by
  have hlen77 : (word.take 77).length = 77 := by
    rw [List.length_take,hword.1]
    omega
  have htake : (word.take 77 ++ pad).take 77 = word.take 77 := List.take_left' hlen77
  have hlen : (word.take 77 ++ pad).length = n := by
    rw [List.length_append,hlen77,hpad]
    omega
  rw [appendCrc,hlen,htake,if_neg (by omega)]
  rw [verifyInfo,hword.1] at hverify
  rcases hroom with rfl | rfl
  · rw [if_pos rfl] at hverify ⊢
    exact congrArg some (appendsCrc14.complete word (isBits_le_one hword) hverify)
  · rw [if_neg (by decide),if_pos rfl] at hverify ⊢
    exact congrArg some (appendsCrc24.complete word (isBits_le_one hword) hverify)

/-- A message goes out as a word that is accepted, and is read back from it. -/
theorem messageToTones_eq (hP : CarriesMessage P) (hm : IsBits 77 m) : ∃ word, IsBits P.fec.params.K word ∧
    verifyInfo word = true ∧ (descrambleInfo P word).take 77 = m ∧ messageToTones P m = P.infoToTones word := by
  obtain ⟨word,happend,hbits,hverify,htake⟩ := appendCrc_accepted hP.room
    (isBits_scrambleBits P.INFO_SCRAMBLE_RVEC hm) (List.length_replicate (a := (0 : UInt8)))
  refine ⟨word,hbits,hverify,?_,?_⟩
  · rw [descrambleInfo,take_scrambleBits,htake,scrambleBits_scrambleBits hm]
  · rw [messageToTones,happend]
    rfl

/-- The message of an accepted word goes out as the tones of that word, and so does the word scrambled again. -/
theorem messageToTones_of_verified (hP : CarriesMessage P) (hword : IsBits P.fec.params.K word)
    (hverify : verifyInfo word = true) :
    messageToTones P ((descrambleInfo P word).take 77) = P.infoToTones word ∧
      descrambleInfo P (descrambleInfo P word) = word := by
  have hK : 77 ≤ P.fec.params.K := by
    rcases hP.room with h | h <;> omega
  refine ⟨?_,scrambleBits_scrambleBits hword⟩
  rw [messageToTones,descrambleInfo,take_scrambleBits,scrambleBits_scrambleBits (hword.take hK),
    appendCrc_complete hP.room hword hverify List.length_replicate]
  rfl

end Words

end MfskCore.Engine
