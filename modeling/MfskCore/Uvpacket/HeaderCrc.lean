import MfskCore.Fec.Crc
import MfskCore.Uvpacket.Framing

/-! The checksum of a uvpacket frame. It is the `crc` crate's, of which only the documented value is used: the remainder
of the bits of the word, the payload and the checksum itself, in this order. -/
namespace MfskCore.Uvpacket
open Fec Library Polynomial

/-- The low coefficients of the generator. -/
def CRC16_POLY : List Bool := coefficients 16 0x1021

/-- `CRC_16_IBM_3740` by its parameters: sixteen bits, the polynomial `0x1021`, a register of ones to begin with, no
reflection and nothing added at the end. -/
def IsCrc16Ibm3740 (crc16 : List UInt8 → UInt16) : Prop :=
  ∀ bytes, bitPoly (coefficients 16 (crc16 bytes).toNat) =
    (bitPoly (coefficients 16 0xFFFF) * X^(8 * bytes.length) + bitPoly (bytes.flatMap byteBits) * X^16) %ₘ
      crcGenerator CRC16_POLY

section Register

/-- One bit through a register fed at its high end. -/
def crc16Bit (crc bit : Nat) : Nat := crcBit 15 0xFFFF 0x1021 (crc ^^^ (bit <<< 15)) 0

def crc16Byte (crc : Nat) (byte : UInt8) : Nat :=
  (List.range 8).reverse.foldl (fun crc i => crc16Bit crc ((byte.toNat >>> i) &&& 1)) crc

/-- A checksum with these parameters, bit by bit. -/
def bitwiseCrc16 (bytes : List UInt8) : UInt16 := UInt16.ofNat (bytes.foldl crc16Byte 0xFFFF)

/-- The check value that the tests of the source expect. -/
example : bitwiseCrc16 [0x31,0x32,0x33,0x34,0x35,0x36,0x37,0x38,0x39] = 0x29B1 := by decide +kernel

theorem crcBit_lt (crc bit : Nat) : crcBit 15 0xFFFF 0x1021 crc bit < 2^16 := by
  have hmask : ((crc <<< 1) ||| bit) &&& 0xFFFF < 2^16 := Nat.lt_succ_of_le Nat.and_le_right
  unfold crcBit
  dsimp only
  split
  · exact Nat.xor_lt_two_pow hmask (by decide)
  · exact hmask

theorem foldl_crc16Byte_lt (bytes : List UInt8) {crc : Nat} (hcrc : crc < 2^16) : bytes.foldl crc16Byte crc < 2^16 := by
  have hbyte : ∀ (is : List Nat) (byte : UInt8) (crc : Nat), crc < 2^16 →
      is.foldl (fun crc i => crc16Bit crc ((byte.toNat >>> i) &&& 1)) crc < 2^16 := by
    intro is byte
    induction is with
    | nil => exact fun _ h => h
    | cons i is ih => exact fun crc _ => ih _ (crcBit_lt _ _)
  induction bytes generalizing crc with
  | nil => exact hcrc
  | cons byte bytes ih => exact ih (hbyte _ byte crc hcrc)

theorem length_CRC16_POLY : CRC16_POLY.length = 16 := length_coefficients 16 _

/-- A bit at the high end goes in sixteen places up. -/
theorem bitPoly_crc16Bit {crc : Nat} {p : (ZMod 2)[X]} (hp : bitPoly (coefficients 16 crc) = p %ₘ crcGenerator CRC16_POLY)
    {bit : Nat} (hbit : bit < 2) : bitPoly (coefficients 16 (crc16Bit crc bit)) =
      (X * p + C (if decide (bit = 1) then 1 else 0) * X^16) %ₘ crcGenerator CRC16_POLY := by
  have hhigh : bitPoly (coefficients 16 (bit <<< 15)) = C (if decide (bit = 1) then 1 else 0) * X^15 := by
    obtain rfl | rfl : bit = 0 ∨ bit = 1 := by omega
    · rw [bitPoly_eq_zero_of_false (l := coefficients 16 (0 <<< 15)) (by decide)]
      simp
    · have hword : coefficients 16 (1 <<< 15) = true :: List.replicate 15 false := by decide
      rw [hword,bitPoly_cons,bitPoly_eq_zero_of_false fun b hb => List.eq_of_mem_replicate hb,List.length_replicate,add_zero]
      rfl
  have hstep := coefficients_crcBit 15 0x1021 (crc ^^^ (bit <<< 15)) (by decide : 0 < 2)
  rw [crc16Bit]
  refine (congrArg bitPoly hstep).trans ?_
  rw [bitPoly_divStep (by rw [length_coefficients,length_coefficients]) (by rw [length_coefficients]; decide),
    coefficients_xor,bitPoly_xor (by rw [length_coefficients,length_coefficients]),hp,hhigh]
  refine modByMonic_eq_of_dvd_sub (monic_crcGenerator _) ?_
  have hdvd : crcGenerator CRC16_POLY ∣ p %ₘ crcGenerator CRC16_POLY - p := by
    rw [modByMonic_eq_sub_mul_div,sub_sub_cancel_left]
    exact (dvd_mul_right _ _).neg_right
  have hsub : X * (p %ₘ crcGenerator CRC16_POLY + C (if decide (bit = 1) then 1 else 0) * X^15) +
      C (if decide (0 = 1) then 1 else 0) - (X * p + C (if decide (bit = 1) then 1 else 0) * X^16) =
      X * (p %ₘ crcGenerator CRC16_POLY - p) := by
    have hzero : ¬decide (0 = 1) = true := by decide
    rw [if_neg hzero,C_0]
    ring
  exact hsub ▸ hdvd.mul_left X

theorem length_flatMap_byteBits (bytes : List UInt8) : (bytes.flatMap byteBits).length = 8 * bytes.length := by
  induction bytes with
  | nil => rfl
  | cons byte bytes ih =>
    have hlen : (byteBits byte).length = 8 := rfl
    rw [List.flatMap_cons,List.length_append,ih,hlen,List.length_cons]
    omega

/-- The register after some bytes is the remainder of the register before, and of the bits sixteen places up. -/
theorem bitPoly_crc16 (bytes : List UInt8) {crc : Nat} {p : (ZMod 2)[X]}
    (hp : bitPoly (coefficients 16 crc) = p %ₘ crcGenerator CRC16_POLY) :
    bitPoly (coefficients 16 (bytes.foldl crc16Byte crc)) =
      (p * X^(8 * bytes.length) + bitPoly (bytes.flatMap byteBits) * X^16) %ₘ crcGenerator CRC16_POLY := by
  have hbyte : ∀ (is : List Nat) (byte : UInt8) (crc : Nat) (p : (ZMod 2)[X]),
      bitPoly (coefficients 16 crc) = p %ₘ crcGenerator CRC16_POLY →
      bitPoly (coefficients 16 (is.foldl (fun crc i => crc16Bit crc ((byte.toNat >>> i) &&& 1)) crc)) =
        (p * X^is.length + bitPoly (is.map fun i => byte.toNat.testBit i) * X^16) %ₘ crcGenerator CRC16_POLY := by
    intro is byte
    induction is with
    | nil =>
      intro crc p hp
      have hnil : bitPoly ([] : List Bool) = 0 := rfl
      rw [List.foldl_nil,hp,List.length_nil,pow_zero,mul_one,List.map_nil,hnil,zero_mul,add_zero]
    | cons i is ih =>
      intro crc p hp
      have hbit : (byte.toNat >>> i) &&& 1 < 2 := Nat.and_one_is_mod _ ▸ Nat.mod_lt _ (by decide)
      have htest : decide ((byte.toNat >>> i) &&& 1 = 1) = byte.toNat.testBit i := by
        rw [Nat.testBit_eq_decide_div_mod_eq,Nat.and_one_is_mod,Nat.shiftRight_eq_div_pow]
      rw [List.foldl_cons,ih _ _ (bitPoly_crc16Bit hp hbit),htest,List.length_cons,List.map_cons,bitPoly_cons,
        List.length_map,pow_succ]
      exact congrArg (· %ₘ crcGenerator CRC16_POLY) (by ring)
  induction bytes generalizing crc p with
  | nil =>
    have hnil : bitPoly ([] : List Bool) = 0 := rfl
    rw [List.foldl_nil,hp,List.length_nil,pow_zero,mul_one,List.flatMap_nil,hnil,zero_mul,add_zero]
  | cons byte bytes ih =>
    have hfirst : bitPoly (coefficients 16 (crc16Byte crc byte)) =
        (p * X^8 + bitPoly (byteBits byte) * X^16) %ₘ crcGenerator CRC16_POLY := hbyte (List.range 8).reverse byte crc p hp
    rw [List.foldl_cons,ih hfirst,List.flatMap_cons,bitPoly_append,List.length_cons,Nat.mul_add,pow_add]
    refine congrArg (· %ₘ crcGenerator CRC16_POLY) ?_
    rw [length_flatMap_byteBits]
    ring

theorem isCrc16_bitwise : IsCrc16Ibm3740 bitwiseCrc16 := by
  intro bytes
  have hstart : bitPoly (coefficients 16 0xFFFF) = bitPoly (coefficients 16 0xFFFF) %ₘ crcGenerator CRC16_POLY := by
    refine ((modByMonic_eq_self_iff (monic_crcGenerator _)).2 ?_).symm
    rw [degree_crcGenerator,length_CRC16_POLY]
    exact degree_bitPoly_lt _
  have hlt : bytes.foldl crc16Byte 0xFFFF < 2^16 := foldl_crc16Byte_lt _ (by decide)
  rw [bitwiseCrc16,UInt16.toNat_ofNat',Nat.mod_eq_of_lt hlt,bitPoly_crc16 bytes hstart]

end Register

section Period

/-- A register moved up by one power. -/
def timesX (r : Nat) : Nat := crcBit 15 0xFFFF 0x1021 r 0

/-- The powers of `X` from one on, as long as none of them is one. -/
def neverOne : Nat → Nat → Bool
  | 0, _ => true
  | n + 1, r => (r != 1) && neverOne n (crcBit 15 0xFFFF 0x1021 r 0)

theorem iterate_of_neverOne {n r : Nat} (h : neverOne n r = true) :
    ∀ k < n, timesX^[k] r ≠ 1 := by
  induction n generalizing r with
  | zero => exact fun k hk => absurd hk (Nat.not_lt_zero k)
  | succ n ih =>
    rw [neverOne,Bool.and_eq_true,bne_iff_ne] at h
    intro k hk
    cases k with
    | zero => exact h.1
    | succ k => exact ih h.2 k (Nat.lt_of_succ_lt_succ hk)

theorem bitPoly_iterate (k : Nat) :
    bitPoly (coefficients 16 (timesX^[k] 1)) = X^k %ₘ crcGenerator CRC16_POLY ∧ timesX^[k] 1 < 2^16 := by
  have hone : bitPoly (coefficients 16 1) = 1 := by
    have hword : coefficients 16 1 = List.replicate 15 false ++ [true] := by decide
    rw [hword,bitPoly_concat,bitPoly_eq_zero_of_false fun b hb => List.eq_of_mem_replicate hb,mul_zero,zero_add,if_pos rfl,
      C_1]
  induction k with
  | zero =>
    refine ⟨?_,by decide⟩
    rw [pow_zero,Function.iterate_zero_apply,hone]
    refine ((modByMonic_eq_self_iff (monic_crcGenerator _)).2 ?_).symm
    rw [degree_crcGenerator,length_CRC16_POLY,degree_one]
    decide
  | succ k ih =>
    obtain ⟨hpoly,-⟩ := ih
    rw [Function.iterate_succ_apply']
    refine ⟨(congrArg bitPoly (coefficients_crcBit 15 0x1021 _ (by decide : 0 < 2))).trans ?_,crcBit_lt _ _⟩
    have hdiv := (bitPoly_division (g := CRC16_POLY) (by decide) [false] (by rw [length_coefficients,length_CRC16_POLY])
      hpoly).2
    have hfalse : bitPoly [false] = 0 := bitPoly_eq_zero_of_false fun b hb => List.mem_singleton.1 hb
    rw [hfalse,add_zero,← pow_add] at hdiv
    exact hdiv

/-- The order of `X` is more than the bits of the longest frame. -/
theorem longPeriod_CRC16_POLY : LongPeriod CRC16_POLY 3105 := by
  have hnever : neverOne 3104 (crcBit 15 0xFFFF 0x1021 1 0) = true := by decide +kernel
  intro k hk hlt hdvd
  obtain ⟨k,rfl⟩ := Nat.exists_eq_succ_of_ne_zero (Nat.ne_of_gt hk)
  refine iterate_of_neverOne hnever k (by omega) ?_
  obtain ⟨hpoly,hbound⟩ := bitPoly_iterate (k + 1)
  obtain ⟨hone,-⟩ := bitPoly_iterate 0
  -- Where the generator divides, the power has the remainder of one.
  have hsame : X^(k + 1) %ₘ crcGenerator CRC16_POLY = X^0 %ₘ crcGenerator CRC16_POLY := by
    refine modByMonic_eq_of_dvd_sub (monic_crcGenerator _) ?_
    rwa [pow_zero,CharTwo.sub_eq_add]
  rw [← hpoly,← hone] at hsame
  exact coefficients_injective hbound (by decide)
    (bitPoly_injective (by rw [length_coefficients,length_coefficients]) hsame)

end Period

section Frames
variable {crc16 : List UInt8 → UInt16} {bytes payload e : List UInt8}

/-- The bits of a frame in the order that its checksum sees them. -/
def checkedBits (bytes : List UInt8) : List Bool :=
  (bytes.take 2 ++ bytes.drop 4).flatMap byteBits ++ ((bytes.drop 2).take 2).flatMap byteBits

/-- A frame that holds the checksum of its word and payload. -/
def Intact (crc16 : List UInt8 → UInt16) (bytes : List UInt8) : Prop :=
  crc16 (bytes.take 2 ++ bytes.drop 4) = fromBeBytes (bytes.getD 2 0) (bytes.getD 3 0)

theorem coefficients_fromBeBytes (hi lo : UInt8) :
    coefficients 16 (fromBeBytes hi lo).toNat = byteBits hi ++ byteBits lo := by
  have hlo := lo.toNat_lt
  have hword : (fromBeBytes hi lo).toNat = 2^8 * hi.toNat + lo.toNat := by
    rw [toNat_fromBeBytes,Nat.mul_comm]
  have hsplit : coefficients 16 (fromBeBytes hi lo).toNat =
      ((List.range 8).reverse.map fun i => (fromBeBytes hi lo).toNat.testBit (8 + i)) ++
        (List.range 8).reverse.map fun i => (fromBeBytes hi lo).toNat.testBit i := rfl
  rw [hsplit,hword]
  refine congrArg₂ (· ++ ·) (List.map_congr_left fun i _ => ?_) (List.map_congr_left fun i hi => ?_)
  · rw [Nat.testBit_two_pow_mul_add _ hlo,if_neg (by omega),Nat.add_sub_cancel_left]
  · have hlow : i < 8 := List.mem_range.1 (List.mem_reverse.1 hi)
    rw [Nat.testBit_two_pow_mul_add _ hlo,if_pos hlow]

theorem intact_iff (hcrc : IsCrc16Ibm3740 crc16) (h : 4 ≤ bytes.length) : Intact crc16 bytes ↔
    crcGenerator CRC16_POLY ∣
      bitPoly (coefficients 16 0xFFFF) * X^(8 * (bytes.length - 2)) + bitPoly (checkedBits bytes) := by
  obtain ⟨b0,b1,b2,b3,rest,rfl⟩ : ∃ b0 b1 b2 b3 rest, bytes = b0 :: b1 :: b2 :: b3 :: rest := by
    obtain _ | ⟨b0,_ | ⟨b1,_ | ⟨b2,_ | ⟨b3,rest⟩⟩⟩⟩ := bytes
    · exact absurd h (by simp)
    · exact absurd h (by simp)
    · exact absurd h (by simp)
    · exact absurd h (by simp)
    · exact ⟨b0,b1,b2,b3,rest,rfl⟩
  have hchecked : checkedBits (b0 :: b1 :: b2 :: b3 :: rest) =
      (b0 :: b1 :: rest).flatMap byteBits ++ coefficients 16 (fromBeBytes b2 b3).toNat := by
    rw [coefficients_fromBeBytes]
    exact congrArg (_ ++ ·) (congrArg (byteBits b2 ++ ·) (List.append_nil _))
  have hremainder := eq_remainder_iff (p := bitPoly (coefficients 16 0xFFFF) * X^(8 * (b0 :: b1 :: rest).length) +
    bitPoly ((b0 :: b1 :: rest).flatMap byteBits) * X^16) (c := coefficients 16 (fromBeBytes b2 b3).toNat)
    (g := CRC16_POLY) rfl
  rw [hchecked,bitPoly_append,length_coefficients,← add_assoc]
  refine Iff.trans ?_ hremainder
  rw [← hcrc]
  show crc16 (b0 :: b1 :: rest) = fromBeBytes b2 b3 ↔ _
  rw [← UInt16.toNat_inj]
  constructor
  · exact fun heq => by rw [heq]
  · intro heq
    exact (coefficients_injective (UInt16.toNat_lt _) (UInt16.toNat_lt _)
      (bitPoly_injective (by rw [length_coefficients,length_coefficients]) heq)).symm

theorem byteBits_xor (a b : UInt8) : byteBits (a ^^^ b) = List.zipWith xor (byteBits a) (byteBits b) := by
  rw [byteBits,byteBits,byteBits,List.zipWith_map,List.zipWith_self]
  refine List.map_congr_left fun i _ => ?_
  rw [UInt8.toNat_xor,Nat.testBit_xor]

theorem checkedBits_xor (h : e.length = bytes.length) :
    checkedBits (List.zipWith (· ^^^ ·) bytes e) = List.zipWith xor (checkedBits bytes) (checkedBits e) := by
  have hbits : ∀ a b : List UInt8, a.length = b.length → (List.zipWith (· ^^^ ·) a b).flatMap byteBits =
      List.zipWith xor (a.flatMap byteBits) (b.flatMap byteBits) := by
    intro a
    induction a with
    | nil => exact fun b _ => rfl
    | cons x a ih =>
      intro b hab
      cases b with
      | nil => exact absurd hab (Nat.succ_ne_zero _)
      | cons y b =>
        have hlen : (byteBits x).length = (byteBits y).length := rfl
        rw [List.zipWith_cons_cons,List.flatMap_cons,List.flatMap_cons,List.flatMap_cons,ih b (Nat.succ.inj hab),
          byteBits_xor,List.zipWith_append hlen]
  have hfront : (bytes.take 2 ++ bytes.drop 4).length = (e.take 2 ++ e.drop 4).length := by
    rw [List.length_append,List.length_append,List.length_take,List.length_take,List.length_drop,List.length_drop,h]
  have hcheck : ((bytes.drop 2).take 2).length = ((e.drop 2).take 2).length := by
    rw [List.length_take,List.length_take,List.length_drop,List.length_drop,h]
  have htake : (bytes.take 2).length = (e.take 2).length := by rw [List.length_take,List.length_take,h]
  rw [checkedBits,checkedBits,checkedBits,List.take_zipWith,List.drop_zipWith,List.drop_zipWith,List.take_zipWith,
    ← List.zipWith_append htake,hbits _ _ hfront,hbits _ _ hcheck,List.zipWith_append]
  rw [length_flatMap_byteBits,length_flatMap_byteBits,hfront]

/-- A change keeps a frame intact when the generator divides it. -/
theorem intact_change (hcrc : IsCrc16Ibm3740 crc16) (h4 : 4 ≤ bytes.length) (he : e.length = bytes.length)
    (h : Intact crc16 bytes) : Intact crc16 (List.zipWith (· ^^^ ·) bytes e) ↔ crcGenerator CRC16_POLY ∣ bitPoly (checkedBits e) := by
  have hlen : (List.zipWith (· ^^^ ·) bytes e).length = bytes.length := by
    rw [List.length_zipWith,he,Nat.min_self]
  have hchecked : (checkedBits bytes).length = (checkedBits e).length := by
    simp only [checkedBits,List.length_append,length_flatMap_byteBits,List.length_take,List.length_drop,he]
  rw [intact_iff hcrc (hlen.symm ▸ h4),hlen,checkedBits_xor he,bitPoly_xor hchecked,← add_assoc]
  exact dvd_add_right ((intact_iff hcrc h4).1 h)

theorem crcMismatch_iff (h4 : 4 ≤ bytes.length) (mode : Mode) :
    (∃ expected computed, unpackHeader crc16 bytes mode = .error (.CrcMismatch expected computed)) ↔ ¬Intact crc16 bytes := by
  obtain _ | ⟨b0,_ | ⟨b1,_ | ⟨b2,_ | ⟨b3,rest⟩⟩⟩⟩ := bytes
  · exact absurd h4 (by simp)
  · exact absurd h4 (by simp)
  · exact absurd h4 (by simp)
  · exact absurd h4 (by simp)
  refine ⟨fun ⟨expected,computed,herror⟩ hintact => ?_,fun h => ⟨_,_,if_pos h⟩⟩
  replace hintact : crc16 ([b0,b1] ++ rest) = fromBeBytes b2 b3 := hintact
  rw [unpackHeader] at herror
  dsimp only at herror
  rw [if_neg (not_not.2 hintact)] at herror
  split at herror
  · cases herror
  · cases herror

/-- The word, the checksum and the payload, in the order of the frame and in that of the checksum. -/
theorem bits_parts (h4 : 4 ≤ e.length) : ∃ word crc payload : List Bool, e.flatMap byteBits = word ++ (crc ++ payload) ∧
    checkedBits e = word ++ payload ++ crc ∧ word.length = 16 ∧ crc.length = 16 := by
  refine ⟨(e.take 2).flatMap byteBits,((e.drop 2).take 2).flatMap byteBits,(e.drop 4).flatMap byteBits,?_,?_,?_,?_⟩
  · rw [← List.flatMap_append,← List.flatMap_append]
    refine congrArg (List.flatMap byteBits) ?_
    have hdrop : e.drop 4 = (e.drop 2).drop 2 := by rw [List.drop_drop]
    rw [hdrop,List.take_append_drop,List.take_append_drop]
  · rw [checkedBits,List.flatMap_append]
  · rw [length_flatMap_byteBits,List.length_take,Nat.min_eq_left (by omega)]
  · rw [length_flatMap_byteBits,List.length_take,List.length_drop,Nat.min_eq_left (by omega)]

/-- A change that the checksum notices: few bits anywhere, or a short burst in one of the three parts. -/
inductive Noticeable (e : List UInt8) : Prop where
  | few (some : 0 < (e.flatMap byteBits).count true) (few : (e.flatMap byteBits).count true ≤ 3)
  | burst (s : Nat) (bit : true ∈ e.flatMap byteBits) (window : InWindow (e.flatMap byteBits) s 16)
      (part : (∀ i, (e.flatMap byteBits)[i]? = some true → i < 16) ∨
        (∀ i, (e.flatMap byteBits)[i]? = some true → 16 ≤ i ∧ i < 32) ∨
        ∀ i, (e.flatMap byteBits)[i]? = some true → 32 ≤ i)

theorem checkedBits_perm (h4 : 4 ≤ e.length) : (checkedBits e).Perm (e.flatMap byteBits) := by
  obtain ⟨word,crc,payload,hframe,hchecked,-,-⟩ := bits_parts h4
  rw [hframe,hchecked,List.append_assoc]
  exact List.perm_append_comm.append_left word

/-- A burst in one part is a burst in the order of the checksum. -/
theorem window_checkedBits (h4 : 4 ≤ e.length) {s : Nat} (hwindow : InWindow (e.flatMap byteBits) s 16)
    (hpart : (∀ i, (e.flatMap byteBits)[i]? = some true → i < 16) ∨
      (∀ i, (e.flatMap byteBits)[i]? = some true → 16 ≤ i ∧ i < 32) ∨
      ∀ i, (e.flatMap byteBits)[i]? = some true → 32 ≤ i) : ∃ s', InWindow (checkedBits e) s' 16 := by
  obtain ⟨word,crc,payload,hframe,hchecked,hword,hcrc⟩ := bits_parts h4
  -- Where a bit of the checked order stands in the frame.
  have hplace : ∀ j, (checkedBits e)[j]? = some true → ∃ i, (e.flatMap byteBits)[i]? = some true ∧
      ((i < 16 ∧ j = i) ∨ (16 ≤ i ∧ i < 32 ∧ j = i + payload.length) ∨ (32 ≤ i ∧ j + 16 = i)) := by
    intro j hj
    rw [hchecked] at hj
    rw [hframe]
    rcases Nat.lt_or_ge j 16 with h16 | h16
    · rw [List.append_assoc,List.getElem?_append_left (by omega)] at hj
      exact ⟨j,by rwa [List.getElem?_append_left (by omega)],Or.inl ⟨h16,rfl⟩⟩
    rcases Nat.lt_or_ge j (16 + payload.length) with hmid | hend
    · rw [List.append_assoc,List.getElem?_append_right (by omega),List.getElem?_append_left (by omega)] at hj
      refine ⟨j + 16,?_,Or.inr (Or.inr ⟨by omega,rfl⟩)⟩
      rw [List.getElem?_append_right (by omega),List.getElem?_append_right (by omega)]
      exact (congrArg (payload[·]?) (by omega)).trans hj
    · have hlen : (word ++ payload).length = 16 + payload.length := by rw [List.length_append,hword]
      rw [List.getElem?_append_right (by omega)] at hj
      have hlt := (List.getElem?_eq_some_iff.1 hj).1
      refine ⟨j - payload.length,?_,Or.inr (Or.inl ⟨by omega,by omega,by omega⟩)⟩
      rw [List.getElem?_append_right (by omega),List.getElem?_append_left (by omega)]
      exact (congrArg (crc[·]?) (by omega)).trans hj
  rcases hpart with hpart | hpart | hpart
  · refine ⟨s,fun j hj => ?_⟩
    obtain ⟨i,hi,hij⟩ := hplace j hj
    have hin := hwindow i hi
    have hside := hpart i hi
    omega
  · refine ⟨s + payload.length,fun j hj => ?_⟩
    obtain ⟨i,hi,hij⟩ := hplace j hj
    have hin := hwindow i hi
    have hside := hpart i hi
    omega
  · refine ⟨s - 16,fun j hj => ?_⟩
    obtain ⟨i,hi,hij⟩ := hplace j hj
    have hin := hwindow i hi
    have hside := hpart i hi
    omega

theorem not_dvd_of_noticeable (h4 : 4 ≤ e.length) (hlen : e.length ≤ HEADER_BYTES + MAX_PAYLOAD_BYTES)
    (h : Noticeable e) : ¬crcGenerator CRC16_POLY ∣ bitPoly (checkedBits e) := by
  have hconst : (crcGenerator CRC16_POLY).coeff 0 ≠ 0 := coeff_crcGenerator_zero (by decide) (by decide)
  have hperm := checkedBits_perm h4
  cases h with
  | few hsome hfew =>
    have hone : (crcGenerator CRC16_POLY).eval 1 = 0 := by
      have hcount : CRC16_POLY.count true = 3 := by decide
      rw [crcGenerator,eval_add,eval_pow,eval_X,one_pow,eval_one_bitPoly,hcount]
      rfl
    have hbits : (checkedBits e).length ≤ 3104 := by
      have hmax : HEADER_BYTES + MAX_PAYLOAD_BYTES = 388 := rfl
      rw [hperm.length_eq,length_flatMap_byteBits]
      omega
    rw [← hperm.count_eq] at hsome hfew
    exact not_dvd_of_few hconst hone (fun k hk hlt => longPeriod_CRC16_POLY k hk (by omega)) hsome hfew
  | burst s hbit hwindow hpart =>
    obtain ⟨s',hwindow'⟩ := window_checkedBits h4 hwindow hpart
    exact not_dvd_of_burst hconst (hperm.mem_iff.2 hbit) (length_CRC16_POLY ▸ hwindow')

/-- A changed frame has the wrong checksum unless the generator divides the change. -/
theorem crcMismatch_change_iff (hcrc : IsCrc16Ibm3740 crc16) {header : FrameHeader}
    (hpack : packHeader crc16 header payload = .ok bytes) (he : e.length = (bytes ++ payload).length) (mode : Mode) :
    (∃ expected computed, unpackHeader crc16 (List.zipWith (· ^^^ ·) (bytes ++ payload) e) mode =
      .error (.CrcMismatch expected computed)) ↔ ¬crcGenerator CRC16_POLY ∣ bitPoly (checkedBits e) := by
  obtain ⟨hvalid,hpayload⟩ := valid_of_packHeader hpack
  rw [packHeader_ok hvalid hpayload] at hpack
  obtain rfl := Except.ok.inj hpack
  have hintact : Intact crc16 (toBeBytes (headerWord header) ++
      toBeBytes (crc16 (toBeBytes (headerWord header) ++ payload)) ++ payload) := (fromBeBytes_toBeBytes _).symm
  have hlen : (toBeBytes (headerWord header) ++
      toBeBytes (crc16 (toBeBytes (headerWord header) ++ payload)) ++ payload).length = 4 + payload.length := by
    rw [List.length_append]
    rfl
  have h4 : 4 ≤ (List.zipWith (· ^^^ ·) (toBeBytes (headerWord header) ++
      toBeBytes (crc16 (toBeBytes (headerWord header) ++ payload)) ++ payload) e).length := by
    rw [List.length_zipWith]
    omega
  rw [crcMismatch_iff h4,intact_change hcrc (by omega) he hintact]

theorem length_packHeader {header : FrameHeader} (hpack : packHeader crc16 header payload = .ok bytes) :
    bytes.length = HEADER_BYTES ∧ payload.length ≤ MAX_PAYLOAD_BYTES := by
  obtain ⟨hvalid,hpayload⟩ := valid_of_packHeader hpack
  rw [packHeader_ok hvalid hpayload] at hpack
  obtain rfl := Except.ok.inj hpack
  exact ⟨rfl,hpayload⟩

/-- One, two or three changed bits of a frame, and a burst of at most sixteen in its word, its checksum or its payload,
are always noticed. -/
theorem header_crc_detects {crc16 : List UInt8 → UInt16} (hcrc : IsCrc16Ibm3740 crc16) (header : FrameHeader)
    (payload bytes e : List UInt8) (mode : Mode) (hpack : packHeader crc16 header payload = .ok bytes) (he : e.length = (bytes ++ payload).length)
    (hchange : Noticeable e) : ∃ expected computed,
      unpackHeader crc16 (List.zipWith (· ^^^ ·) (bytes ++ payload) e) mode = .error (.CrcMismatch expected computed) := by
  obtain ⟨hbytes,hpayload⟩ := length_packHeader hpack
  have hlen := he
  rw [List.length_append] at hlen
  have hheader : HEADER_BYTES = 4 := rfl
  exact (crcMismatch_change_iff hcrc hpack he mode).2 (not_dvd_of_noticeable (by omega) (by omega) hchange)

theorem header_crc_detects_bit : ∃ expected computed, unpackHeader bitwiseCrc16
    (List.zipWith (· ^^^ ·) ([0x00,0x84,0x35,0x21] ++ [0x41,0x42]) [0,1,0,0,0,0x20]) .Robust =
      .error (.CrcMismatch expected computed) :=
  header_crc_detects isCrc16_bitwise ⟨.Robust,1,1,1⟩ [0x41,0x42] [0x00,0x84,0x35,0x21] [0,1,0,0,0,0x20] .Robust
    (by decide +kernel) rfl (.few (by decide) (by decide))

end Frames

end MfskCore.Uvpacket
