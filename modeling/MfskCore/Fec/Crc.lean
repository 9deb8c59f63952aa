import MfskCore.Library.BitPolynomial
import Mathlib.Data.List.GetD

/-! The cyclic redundancy checks behind the LDPC codes: CRC-14 (`fec/ldpc/bp.rs`), CRC-24
(`fec/ldpc240_101/mod.rs`) and CRC-13 (`fec/ldpc_128_90/mod.rs`). A word is one bit a byte, in its lowest
bit; the registers never reach the width of their machine words. -/
namespace MfskCore.Fec
open Polynomial Library

/-- One bit through a register fed at its low end. -/
def crcBit (top mask poly crc bit : Nat) : Nat :=
  let msb := (crc >>> top) &&& 1
  let crc := ((crc <<< 1) ||| bit) &&& mask
  if msb ≠ 0 then crc ^^^ poly else crc

/-- The loop of `crc14` and `crc13`: every byte from its highest bit down. -/
def augmentedCrc (top mask poly : Nat) (data : List UInt8) : Nat :=
  data.foldl (fun crc byte => (List.range 8).reverse.foldl (fun crc i =>
    crcBit top mask poly crc ((byte.toNat >>> i) &&& 1)) crc) 0

def crc14 (data : List UInt8) : Nat := augmentedCrc 13 0x3FFF 0x2757 data

def crc13 (data : List UInt8) : Nat := augmentedCrc 12 0x1FFF 0x15D7 data

/-- Bits packed into twelve bytes, the first one highest. -/
def packBits (bits : List UInt8) : List UInt8 :=
  bits.zipIdx.foldl (fun bytes (bit,i) => bytes.modify (i / 8) (· ||| ((bit &&& 1) <<< (7 - i % 8).toUInt8)))
    (List.replicate 12 0)

/-- The check bits of a word, the first one highest. -/
def receivedCrc (bits : List UInt8) : Nat :=
  bits.foldl (fun received bit => (received <<< 1) ||| (bit &&& 1).toNat) 0

/-- The low bits of a register, the highest of them first. -/
def crcBits (n crc : Nat) : List UInt8 := (List.range n).map fun i => UInt8.ofNat ((crc >>> (n - 1 - i)) &&& 1)

def appendCrc14 (message77 : List UInt8) : List UInt8 := message77 ++ crcBits 14 (crc14 (packBits message77))

def checkCrc14 (decoded : List UInt8) : Bool :=
  if decoded.length ≠ 91 then false
  else crc14 (packBits (decoded.take 77)) == receivedCrc (decoded.drop 77)

def checkCrc13 (decoded : List UInt8) : Bool :=
  if decoded.length ≠ 90 then false
  else crc13 (packBits (decoded.take 77)) == receivedCrc (decoded.drop 77)

def CRC24_POLY : List UInt8 := [1,0,0,0,0,0,0,0,0,0,0,0,0,0,1,1,0,0,1,0,1,1,0,1,1]

/-- One round of `crc24`: the next bit into the last cell, one subtraction, one rotation. -/
def crc24Round (bits r : List UInt8) (i : Nat) : List UInt8 :=
  let r := r.set 24 (if i + 25 ≤ bits.length then bits.getD (i + 24) 0 &&& 1 else 0)
  let r := if r.getD 0 0 ≠ 0 then List.zipWith (· ^^^ ·) r CRC24_POLY else r
  r.tail ++ [r.getD 0 0]

def crc24 (bits : List UInt8) : Nat :=
  let r := (List.range 25).map fun i => if i < bits.length then bits.getD i 0 &&& 1 else 0
  let r := (List.range (bits.length - 25 + 1)).foldl (crc24Round bits) r
  (r.take 24).foldl (fun v b => (v <<< 1) ||| b.toNat) 0

def appendCrc24 (message77 : List UInt8) : List UInt8 :=
  message77 ++ crcBits 24 (crc24 (message77 ++ List.replicate 24 0))

def checkCrc24 (decoded : List UInt8) : Bool :=
  if decoded.length ≠ 101 then false
  else crc24 (decoded.take 77 ++ List.replicate 24 0) == receivedCrc (decoded.drop 77)

/-- The bit of a byte. -/
def lsb (b : UInt8) : Bool := b &&& 1 == 1

/-- The low coefficients of a polynomial, the highest of them first. -/
def coefficients (n poly : Nat) : List Bool := (List.range n).map fun i => poly.testBit (n - 1 - i)

section Bits

@[simp] theorem length_coefficients (n poly : Nat) : (coefficients n poly).length = n := by
  simp [coefficients]

theorem getElem_coefficients {n poly i : Nat} (hi : i < (coefficients n poly).length) :
    (coefficients n poly)[i] = poly.testBit (n - 1 - i) := by
  simp [coefficients]

theorem coefficients_xor (n x y : Nat) :
    coefficients n (x ^^^ y) = List.zipWith xor (coefficients n x) (coefficients n y) := by
  refine List.ext_getElem (by simp) fun i hi hi' => ?_
  rw [getElem_coefficients,List.getElem_zipWith,getElem_coefficients,getElem_coefficients,Nat.testBit_xor]

/-- A register is its coefficients. -/
theorem coefficients_injective {n x y : Nat} (hx : x < 2^n) (hy : y < 2^n) (h : coefficients n x = coefficients n y) :
    x = y := by
  refine Nat.eq_of_testBit_eq fun j => ?_
  by_cases hj : j < n
  · have hget := List.getElem_of_eq h (i := n - 1 - j) (by rw [length_coefficients]; omega)
    rw [getElem_coefficients,getElem_coefficients,show n - 1 - (n - 1 - j) = j by omega] at hget
    exact hget
  · have hpow : 2^n ≤ 2^j := Nat.pow_le_pow_right (by decide) (by omega)
    rw [Nat.testBit_lt_two_pow (by omega),Nat.testBit_lt_two_pow (by omega)]

/-- A bit more at the low end. -/
theorem coefficients_shift {n : Nat} (crc : Nat) {bit : Nat} (hbit : bit < 2) :
    coefficients (n + 1) ((crc <<< 1) ||| bit) = coefficients n crc ++ [decide (bit = 1)] := by
  refine List.ext_getElem (by simp) fun i hi hi' => ?_
  rw [length_coefficients] at hi
  rw [getElem_coefficients,Nat.testBit_or,Nat.testBit_shiftLeft]
  by_cases hlast : i < n
  · have hplace : n + 1 - 1 - i = n - 1 - i + 1 := by omega
    have hlow : bit < 2^(n - 1 - i + 1) := lt_of_lt_of_le hbit (Nat.pow_le_pow_right Nat.two_pos (Nat.le_add_left 1 _))
    rw [List.getElem_append_left (by simpa using hlast),getElem_coefficients,hplace,Nat.testBit_lt_two_pow hlow]
    simp
  · have hplace : n + 1 - 1 - i = 0 := by omega
    rw [List.getElem_append_right (by simpa using hlast),hplace]
    obtain rfl | rfl : bit = 0 ∨ bit = 1 := by omega
    · simp
    · simp

theorem coefficients_succ (n poly : Nat) :
    coefficients (n + 1) poly = poly.testBit n :: (coefficients (n + 1) poly).tail := by
  simp [coefficients,List.range_succ_eq_map]

theorem coefficients_tail (n poly : Nat) : (coefficients (n + 1) poly).tail = coefficients n poly := by
  refine List.ext_getElem (by simp) fun i hi hi' => ?_
  rw [length_coefficients] at hi'
  rw [List.getElem_tail,getElem_coefficients,getElem_coefficients]
  exact congrArg _ (by omega)

/-- Bits above the ones read do not matter. -/
theorem coefficients_mask (n x : Nat) : coefficients n (x &&& (2^n - 1)) = coefficients n x := by
  refine List.ext_getElem (by simp) fun i hi hi' => ?_
  rw [length_coefficients] at hi
  rw [getElem_coefficients,getElem_coefficients,Nat.testBit_and,Nat.testBit_two_pow_sub_one,
    decide_eq_true (by omega : n - 1 - i < n),Bool.and_true]

end Bits

section Register
variable (top poly : Nat)

/-- One bit of the code's register is one step of long division. -/
theorem coefficients_crcBit (crc : Nat) {bit : Nat} (hbit : bit < 2) :
    coefficients (top + 1) (crcBit top (2^(top + 1) - 1) poly crc bit) =
      divStep (coefficients (top + 1) poly) (coefficients (top + 1) crc) (decide (bit = 1)) := by
  have hmsb : (crc >>> top) &&& 1 ≠ 0 ↔ crc.testBit top = true := by
    rw [Nat.testBit_eq_decide_div_mod_eq,Nat.and_one_is_mod,Nat.shiftRight_eq_div_pow,decide_eq_true_eq]
    omega
  have hshift : coefficients (top + 1) (((crc <<< 1) ||| bit) &&& (2^(top + 1) - 1)) =
      (coefficients (top + 1) crc).tail ++ [decide (bit = 1)] := by
    rw [coefficients_mask,coefficients_shift crc hbit,coefficients_tail]
  have hhead : (coefficients (top + 1) crc).headD false = crc.testBit top := by
    rw [coefficients_succ]
    rfl
  unfold crcBit divStep
  dsimp only
  rw [hhead]
  by_cases h : crc.testBit top = true
  · rw [if_pos (hmsb.2 h),if_pos h,coefficients_xor,hshift]
  · rw [if_neg (fun hm => h (hmsb.1 hm)),if_neg h,hshift]

/-- The bits of a byte, the highest first. -/
def byteBits (byte : UInt8) : List Bool := (List.range 8).reverse.map fun i => byte.toNat.testBit i

theorem coefficients_augmentedCrc (data : List UInt8) :
    coefficients (top + 1) (augmentedCrc top (2^(top + 1) - 1) poly data) =
      (data.flatMap byteBits).foldl (divStep (coefficients (top + 1) poly)) (List.replicate (top + 1) false) := by
  have hbyte : ∀ (byte : UInt8) (is : List Nat) (crc : Nat),
      coefficients (top + 1) (is.foldl (fun crc i =>
        crcBit top (2^(top + 1) - 1) poly crc ((byte.toNat >>> i) &&& 1)) crc) =
      (is.map fun i => byte.toNat.testBit i).foldl (divStep (coefficients (top + 1) poly))
        (coefficients (top + 1) crc) := by
    intro byte is
    induction is with
    | nil => exact fun _ => rfl
    | cons i is ih =>
      intro crc
      have hbit : (byte.toNat >>> i) &&& 1 < 2 := Nat.and_one_is_mod _ ▸ Nat.mod_lt _ (by decide)
      have htest : decide ((byte.toNat >>> i) &&& 1 = 1) = byte.toNat.testBit i := by
        rw [Nat.testBit_eq_decide_div_mod_eq,Nat.and_one_is_mod,Nat.shiftRight_eq_div_pow]
      rw [List.foldl_cons,ih,coefficients_crcBit top poly crc hbit,htest,List.map_cons,List.foldl_cons]
  have hzero : coefficients (top + 1) 0 = List.replicate (top + 1) false := by
    refine List.ext_getElem (by simp) fun i hi hi' => ?_
    rw [getElem_coefficients,Nat.zero_testBit,List.getElem_replicate]
  have hdata : ∀ crc, coefficients (top + 1) (data.foldl (fun crc byte => (List.range 8).reverse.foldl (fun crc i =>
      crcBit top (2^(top + 1) - 1) poly crc ((byte.toNat >>> i) &&& 1)) crc) crc) =
      (data.flatMap byteBits).foldl (divStep (coefficients (top + 1) poly)) (coefficients (top + 1) crc) := by
    induction data with
    | nil => exact fun _ => rfl
    | cons byte data ih =>
      intro crc
      rw [List.foldl_cons,ih,hbyte,List.flatMap_cons,List.foldl_append]
      rfl
  rw [augmentedCrc,hdata,hzero]

end Register

section Packing

/-- The bit stream of packed bytes, place by place. -/
private def streamBit (bytes : List UInt8) (p : Nat) : Bool := (bytes.getD (p / 8) 0).toNat.testBit (7 - p % 8)

private theorem flatMap_byteBits (bytes : List UInt8) :
    bytes.flatMap byteBits = (List.range (8 * bytes.length)).map (streamBit bytes) := by
  induction bytes using List.reverseRecOn with
  | nil => rfl
  | append_singleton bytes byte ih =>
    have hfront : (List.range (8 * bytes.length)).map (streamBit (bytes ++ [byte])) =
        (List.range (8 * bytes.length)).map (streamBit bytes) := by
      refine List.map_congr_left fun p hp => ?_
      rw [List.mem_range] at hp
      rw [streamBit,streamBit,List.getD_append _ _ _ _ (by omega)]
    have hlast : (List.range 8).map (fun j => streamBit (bytes ++ [byte]) (8 * bytes.length + j)) = byteBits byte := by
      have hplace : ∀ j < 8, streamBit (bytes ++ [byte]) (8 * bytes.length + j) = byte.toNat.testBit (7 - j) := by
        intro j hj
        rw [streamBit,Nat.mul_add_div (by decide),Nat.div_eq_of_lt hj,Nat.mul_add_mod,Nat.mod_eq_of_lt hj,
          List.getD_append_right _ _ _ _ (by omega)]
        simp
      have hmap := List.map_congr_left (l := List.range 8) fun j hj => hplace j (List.mem_range.1 hj)
      exact hmap.trans rfl
    rw [List.flatMap_append,ih,List.flatMap_singleton,List.length_append,List.length_singleton,Nat.mul_add,
      Nat.mul_one,List.range_add,List.map_append,hfront,List.map_map]
    exact congrArg _ hlast.symm

/-- A bit or-ed into a byte changes the place it is meant for. -/
private theorem testBit_orBit (x b : UInt8) {s j : Nat} (hs : s < 8) :
    (x ||| ((b &&& 1) <<< s.toUInt8)).toNat.testBit j = (x.toNat.testBit j || (decide (j = s) && lsb b)) := by
  have hamount : s.toUInt8.toNat % 8 = s := by
    rw [Nat.toUInt8_eq,UInt8.toNat_ofNat',Nat.mod_eq_of_lt (by omega : s < 2^8),Nat.mod_eq_of_lt hs]
  have hpow : 2^s < 2^8 := Nat.pow_lt_pow_right (by decide) hs
  have hcases : b &&& 1 = 0 ∨ b &&& 1 = 1 := by
    have hmod : (b &&& 1).toNat = b.toNat % 2 := by
      rw [UInt8.toNat_and]
      exact Nat.and_one_is_mod _
    rcases Nat.mod_two_eq_zero_or_one b.toNat with h | h
    · exact Or.inl (UInt8.toNat_inj.mp (hmod.trans h))
    · exact Or.inr (UInt8.toNat_inj.mp (hmod.trans h))
  rw [UInt8.toNat_or,Nat.testBit_or,UInt8.toNat_shiftLeft,hamount,lsb]
  rcases hcases with h | h <;> rw [h]
  · simp
  · have hone : ((1 : UInt8).toNat <<< s) % 2^8 = 2^s := by
      rw [Nat.shiftLeft_eq]
      exact (congrArg (· % 2^8) (Nat.one_mul _)).trans (Nat.mod_eq_of_lt hpow)
    rw [hone,Nat.testBit_two_pow]
    simp [eq_comm]

private theorem length_packBits (bits : List UInt8) : (packBits bits).length = 12 := by
  have hfold : ∀ (ps : List (UInt8 × Nat)) (bytes : List UInt8), (ps.foldl (fun bytes (bit,i) =>
      bytes.modify (i / 8) (· ||| ((bit &&& 1) <<< (7 - i % 8).toUInt8))) bytes).length = bytes.length := by
    intro ps
    induction ps with
    | nil => exact fun _ => rfl
    | cons p ps ih =>
      intro bytes
      rw [List.foldl_cons,ih,List.length_modify]
  exact hfold _ _

private theorem streamBit_packBits (bits : List UInt8) (hlen : bits.length ≤ 96) (p : Nat) :
    streamBit (packBits bits) p = ((bits.map lsb).getD p false) := by
  induction bits using List.reverseRecOn with
  | nil =>
    have hzero : ∀ k, (List.replicate 12 (0 : UInt8)).getD k 0 = 0 := by
      intro k
      rcases Nat.lt_or_ge k 12 with hk | hk
      · rw [List.getD_replicate _ hk]
      · rw [List.getD_eq_default _ _ (by simpa using hk)]
    rw [streamBit,packBits,List.zipIdx_nil,List.foldl_nil,hzero]
    simp
  | append_singleton bits b ih =>
    have hlen' : bits.length + 1 ≤ 96 := by simpa using hlen
    have hstep : packBits (bits ++ [b]) = (packBits bits).modify (bits.length / 8)
        (· ||| ((b &&& 1) <<< (7 - bits.length % 8).toUInt8)) := by
      rw [packBits,List.zipIdx_append,List.foldl_append,Nat.zero_add]
      rfl
    have hin : bits.length / 8 < (packBits bits).length := by
      rw [length_packBits]
      omega
    have hold := ih (by omega)
    rw [streamBit,hstep,List.getD_eq_getElem?_getD]
    rw [streamBit,List.getD_eq_getElem?_getD] at hold
    have hnew : ((bits ++ [b]).map lsb).getD p false =
        ((bits.map lsb).getD p false || (decide (p = bits.length) && lsb b)) := by
      rw [List.map_append,List.map_singleton]
      rcases Nat.lt_trichotomy p bits.length with hp | rfl | hp
      · rw [List.getD_append _ _ _ _ (by simpa using hp),decide_eq_false (by omega),Bool.false_and,Bool.or_false]
      · rw [List.getD_append_right _ _ _ _ (by simp),List.getD_eq_default (l := bits.map lsb) _ (by simp)]
        simp
      · rw [List.getD_eq_default _ _ (by simpa using hp),List.getD_eq_default _ _ (by simpa using hp.le),
          decide_eq_false (by omega)]
        rfl
    rw [hnew,← hold]
    by_cases hbyte : bits.length / 8 = p / 8
    · have hplace : 7 - p % 8 = 7 - bits.length % 8 ↔ p = bits.length := by omega
      rw [← hbyte,List.getElem?_modify_eq,List.getElem?_eq_getElem hin,Option.map_eq_map,Option.map_some,
        Option.getD_some,testBit_orBit _ _ (by omega),Option.getD_some,decide_eq_decide.2 hplace]
    · rw [List.getElem?_modify_ne _ _ hbyte,decide_eq_false (fun h => hbyte (by rw [h])),Bool.false_and,Bool.or_false]

/-- Twelve packed bytes are the bits with zeros behind them. -/
theorem packBits_stream {bits : List UInt8} (hlen : bits.length ≤ 96) :
    (packBits bits).flatMap byteBits = bits.map lsb ++ List.replicate (96 - bits.length) false := by
  rw [flatMap_byteBits,length_packBits]
  refine List.ext_getElem (by simp; omega) fun p hp hp' => ?_
  rw [List.getElem_map,List.getElem_range,streamBit_packBits bits hlen]
  rcases Nat.lt_or_ge p bits.length with h | h
  · rw [List.getElem_append_left (by simpa using h),List.getD_eq_getElem _ _ (by simpa using h)]
  · rw [List.getElem_append_right (by simpa using h),List.getD_eq_default _ _ (by simpa using h),
      List.getElem_replicate]

/-- The received check bits, read back. -/
theorem receivedCrc_eq (bits : List UInt8) :
    receivedCrc bits < 2^bits.length ∧ coefficients bits.length (receivedCrc bits) = bits.map lsb := by
  induction bits using List.reverseRecOn with
  | nil => exact ⟨by decide,rfl⟩
  | append_singleton bits b ih =>
    have hb : (b &&& 1).toNat < 2 := by
      rw [UInt8.toNat_and]
      exact lt_of_le_of_lt Nat.and_le_right (by decide)
    have hlsb : decide ((b &&& 1).toNat = 1) = lsb b := by
      rw [lsb,Bool.eq_iff_iff,decide_eq_true_eq,beq_iff_eq]
      exact UInt8.toNat_inj (b := 1)
    have hstep : receivedCrc (bits ++ [b]) = (receivedCrc bits <<< 1) ||| (b &&& 1).toNat := by
      rw [receivedCrc,List.foldl_append]
      rfl
    rw [hstep,List.length_append,List.length_singleton,coefficients_shift _ hb,ih.2,hlsb,List.map_append]
    refine ⟨?_,rfl⟩
    refine Nat.or_lt_two_pow ?_ (lt_of_lt_of_le hb ?_)
    · rw [Nat.shiftLeft_eq,Nat.pow_succ]
      exact Nat.mul_lt_mul_of_pos_right ih.1 (by decide)
    · exact Nat.pow_le_pow_right (n := 2) (by decide) (Nat.le_add_left 1 _)

end Packing

section Crc24

private theorem lsb_toUInt8 (b : Bool) : lsb b.toUInt8 = b := by cases b <;> rfl

private theorem map_lsb_toUInt8 (l : List Bool) : (l.map Bool.toUInt8).map lsb = l := by
  rw [List.map_map,show lsb ∘ Bool.toUInt8 = id from funext lsb_toUInt8,List.map_id]

private theorem and_one_eq (b : UInt8) : b &&& 1 = (lsb b).toUInt8 := by
  have hmod : (b &&& 1).toNat = b.toNat % 2 := by
    rw [UInt8.toNat_and]
    exact Nat.and_one_is_mod _
  rcases Nat.mod_two_eq_zero_or_one b.toNat with h | h
  · rw [lsb,UInt8.toNat_inj.mp (hmod.trans h : (b &&& 1).toNat = (0 : UInt8).toNat)]
    rfl
  · rw [lsb,UInt8.toNat_inj.mp (hmod.trans h : (b &&& 1).toNat = (1 : UInt8).toNat)]
    rfl

private theorem zipWith_toUInt8 (l m : List Bool) :
    List.zipWith (· ^^^ ·) (l.map Bool.toUInt8) (m.map Bool.toUInt8) = (List.zipWith xor l m).map Bool.toUInt8 := by
  rw [List.zipWith_map,List.map_zipWith]
  refine congrArg (fun f => List.zipWith f l m) (funext fun a => funext fun b => ?_)
  cases a <;> cases b <;> rfl

private theorem CRC24_POLY_eq : CRC24_POLY = (true :: coefficients 24 0x100065B).map Bool.toUInt8 := by
  decide +kernel

/-- Twenty-five cells that hold a register of twenty-four bits and the bit to come. -/
private theorem crc24Round_eq {bits r : List UInt8} {R : List Bool} {i : Nat} {x : UInt8}
    (hr : r = R.map Bool.toUInt8 ++ [x]) (hR : R.length = 24) (hi : i + 25 ≤ bits.length) :
    ∃ y, crc24Round bits r i = (divStep (coefficients 24 0x100065B) R (lsb (bits.getD (i + 24) 0))).map Bool.toUInt8 ++ [y] := by
  obtain ⟨top,R,rfl⟩ := List.exists_cons_of_length_pos (by omega : 0 < R.length)
  have hset : r.set 24 (bits.getD (i + 24) 0 &&& 1) =
      (top :: (R ++ [lsb (bits.getD (i + 24) 0)])).map Bool.toUInt8 := by
    rw [hr,List.set_append_right _ _ (by simp at hR ⊢; omega),and_one_eq]
    simp at hR ⊢
    simp [hR]
  unfold crc24Round
  dsimp only
  rw [if_pos hi,hset]
  cases top with
  | false =>
    refine ⟨0,?_⟩
    have htop : ¬((false :: (R ++ [lsb (bits.getD (i + 24) 0)])).map Bool.toUInt8).getD 0 0 ≠ 0 := by
      rw [List.map_cons,List.getD_cons_zero]
      decide
    rw [if_neg htop]
    rfl
  | true =>
    refine ⟨0,?_⟩
    have htop : ((true :: (R ++ [lsb (bits.getD (i + 24) 0)])).map Bool.toUInt8).getD 0 0 ≠ 0 := by
      rw [List.map_cons,List.getD_cons_zero]
      decide
    rw [if_pos htop,CRC24_POLY_eq,zipWith_toUInt8,List.zipWith_cons_cons,List.map_cons]
    rfl

private theorem crc24_register {bits : List UInt8} (hlen : 25 ≤ bits.length) {j : Nat} (hj : j + 24 ≤ bits.length) :
    ∃ R x, (List.range j).foldl (crc24Round bits)
        ((List.range 25).map fun i => if i < bits.length then bits.getD i 0 &&& 1 else 0) =
        R.map Bool.toUInt8 ++ [x] ∧ R.length = 24 ∧
      bitPoly R = bitPoly ((bits.map lsb).take (24 + j)) %ₘ crcGenerator (coefficients 24 0x100065B) := by
  induction j with
  | zero =>
    refine ⟨(bits.map lsb).take 24,bits.getD 24 0 &&& 1,?_,by simp; omega,?_⟩
    · rw [List.range_zero,List.foldl_nil]
      refine List.ext_getElem (by simp; omega) fun i hi hi' => ?_
      have hi25 : i < 25 := by simpa using hi
      rw [List.getElem_map,List.getElem_range,if_pos (by omega)]
      by_cases hlast : i < 24
      · rw [List.getElem_append_left (by simp; omega),List.getElem_map,List.getElem_take,List.getElem_map,and_one_eq,
          List.getD_eq_getElem _ _ (by omega)]
      · rw [List.getElem_append_right (by simp; omega),List.getElem_singleton,show i = 24 by omega]
    · refine ((modByMonic_eq_self_iff (monic_crcGenerator _)).2 ?_).symm
      rw [degree_crcGenerator,length_coefficients]
      refine (degree_bitPoly_lt _).trans_le ?_
      exact_mod_cast List.length_take_le _ _
  | succ j ih =>
    obtain ⟨R,x,hr,hR,hpoly⟩ := ih (by omega)
    obtain ⟨y,hround⟩ := crc24Round_eq hr hR (by omega : j + 25 ≤ bits.length)
    have hnext : (bits.map lsb).take (24 + (j + 1)) =
        (bits.map lsb).take (24 + j) ++ [lsb (bits.getD (j + 24) 0)] := by
      rw [← Nat.add_assoc,List.take_succ_eq_append_getElem (by simp; omega),List.getElem_map,
        List.getD_eq_getElem _ _ (by omega)]
      simp only [Nat.add_comm]
    have hdiv := bitPoly_division (g := coefficients 24 0x100065B) (by simp) [lsb (bits.getD (j + 24) 0)]
      (by rw [hR,length_coefficients]) hpoly
    refine ⟨_,y,?_,hdiv.1.trans (length_coefficients _ _),?_⟩
    · rw [List.range_succ (n := j),List.foldl_append,List.foldl_cons,List.foldl_nil]
      exact hround
    · rw [hdiv.2,hnext,bitPoly_append]

/-- The number `crc24` gives out is its register. -/
theorem crc24_eq {bits : List UInt8} (hlen : 25 ≤ bits.length) :
    crc24 bits < 2^24 ∧
      bitPoly (coefficients 24 (crc24 bits)) = bitPoly (bits.map lsb) %ₘ crcGenerator (coefficients 24 0x100065B) := by
  obtain ⟨R,x,hr,hR,hpoly⟩ := crc24_register hlen (j := bits.length - 25 + 1) (by omega)
  have hall : (bits.map lsb).take (24 + (bits.length - 25 + 1)) = bits.map lsb :=
    List.take_of_length_le (by rw [List.length_map]; omega)
  rw [hall] at hpoly
  have hvalue : crc24 bits = receivedCrc (R.map Bool.toUInt8) := by
    unfold crc24
    dsimp only
    rw [hr,List.take_append_of_le_length (by rw [List.length_map,hR]),List.take_of_length_le (by rw [List.length_map,hR]),
      receivedCrc,List.foldl_map,List.foldl_map]
    refine List.foldl_ext _ _ _ fun v b _ => ?_
    cases b <;> rfl
  obtain ⟨hlt,hbits⟩ := receivedCrc_eq (R.map Bool.toUInt8)
  rw [List.length_map,hR] at hlt hbits
  rw [hvalue,hbits,map_lsb_toUInt8]
  exact ⟨hlt,hpoly⟩

end Crc24

section Checks

private theorem augmentedCrc_lt {top poly : Nat} (hpoly : poly < 2^(top + 1)) (data : List UInt8) :
    augmentedCrc top (2^(top + 1) - 1) poly data < 2^(top + 1) := by
  have hbit : ∀ crc bit, crcBit top (2^(top + 1) - 1) poly crc bit < 2^(top + 1) := by
    intro crc bit
    have hmask : ((crc <<< 1) ||| bit) &&& (2^(top + 1) - 1) < 2^(top + 1) :=
      lt_of_le_of_lt Nat.and_le_right (Nat.sub_lt (Nat.two_pow_pos _) Nat.one_pos)
    unfold crcBit
    dsimp only
    split
    · exact Nat.xor_lt_two_pow hmask hpoly
    · exact hmask
  have hbyte : ∀ (byte : UInt8) (is : List Nat) (crc : Nat), crc < 2^(top + 1) → is.foldl (fun crc i =>
      crcBit top (2^(top + 1) - 1) poly crc ((byte.toNat >>> i) &&& 1)) crc < 2^(top + 1) := by
    intro byte is
    induction is with
    | nil => exact fun _ h => h
    | cons i is ih => exact fun crc _ => ih _ (hbit crc _)
  have hdata : ∀ (data : List UInt8) (crc : Nat), crc < 2^(top + 1) → data.foldl (fun crc byte =>
      (List.range 8).reverse.foldl (fun crc i =>
        crcBit top (2^(top + 1) - 1) poly crc ((byte.toNat >>> i) &&& 1)) crc) crc < 2^(top + 1) := by
    intro data
    induction data with
    | nil => exact fun _ h => h
    | cons byte data ih => exact fun crc h => ih _ (hbyte byte _ crc h)
  exact hdata data 0 (Nat.two_pow_pos _)

/-- The register after a packed message is the remainder of the message and the zeros behind it. -/
private theorem augmentedCrc_packBits (top poly : Nat) (message : List UInt8) (hlen : message.length ≤ 96) :
    bitPoly (coefficients (top + 1) (augmentedCrc top (2^(top + 1) - 1) poly (packBits message))) =
      (bitPoly (message.map lsb) * X^(96 - message.length)) %ₘ crcGenerator (coefficients (top + 1) poly) := by
  have hzero : bitPoly (List.replicate (top + 1) false) = 0 %ₘ crcGenerator (coefficients (top + 1) poly) := by
    rw [zero_modByMonic]
    exact bitPoly_eq_zero_of_false fun b hb => List.eq_of_mem_replicate hb
  have hpad : bitPoly (List.replicate (96 - message.length) false) = 0 :=
    bitPoly_eq_zero_of_false fun b hb => List.eq_of_mem_replicate hb
  rw [coefficients_augmentedCrc,(bitPoly_division (by simp) _ (by simp) hzero).2,packBits_stream hlen,zero_mul,zero_add,
    bitPoly_append,hpad,add_zero,List.length_replicate]

/-- Equal numbers are equal remainders. -/
private theorem received_iff {n poly pad crc : Nat} {word : List UInt8} (hlen : word.length = 77 + n) (hcrc : crc < 2^n)
    (hpoly : bitPoly (coefficients n crc) =
      (bitPoly ((word.take 77).map lsb) * X^pad) %ₘ crcGenerator (coefficients n poly)) :
    (crc == receivedCrc (word.drop 77)) = true ↔ IsCrcWord (coefficients n poly) pad 77 (word.map lsb) := by
  have hdrop : (word.drop 77).length = n := by
    rw [List.length_drop,hlen,Nat.add_sub_cancel_left]
  obtain ⟨hlt,hbits⟩ := receivedCrc_eq (word.drop 77)
  rw [hdrop] at hlt hbits
  rw [IsCrcWord,List.length_map,length_coefficients,← List.map_drop,← List.map_take,← hbits,← hpoly,beq_iff_eq]
  constructor
  · intro h
    exact ⟨hlen,by rw [h]⟩
  · rintro ⟨-,h⟩
    exact coefficients_injective hcrc hlt (bitPoly_injective (by simp) h.symm)

private theorem packedCheck_iff (top : Nat) {poly : Nat} (hpoly : poly < 2^(top + 1)) (word : List UInt8) :
    (if word.length ≠ 77 + (top + 1) then false
      else augmentedCrc top (2^(top + 1) - 1) poly (packBits (word.take 77)) == receivedCrc (word.drop 77)) = true ↔
    IsCrcWord (coefficients (top + 1) poly) 19 77 (word.map lsb) := by
  by_cases hlen : word.length = 77 + (top + 1)
  · have htake : (word.take 77).length = 77 := by
      rw [List.length_take]
      omega
    have hremainder := augmentedCrc_packBits top poly (word.take 77) (by omega)
    rw [htake] at hremainder
    rw [if_neg (not_not.2 hlen)]
    exact received_iff hlen (augmentedCrc_lt hpoly _) hremainder
  · rw [if_pos hlen]
    refine iff_of_false Bool.false_ne_true fun h => hlen ?_
    simpa using h.1

theorem checkCrc14_iff (word : List UInt8) :
    checkCrc14 word = true ↔ IsCrcWord (coefficients 14 0x2757) 19 77 (word.map lsb) :=
  packedCheck_iff 13 (by decide) word

theorem checkCrc13_iff (word : List UInt8) :
    checkCrc13 word = true ↔ IsCrcWord (coefficients 13 0x15D7) 19 77 (word.map lsb) :=
  packedCheck_iff 12 (by decide) word

private theorem crc24_padded {message : List UInt8} (hlen : message.length = 77) :
    crc24 (message ++ List.replicate 24 0) < 2^24 ∧
      bitPoly (coefficients 24 (crc24 (message ++ List.replicate 24 0))) =
        (bitPoly (message.map lsb) * X^24) %ₘ crcGenerator (coefficients 24 0x100065B) := by
  obtain ⟨hlt,hpoly⟩ := @crc24_eq (message ++ List.replicate 24 0)
    (by rw [List.length_append,List.length_replicate]; omega)
  refine ⟨hlt,hpoly.trans (congrArg (· %ₘ crcGenerator _) ?_)⟩
  rw [List.map_append,bitPoly_append,bitPoly_eq_zero_of_false (l := (List.replicate 24 0).map lsb) (by decide),add_zero]
  rfl

theorem checkCrc24_iff (word : List UInt8) :
    checkCrc24 word = true ↔ IsCrcWord (coefficients 24 0x100065B) 24 77 (word.map lsb) := by
  by_cases hlen : word.length = 101
  · have htake : (word.take 77).length = 77 := by rw [List.length_take,hlen]; rfl
    obtain ⟨hlt,hpoly⟩ := crc24_padded htake
    rw [checkCrc24,if_neg (not_not.2 hlen)]
    exact received_iff hlen hlt hpoly
  · rw [checkCrc24,if_pos hlen]
    refine iff_of_false Bool.false_ne_true fun h => hlen ?_
    simpa using h.1

end Checks

section Codes

/-- A check of 77 message bits and their remainder under a generator, the message moved up by `pad` places. A
burst no longer than the remainder is noticed, the listed ones apart. -/
structure CrcChecks (g : List Bool) (pad : Nat) (missed : List (List Bool)) (check : List UInt8 → Bool) : Prop where
  accepts : ∀ word, check word = true ↔ word.length = 77 + g.length ∧
    bitPoly ((word.drop 77).map lsb) = (bitPoly ((word.take 77).map lsb) * X^pad) %ₘ crcGenerator g
  closed : ∀ v w, check v = true → check w = true → check (List.zipWith (· ^^^ ·) v w) = true
  burst : ∀ word e s, check word = true → e.length = word.length → true ∈ e.map lsb →
    InWindow (e.map lsb) s g.length → (check (List.zipWith (· ^^^ ·) word e) = true ↔ e.map lsb ∈ missed)

/-- A burst in a word of `n` bits, from place `s` on. -/
def burstAt (n s : Nat) (pattern : List Bool) : List Bool :=
  List.replicate s false ++ pattern ++ List.replicate (n - s - pattern.length) false

/-- What CRC-14 misses: bursts of twelve to fourteen places with message bits at the front and check bits behind,
which the five zeros between the two turn into multiples of the generator. -/
def missedByCrc14 : List (List Bool) :=
  [burstAt 91 76 (coefficients 13 0b1111000011101),burstAt 91 73 (coefficients 13 0b1011010110011),
   burstAt 91 72 (coefficients 13 0b1011010110011),burstAt 91 72 (coefficients 14 0b11101111010101),
   burstAt 91 69 (coefficients 12 0b111111011011),burstAt 91 65 (coefficients 13 0b1110010011011)]

/-- What CRC-13 misses, across its gap of six zeros. -/
def missedByCrc13 : List (List Bool) :=
  [burstAt 90 75 (coefficients 12 0b111100001001),burstAt 90 72 (coefficients 13 0b1001100001101),
   burstAt 90 71 (coefficients 13 0b1001100001101),burstAt 90 70 (coefficients 13 0b1001100001101),
   burstAt 90 69 (coefficients 13 0b1001100001101),burstAt 90 68 (coefficients 13 0b1001100001101)]

/-- The outputs of an encoder are the accepted words. -/
structure AppendsCrc (check : List UInt8 → Bool) (append : List UInt8 → List UInt8) : Prop where
  accepted : ∀ message, message.length = 77 → check (append message) = true
  complete : ∀ word, (∀ b ∈ word, b ≤ 1) → check word = true → append (word.take 77) = word

private theorem lsb_xor (v w : List UInt8) :
    (List.zipWith (· ^^^ ·) v w).map lsb = List.zipWith xor (v.map lsb) (w.map lsb) := by
  rw [List.zipWith_map,List.map_zipWith]
  refine congrArg (fun f => List.zipWith f v w) (funext fun a => funext fun b => ?_)
  have hone : ∀ x : UInt8, lsb x = x.toNat.testBit 0 := by
    intro x
    rw [lsb,Nat.testBit_zero,Bool.eq_iff_iff,beq_iff_eq,decide_eq_true_eq,← UInt8.toNat_inj,UInt8.toNat_and]
    exact Eq.congr_left (Nat.and_one_is_mod _)
  rw [hone,hone,hone,UInt8.toNat_xor,Nat.testBit_xor]

/-- A list of bits is a number's. -/
private theorem exists_coefficients {t : List Bool} {d : Nat} (ht : t.length = d) :
    ∃ q < 2^d, coefficients d q = t := by
  obtain ⟨hlt,hbits⟩ := receivedCrc_eq (t.map Bool.toUInt8)
  rw [List.length_map,ht] at hlt hbits
  rw [map_lsb_toUInt8] at hbits
  exact ⟨_,hlt,hbits⟩

/-- A word that is zero over the gap gives a listed burst, or none. -/
private def Listed (missed : List (List Bool)) (d a : Nat) (l : List Bool) : Prop :=
  (l.drop a).take d = List.replicate d false → true ∈ squeeze d 77 a l → squeeze d 77 a l ∈ missed

private instance (missed : List (List Bool)) (d a : Nat) (l : List Bool) : Decidable (Listed missed d a l) :=
  inferInstanceAs (Decidable (_ → _ → _))

private theorem crcChecks_of_iff {g : List Bool} {d : Nat} {missed : List (List Bool)} {check : List UInt8 → Bool}
    (hconst : (crcGenerator g).coeff 0 ≠ 0) (hpos : 0 < g.length)
    (h : ∀ word, check word = true ↔ IsCrcWord g (g.length + d) 77 (word.map lsb))
    (hlisted : ∀ q < 2^d, ∀ a < g.length + 1, Listed missed d a (withRemainder g (coefficients d q)))
    (haccepted : ∀ e ∈ missed, check (e.map Bool.toUInt8) = true) : CrcChecks g (g.length + d) missed check := by
  have hmissed : ∀ e ∈ missed, IsCrcWord g (g.length + d) 77 e := by
    intro e he
    have hcheck := (h _).1 (haccepted e he)
    rwa [map_lsb_toUInt8] at hcheck
  refine ⟨fun word => ?_,fun v w hv hw => ?_,fun word e s hword hlen hbit hwindow => ?_⟩
  · rw [h,IsCrcWord,List.length_map,List.map_drop,List.map_take]
  · rw [h,lsb_xor]
    exact ((h v).1 hv).xor ((h w).1 hw)
  · rw [h,lsb_xor]
    constructor
    · intro hboth
      have hburst := not_imp_not.1 (((h word).1 hword).burst (by rw [List.length_map,List.length_map,hlen])) hboth
      refine mem_of_isCrcWord_burst hconst hpos (fun a ha t ht hgap htrue => ?_) hwindow hbit hburst
      obtain ⟨q,hq,rfl⟩ := exists_coefficients ht
      exact hlisted q hq a (by omega) hgap htrue
    · exact fun he => ((h word).1 hword).xor (hmissed _ he)

theorem coeff_crcGenerator_zero {g : List Bool} (h : g.getLast? = some true) (hlen : 1 < g.length) :
    (crcGenerator g).coeff 0 ≠ 0 := by
  obtain ⟨l,rfl⟩ := List.getLast?_eq_some_iff.1 h
  rw [crcGenerator,coeff_add,coeff_X_pow,if_neg (by omega),bitPoly_concat,coeff_add,mul_coeff_zero,coeff_X_zero,zero_mul,
    coeff_C_zero]
  decide

private theorem map_lsb_crcBits (n crc : Nat) : (crcBits n crc).map lsb = coefficients n crc := by
  rw [crcBits,List.map_map,coefficients]
  refine List.map_congr_left fun i _ => ?_
  rw [Function.comp_apply,Nat.testBit_eq_decide_div_mod_eq,Nat.and_one_is_mod,Nat.shiftRight_eq_div_pow,lsb]
  rcases Nat.mod_two_eq_zero_or_one (crc / 2^(n - 1 - i)) with h | h <;> rw [h] <;> rfl

private theorem length_crcBits (n crc : Nat) : (crcBits n crc).length = n := by simp [crcBits]

private theorem crcBits_le_one {n crc : Nat} : ∀ b ∈ crcBits n crc, b ≤ 1 := by
  intro b hb
  obtain ⟨i,-,rfl⟩ := List.mem_map.1 hb
  rw [Nat.and_one_is_mod]
  rcases Nat.mod_two_eq_zero_or_one (crc >>> (n - 1 - i)) with h | h <;> rw [h] <;> decide

/-- Bits are told apart by their values. -/
private theorem eq_of_map_lsb {v w : List UInt8} (hv : ∀ b ∈ v, b ≤ 1) (hw : ∀ b ∈ w, b ≤ 1)
    (h : v.map lsb = w.map lsb) : v = w := by
  have hself : ∀ b : UInt8, b ≤ 1 → (lsb b).toUInt8 = b := by
    intro b hb
    have hle : b.toNat ≤ 1 := hb
    rcases Nat.le_one_iff_eq_zero_or_eq_one.1 hle with h0 | h1
    · rw [show b = 0 from UInt8.toNat_inj.mp h0]
      rfl
    · rw [show b = 1 from UInt8.toNat_inj.mp h1]
      rfl
  have hback : ∀ l : List UInt8, (∀ b ∈ l, b ≤ 1) → (l.map lsb).map Bool.toUInt8 = l := by
    intro l hl
    rw [List.map_map]
    exact (List.map_congr_left fun b hb => hself b (hl b hb)).trans (List.map_id l)
  rw [← hback v hv,← hback w hw,h]

private theorem appendsCrc_of_remainder {n poly pad : Nat} {check : List UInt8 → Bool} {crc : List UInt8 → Nat}
    (h : ∀ word, check word = true ↔ IsCrcWord (coefficients n poly) pad 77 (word.map lsb))
    (hcrc : ∀ message : List UInt8, message.length = 77 → bitPoly (coefficients n (crc message)) =
      (bitPoly (message.map lsb) * X^pad) %ₘ crcGenerator (coefficients n poly)) :
    AppendsCrc check fun message => message ++ crcBits n (crc message) := by
  refine ⟨fun message hlen => ?_,fun word hword hcheck => ?_⟩
  · have hbits : (message.map lsb).length = 77 := by rw [List.length_map,hlen]
    rw [h,List.map_append,map_lsb_crcBits]
    refine ⟨by simp [hlen],?_⟩
    rw [List.drop_left' hbits,List.take_left' hbits]
    exact hcrc message hlen
  · obtain ⟨hlen,hpoly⟩ := (h word).1 hcheck
    rw [List.length_map,length_coefficients] at hlen
    have htake : (word.take 77).length = 77 := by
      rw [List.length_take]
      omega
    rw [← List.map_drop,← List.map_take,← hcrc _ htake] at hpoly
    have hdrop : (word.drop 77).map lsb = coefficients n (crc (word.take 77)) :=
      bitPoly_injective (by simp [hlen]) hpoly
    have htail : word.drop 77 = crcBits n (crc (word.take 77)) :=
      eq_of_map_lsb (fun b hb => hword b (List.mem_of_mem_drop hb)) crcBits_le_one
        (hdrop.trans (map_lsb_crcBits _ _).symm)
    exact (congrArg (word.take 77 ++ ·) htail.symm).trans (List.take_append_drop 77 word)

theorem appendsCrc14 : AppendsCrc checkCrc14 appendCrc14 :=
  appendsCrc_of_remainder checkCrc14_iff fun message hlen => by
    have h := augmentedCrc_packBits 13 0x2757 message (by omega)
    rwa [hlen] at h

theorem appendsCrc24 : AppendsCrc checkCrc24 appendCrc24 :=
  appendsCrc_of_remainder checkCrc24_iff fun _ hlen => (crc24_padded hlen).2

theorem length_appendCrc14 (message : List UInt8) : (appendCrc14 message).length = message.length + 14 := by
  rw [appendCrc14,List.length_append,length_crcBits]

theorem length_appendCrc24 (message : List UInt8) : (appendCrc24 message).length = message.length + 24 := by
  rw [appendCrc24,List.length_append,length_crcBits]

theorem appendCrc14_le_one {message : List UInt8} (h : ∀ b ∈ message, b ≤ 1) : ∀ b ∈ appendCrc14 message, b ≤ 1 :=
  fun b hb => (List.mem_append.1 hb).elim (h b) (crcBits_le_one b)

theorem appendCrc24_le_one {message : List UInt8} (h : ∀ b ∈ message, b ≤ 1) : ∀ b ∈ appendCrc24 message, b ≤ 1 :=
  fun b hb => (List.mem_append.1 hb).elim (h b) (crcBits_le_one b)

/-- The three checks are remainders under their generators that notice every short burst but the listed ones, and
the two encoders give out what is accepted. -/
theorem crcs_are_remainders :
    CrcChecks (coefficients 14 0x2757) 19 missedByCrc14 checkCrc14 ∧
      CrcChecks (coefficients 24 0x100065B) 24 [] checkCrc24 ∧
      CrcChecks (coefficients 13 0x15D7) 19 missedByCrc13 checkCrc13 ∧ AppendsCrc checkCrc14 appendCrc14 ∧
      AppendsCrc checkCrc24 appendCrc24 := by
  exact ⟨crcChecks_of_iff (d := 5) (coeff_crcGenerator_zero (by decide) (by decide)) (by decide) checkCrc14_iff
      (by decide +kernel) (by decide +kernel),
    crcChecks_of_iff (d := 0) (coeff_crcGenerator_zero (by decide) (by decide)) (by decide) checkCrc24_iff
      (by decide +kernel) (by decide),
    crcChecks_of_iff (d := 6) (coeff_crcGenerator_zero (by decide) (by decide)) (by decide) checkCrc13_iff
      (by decide +kernel) (by decide +kernel),
    appendsCrc14,appendsCrc24⟩

/-- Across the gap a burst can be missed: twelve places under CRC-14, and twelve under CRC-13. -/
theorem crc_burst_missed :
    (∃ e : List UInt8, e.length = 91 ∧ true ∈ e.map lsb ∧ InWindow (e.map lsb) 69 12 ∧
      checkCrc14 (List.replicate 91 0) = true ∧
      checkCrc14 (List.zipWith (· ^^^ ·) (List.replicate 91 0) e) = true) ∧
    ∃ e : List UInt8, e.length = 90 ∧ true ∈ e.map lsb ∧ InWindow (e.map lsb) 75 12 ∧
      checkCrc13 (List.replicate 90 0) = true ∧
      checkCrc13 (List.zipWith (· ^^^ ·) (List.replicate 90 0) e) = true := by
  have hwindow : ∀ {e : List Bool} {s n : Nat}, (∀ i < e.length, e.getD i false = true → s ≤ i ∧ i < s + n) →
      InWindow e s n := by
    intro e s n h i hi
    have hlt : i < e.length := (List.getElem?_eq_some_iff.1 hi).1
    exact h i hlt (by rw [List.getD_eq_getElem?_getD,hi,Option.getD_some])
  refine ⟨⟨List.replicate 69 0 ++ [1,1,1,1,1,1,0,1,1,0,1,1] ++ List.replicate 10 0,by decide,by decide,
    hwindow (by decide +kernel),by decide +kernel,by decide +kernel⟩,
    ⟨List.replicate 75 0 ++ [1,1,1,1,0,0,0,0,1,0,0,1] ++ List.replicate 3 0,by decide,by decide,
    hwindow (by decide +kernel),by decide +kernel,by decide +kernel⟩⟩

end Codes

end MfskCore.Fec
