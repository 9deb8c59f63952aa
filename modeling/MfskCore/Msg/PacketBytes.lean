import MfskCore.Library.LinearFold

/-! The check bits of `PacketBytesMessage` (`msg/packet_bytes.rs`): a length code, ten bytes and a CRC-7
over them, one bit a byte. -/
namespace MfskCore.Msg
open Library

def PAYLOAD_BITS : Nat := 91
def HEAD_BITS : Nat := 84
def CRC7_POLY : UInt8 := 0x09

/-- One bit through the register: it is shifted in at the low end and also tested against the bit shifted
out. -/
def crc7Step (crc bit : UInt8) : UInt8 :=
  let inBit := bit &&& 1
  let top := (crc >>> 6) &&& 1
  let crc := ((crc <<< 1) ||| inBit) &&& 0x7F
  if top ^^^ inBit ≠ 0 then crc ^^^ CRC7_POLY else crc

def crc7 (bits : List UInt8) : UInt8 := bits.foldl crc7Step 0 &&& 0x7F

/-- The check bits as they were received, the first one the highest. -/
def receivedStep (received b : UInt8) : UInt8 := (received <<< 1) ||| (b &&& 1)

def verifyInfo (info : List UInt8) : Bool :=
  if info.length ≠ PAYLOAD_BITS then false
  else crc7 (info.take HEAD_BITS) == ((info.drop HEAD_BITS).take 7).foldl receivedStep 0

/-- One bit of a word changed. -/
def flipBit (info : List UInt8) (i : Nat) : List UInt8 := info.modify i (· ^^^ 1)

section Register

private theorem uint8_cases {P : UInt8 → Prop} (h : ∀ n < 256, P (UInt8.ofNat n)) (x : UInt8) : P x := by
  have hx := h x.toNat x.toNat_lt
  rwa [UInt8.ofNat_toNat] at hx

private theorem xor_and (x y m : UInt8) : (x ^^^ y) &&& m = (x &&& m) ^^^ (y &&& m) := by
  refine UInt8.toNat_inj.mp (Nat.eq_of_testBit_eq fun i => ?_)
  simp only [UInt8.toNat_and,UInt8.toNat_xor,Nat.testBit_and,Nat.testBit_xor]
  cases x.toNat.testBit i <;> cases y.toNat.testBit i <;> cases m.toNat.testBit i <;> rfl

/-- The register without input: multiplication by `x` modulo `x^7 + x^3 + 1`. -/
def crc7Shift (crc : UInt8) : UInt8 := ((crc <<< 1) &&& 0x7F) ^^^ if (crc >>> 6) &&& 1 = 0 then 0 else CRC7_POLY

/-- What one byte can be. -/
private theorem byte_facts (b : UInt8) : (b &&& 1 = 0 ∨ b &&& 1 = 1) ∧ crc7Step b 0 = crc7Shift b ^^^ 0 ∧
    crc7Step b 1 = crc7Shift b ^^^ 8 ∧ crc7Shift b &&& 0x7F = crc7Shift b ∧
    b <<< (1 : UInt8) ||| 1 = b <<< (1 : UInt8) ^^^ 1 :=
  uint8_cases (P := fun b => (b &&& 1 = 0 ∨ b &&& 1 = 1) ∧ crc7Step b 0 = crc7Shift b ^^^ 0 ∧
    crc7Step b 1 = crc7Shift b ^^^ 8 ∧ crc7Shift b &&& 0x7F = crc7Shift b ∧
    b <<< (1 : UInt8) ||| 1 = b <<< (1 : UInt8) ^^^ 1) (by decide +kernel) b

private theorem and_one_cases (b : UInt8) : b &&& 1 = 0 ∨ b &&& 1 = 1 := (byte_facts b).1

/-- An input bit enters at `x^3`: its two effects on the low end cancel. -/
theorem crc7Step_eq (crc bit : UInt8) : crc7Step crc bit = crc7Shift crc ^^^ if bit &&& 1 = 0 then 0 else 8 := by
  have hlow : crc7Step crc bit = crc7Step crc (bit &&& 1) := by
    rw [crc7Step,crc7Step,UInt8.and_assoc,UInt8.and_self]
  rw [hlow]
  rcases and_one_cases bit with h | h <;> rw [h]
  · exact (byte_facts crc).2.1
  · exact (byte_facts crc).2.2.1

theorem crc7Shift_xor (c d : UInt8) : crc7Shift (c ^^^ d) = crc7Shift c ^^^ crc7Shift d := by
  have hfeedback : (if ((c ^^^ d) >>> 6) &&& 1 = 0 then 0 else CRC7_POLY) =
      (if (c >>> 6) &&& 1 = 0 then 0 else CRC7_POLY) ^^^ if (d >>> 6) &&& 1 = 0 then 0 else CRC7_POLY := by
    rw [UInt8.shiftRight_xor,xor_and]
    rcases and_one_cases (c >>> 6) with hc | hc <;> rcases and_one_cases (d >>> 6) with hd | hd <;>
      rw [hc,hd] <;> rfl
  rw [crc7Shift,hfeedback,UInt8.shiftLeft_xor,xor_and,crc7Shift,crc7Shift]
  ac_rfl

theorem crc7Step_xor (crc d bit : UInt8) : crc7Step (crc ^^^ d) bit = crc7Step crc bit ^^^ crc7Shift d := by
  rw [crc7Step_eq,crc7Step_eq,crc7Shift_xor]
  ac_rfl

/-- Flipping the lowest bit of a byte flips what it contributes. -/
private theorem flip_contribution (bit w : UInt8) :
    (if (bit ^^^ 1) &&& 1 = 0 then 0 else w) = (if bit &&& 1 = 0 then 0 else w) ^^^ w := by
  rw [xor_and]
  rcases and_one_cases bit with h | h <;> rw [h]
  · exact UInt8.zero_xor.symm
  · exact UInt8.xor_self.symm

theorem crc7Step_flip (crc bit : UInt8) : crc7Step crc (bit ^^^ 1) = crc7Step crc bit ^^^ 8 := by
  rw [crc7Step_eq,crc7Step_eq,flip_contribution,UInt8.xor_assoc]

def receivedShift (received : UInt8) : UInt8 := received <<< 1

theorem receivedStep_eq (received bit : UInt8) :
    receivedStep received bit = (received <<< 1) ^^^ if bit &&& 1 = 0 then 0 else 1 := by
  rw [receivedStep]
  rcases and_one_cases bit with h | h <;> rw [h]
  · exact UInt8.or_zero.trans UInt8.xor_zero.symm
  · exact (byte_facts received).2.2.2.2

theorem receivedStep_xor (received d bit : UInt8) :
    receivedStep (received ^^^ d) bit = receivedStep received bit ^^^ receivedShift d := by
  rw [receivedStep_eq,receivedStep_eq,UInt8.shiftLeft_xor,receivedShift]
  ac_rfl

theorem receivedStep_flip (received bit : UInt8) :
    receivedStep received (bit ^^^ 1) = receivedStep received bit ^^^ 1 := by
  rw [receivedStep_eq,receivedStep_eq,flip_contribution,UInt8.xor_assoc]

end Register

section Syndrome

/-- The computed check bits against the received ones. -/
def crc7Syndrome (info : List UInt8) : UInt8 :=
  (info.take HEAD_BITS).foldl crc7Step 0 ^^^ (info.drop HEAD_BITS).foldl receivedStep 0

/-- What a changed bit adds to the syndrome. -/
def crc7Weight (i : Nat) : UInt8 :=
  if i < HEAD_BITS then crc7Shift^[HEAD_BITS - 1 - i] 8 else receivedShift^[PAYLOAD_BITS - 1 - i] 1

private theorem crc7Step_masked (crc bit : UInt8) : crc7Step crc bit &&& 0x7F = crc7Step crc bit := by
  rw [crc7Step_eq]
  rw [xor_and,(byte_facts crc).2.2.2.1]
  split <;> rfl

private theorem foldl_crc7Step_masked (bits : List UInt8) {crc : UInt8} (h : crc &&& 0x7F = crc) :
    bits.foldl crc7Step crc &&& 0x7F = bits.foldl crc7Step crc := by
  induction bits generalizing crc with
  | nil => exact h
  | cons bit bits ih => exact ih (crc7Step_masked crc bit)

/-- A word of the right length is accepted exactly when its syndrome is zero. -/
theorem verifyInfo_iff {info : List UInt8} (h : info.length = PAYLOAD_BITS) :
    verifyInfo info = true ↔ crc7Syndrome info = 0 := by
  have htail : (info.drop HEAD_BITS).take 7 = info.drop HEAD_BITS :=
    List.take_of_length_le (by rw [List.length_drop,h]; decide)
  rw [verifyInfo,if_neg (not_not.2 h),htail,crc7,foldl_crc7Step_masked _ rfl,beq_iff_eq,crc7Syndrome]
  exact UInt8.xor_eq_zero_iff.symm

theorem length_flipBit (info : List UInt8) (i : Nat) : (flipBit info i).length = info.length :=
  List.length_modify _ _ _

theorem crc7Syndrome_flip {info : List UInt8} (h : info.length = PAYLOAD_BITS) {i : Nat} (hi : i < PAYLOAD_BITS) :
    crc7Syndrome (flipBit info i) = crc7Syndrome info ^^^ crc7Weight i := by
  have hhead : (info.take HEAD_BITS).length = HEAD_BITS := by
    rw [List.length_take,h]
    rfl
  have htail : (info.drop HEAD_BITS).length = 7 := by
    rw [List.length_drop,h]
    rfl
  rw [crc7Syndrome,flipBit,List.take_modify,crc7Weight,crc7Syndrome]
  by_cases hlt : i < HEAD_BITS
  · rw [if_pos hlt,List.drop_modify_of_lt _ _ _ _ hlt,foldl_modify crc7Step_xor crc7Step_flip _ (by omega),hhead]
    ac_rfl
  · have hplace : (info.drop HEAD_BITS).length - 1 - (i - HEAD_BITS) = PAYLOAD_BITS - 1 - i := by
      rw [htail]
      unfold HEAD_BITS PAYLOAD_BITS at *
      omega
    have hin : i - HEAD_BITS < (info.drop HEAD_BITS).length := by
      rw [htail]
      unfold HEAD_BITS PAYLOAD_BITS at *
      omega
    rw [if_neg hlt,List.modify_eq_self (by omega),List.drop_modify_of_ge _ _ _ _ (by omega),
      foldl_modify receivedStep_xor receivedStep_flip _ hin,hplace,UInt8.xor_assoc]

end Syndrome

section Distance

/-- The place of a weight in the powers of `x`: the powers of the check bits are the low ones, and the head
bits begin at `x^3`. -/
private def place (i : Nat) : Nat := if i < HEAD_BITS then 86 - i else 90 - i

/-- Logarithms to the base `x`, of which `x^7 + x^3 + 1` has 127. -/
private def logTable : List Nat :=
  [0,0,1,31,2,62,32,103,3,7,63,15,33,84,104,93,4,124,8,121,64,79,16,115,34,11,85,38,105,46,94,51,5,82,125,60,9,
   44,122,77,65,67,80,42,17,69,116,23,35,118,12,28,86,25,39,57,106,19,47,89,95,71,52,110,6,14,83,92,126,30,61,
   102,10,37,45,50,123,120,78,114,66,41,68,22,81,59,43,76,18,88,70,109,117,27,24,56,36,49,119,113,13,91,29,101,
   87,108,26,55,40,21,58,75,107,54,20,74,48,112,90,100,96,97,72,98,53,73,111,99]

private theorem weight_facts :
    (∀ i < PAYLOAD_BITS, crc7Weight i ≠ 0 ∧ logTable.getD (crc7Weight i).toNat 0 = place i) ∧
    ∀ i < HEAD_BITS, 80 ≤ i → crc7Weight i = crc7Weight (i + 4) := by
  decide +kernel

private theorem log_crc7Weight {i : Nat} (hi : i < PAYLOAD_BITS) :
    crc7Weight i ≠ 0 ∧ logTable.getD (crc7Weight i).toNat 0 = place i := weight_facts.1 i hi

/-- Two places of the word weigh the same only when one is a check bit and the other the head bit that enters
where it stands. -/
theorem crc7Weight_eq_iff {i j : Nat} (hij : i < j) (hj : j < PAYLOAD_BITS) :
    crc7Weight i = crc7Weight j ↔ 80 ≤ i ∧ i < HEAD_BITS ∧ j = i + 4 := by
  constructor
  · intro h
    have hplace : place i = place j := by
      rw [← (log_crc7Weight (Nat.lt_trans hij hj)).2,← (log_crc7Weight hj).2,h]
    unfold place at hplace
    unfold HEAD_BITS PAYLOAD_BITS at *
    split at hplace <;> split at hplace <;> omega
  · rintro ⟨hlow,hhigh,rfl⟩
    exact weight_facts.2 i hhigh hlow

/-- One changed bit is always noticed; of two, exactly the pairs of the last four head bits with the check bit
four places on are not. -/
theorem packet_crc_distance (info : List UInt8) (h : verifyInfo info = true) :
    (∀ i < PAYLOAD_BITS, verifyInfo (flipBit info i) = false) ∧
    ∀ i j, i < j → j < PAYLOAD_BITS → (verifyInfo (flipBit (flipBit info i) j) = false ↔
      ¬(80 ≤ i ∧ i < HEAD_BITS ∧ j = i + 4)) := by
  have hlength : info.length = PAYLOAD_BITS := by
    by_contra hne
    rw [verifyInfo,if_pos hne] at h
    exact Bool.false_ne_true h
  have hzero := (verifyInfo_iff hlength).1 h
  have hone : ∀ i < PAYLOAD_BITS, crc7Syndrome (flipBit info i) = crc7Weight i := fun i hi => by
    rw [crc7Syndrome_flip hlength hi,hzero,UInt8.zero_xor]
  have hflip (i : Nat) : (flipBit info i).length = PAYLOAD_BITS := (length_flipBit info i).trans hlength
  refine ⟨fun i hi => ?_,fun i j hij hj => ?_⟩
  · rw [← Bool.not_eq_true,verifyInfo_iff (hflip i),hone i hi]
    exact (log_crc7Weight hi).1
  · rw [← Bool.not_eq_true,verifyInfo_iff ((length_flipBit _ j).trans (hflip i)),crc7Syndrome_flip (hflip i) hj,
      hone i (Nat.lt_trans hij hj),UInt8.xor_eq_zero_iff,crc7Weight_eq_iff hij hj]

theorem packet_crc_distance_zero :
    verifyInfo (flipBit (flipBit (List.replicate PAYLOAD_BITS 0) 3) 90) = false :=
  ((packet_crc_distance (List.replicate PAYLOAD_BITS 0) (by decide +kernel)).2 3 90 (by decide) (by decide)).2
    (by decide)

/-- The last head bit and the check bit in fourth place are changed in the all-zero word, and it is accepted. -/
theorem packet_crc_misses_pair : verifyInfo (List.replicate PAYLOAD_BITS 0) = true ∧
    verifyInfo (flipBit (flipBit (List.replicate PAYLOAD_BITS 0) 83) 87) = true := by
  decide +kernel

end Distance

end MfskCore.Msg
