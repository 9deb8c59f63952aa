import MfskCore.Library.XorSum
import MfskCore.Uvpacket.HeaderCrc

/-! Short bursts anywhere in a uvpacket frame, also across the borders between its word, its checksum and its payload,
which the checksum sees in another order. -/
namespace MfskCore.Uvpacket
open Fec Library Polynomial

section Powers

/-- So many remainders of powers, from that of a register on. -/
def powersFrom : Nat → Nat → List Nat
  | 0, _ => []
  | n + 1, r => r :: powersFrom n (timesX r)

theorem length_powersFrom (n r : Nat) : (powersFrom n r).length = n := by
  induction n generalizing r with
  | zero => rfl
  | succ n ih => rw [powersFrom,List.length_cons,ih]

theorem powersFrom_lt {n r : Nat} (hr : r < 2^16) : ∀ x ∈ powersFrom n r, x < 2^16 := by
  induction n generalizing r with
  | zero => exact fun x hx => absurd hx List.not_mem_nil
  | succ n ih => exact List.forall_mem_cons.2 ⟨hr,ih (crcBit_lt r 0)⟩

/-- The chosen ones add up to the remainder of the word that chooses them. -/
theorem bitPoly_xorSum (u : List Bool) (k : Nat) :
    bitPoly (coefficients 16 (xorSum u (powersFrom u.length (timesX^[k] 1)))) =
      (bitPoly u.reverse * X^k) %ₘ crcGenerator CRC16_POLY := by
  induction u generalizing k with
  | nil =>
    have hzero : bitPoly (coefficients 16 0) = 0 := bitPoly_eq_zero_of_false (by decide)
    have hnil : bitPoly ([] : List Bool) = 0 := rfl
    rw [xorSum_nil_left,hzero,List.reverse_nil,hnil,zero_mul,zero_modByMonic]
  | cons b u ih =>
    have hnext : timesX (timesX^[k] 1) = timesX^[k + 1] 1 := (Function.iterate_succ_apply' timesX k 1).symm
    have hfirst : bitPoly (coefficients 16 (bif b then timesX^[k] 1 else 0)) =
        (C (if b then 1 else 0) * X^k) %ₘ crcGenerator CRC16_POLY := by
      cases b with
      | false =>
        rw [cond_false,if_neg Bool.false_ne_true,C_0,zero_mul,zero_modByMonic]
        exact bitPoly_eq_zero_of_false (by decide)
      | true => rw [cond_true,if_pos rfl,C_1,one_mul,(bitPoly_iterate k).1]
    rw [List.length_cons,powersFrom,xorSum_cons,coefficients_xor,
      bitPoly_xor (by rw [length_coefficients,length_coefficients]),hfirst,hnext,ih,List.reverse_cons,bitPoly_concat,
      ← add_modByMonic]
    refine congrArg (· %ₘ crcGenerator CRC16_POLY) ?_
    ring

/-- A word moved up far is not made up for by a short one, where the powers it is moved to are independent even without
the places of the short one. -/
theorem not_dvd_moved {u v : List Bool} {k : Nat} (hu : true ∈ u) (hv : v.length ≤ 16)
    (hclear : independent u.length ((powersFrom u.length (timesX^[k] 1)).map (· >>> v.length)) = true) :
    ¬crcGenerator CRC16_POLY ∣ bitPoly u * X^k + bitPoly v := by
  intro hdvd
  obtain ⟨w,hw⟩ : ∃ w, xorSum u.reverse (powersFrom u.length (timesX^[k] 1)) = w := ⟨_,rfl⟩
  have hlt : w < 2^16 := hw ▸ xorSum_lt (powersFrom_lt (bitPoly_iterate k).2) _
  have hsum := bitPoly_xorSum u.reverse k
  rw [List.length_reverse,List.reverse_reverse,hw] at hsum
  have hpad : bitPoly (List.replicate (16 - v.length) false ++ v) = bitPoly v := by
    rw [bitPoly_append,bitPoly_eq_zero_of_false fun b hb => List.eq_of_mem_replicate hb,zero_mul,zero_add]
  have hpadlen : (List.replicate (16 - v.length) false ++ v).length = 16 := by
    rw [List.length_append,List.length_replicate]
    omega
  have hsame : coefficients 16 w = List.replicate (16 - v.length) false ++ v := by
    refine bitPoly_injective (by rw [length_coefficients,hpadlen]) (hsum.trans (Eq.symm ?_))
    rw [eq_remainder_iff (by rw [hpadlen,length_CRC16_POLY]),hpad]
    exact hdvd
  -- So the sum has no bit beyond the places of the short word.
  have hshift : w >>> v.length = 0 := by
    refine Nat.eq_of_testBit_eq fun i => ?_
    rw [Nat.testBit_shiftRight,Nat.zero_testBit]
    rcases Nat.lt_or_ge (v.length + i) 16 with hi | hi
    · have hindex : 15 - (v.length + i) < (coefficients 16 w).length := by
        rw [length_coefficients]
        omega
      have hbit := getElem_coefficients hindex
      simp only [hsame] at hbit
      rw [List.getElem_append_left (by rw [List.length_replicate]; omega),List.getElem_replicate] at hbit
      rw [hbit]
      exact congrArg w.testBit (by omega)
    · exact Nat.testBit_lt_two_pow (hlt.trans_le (Nat.pow_le_pow_right (by decide) hi))
  refine xorSum_ne_zero hclear (u := u.reverse) ?_ (List.mem_reverse.2 hu) ?_
  · rw [List.length_reverse,List.length_map,length_powersFrom]
  · rw [xorSum_shiftRight,hw,hshift]

end Powers

section Borders

/-- However the places of a burst are divided by a border, those on the far side are not made up for by those on the
near one. -/
def borderClear (width gap r : Nat) : Bool :=
  (List.range' 1 (width - 1)).all fun p =>
    independent p ((powersFrom p (timesX^[gap - p] r)).map (· >>> (width - p)))

/-- The borders of the word and of the payload, in frames of up to so many blocks more. -/
def bordersClear : Nat → Nat → Bool
  | 0, _ => true
  | n + 1, r =>
    let r' := timesX^[96] r
    borderClear 10 10 r' && borderClear 11 16 r' && bordersClear n r'

theorem borderClear_of_bordersClear {m k : Nat} (h : bordersClear m (timesX^[k] 1) = true) :
    ∀ n, 1 ≤ n → n ≤ m → borderClear 10 10 (timesX^[k + 96 * n] 1) = true ∧
      borderClear 11 16 (timesX^[k + 96 * n] 1) = true := by
  induction m generalizing k with
  | zero => exact fun n h1 h0 => absurd h1 (by omega)
  | succ m ih =>
    have hnext : timesX^[96] (timesX^[k] 1) = timesX^[k + 96] 1 := by
      rw [← Function.iterate_add_apply,Nat.add_comm]
    rw [bordersClear,hnext,Bool.and_eq_true,Bool.and_eq_true] at h
    obtain ⟨hborders,hrest⟩ := h
    intro n h1 hn
    rcases Nat.eq_or_lt_of_le h1 with rfl | h2
    · exact hborders
    · have hlater := ih hrest (n - 1) (by omega) (by omega)
      have hplace : k + 96 + 96 * (n - 1) = k + 96 * n := by omega
      rwa [hplace] at hlater

/-- Every frame. -/
theorem borders_clear {n : Nat} (h1 : 1 ≤ n) (h32 : n ≤ 32) : borderClear 10 10 (timesX^[96 * n] 1) = true ∧
    borderClear 11 16 (timesX^[96 * n] 1) = true := by
  have hall : bordersClear 32 1 = true := by decide +kernel
  have hborders := borderClear_of_bordersClear (k := 0) hall n h1 h32
  rwa [Nat.zero_add] at hborders

/-- What is on the far side of a border, moved up over the payload, with what is on the near side. -/
theorem not_dvd_of_borderClear {width gap k : Nat} (h : borderClear width gap (timesX^[k] 1) = true) (h16 : width ≤ 17)
    {u v : List Bool} (hu : true ∈ u) (hpos : 0 < v.length) (hsum : u.length + v.length = width) :
    ¬crcGenerator CRC16_POLY ∣ bitPoly u * X^(k + (gap - u.length)) + bitPoly v := by
  have hlen : 0 < u.length := List.length_pos_of_mem hu
  have hp := List.all_eq_true.1 h u.length (List.mem_range'_1.2 ⟨hlen,by omega⟩)
  rw [← Function.iterate_add_apply,Nat.add_comm] at hp
  have hv : width - u.length = v.length := by omega
  rw [hv] at hp
  exact not_dvd_moved hu (by omega) hp

end Borders

section Bursts
variable {word crc payload : List Bool} {e : List UInt8} {n s : Nat}

theorem left_window {l m : List Bool} {width : Nat} (h : InWindow (l ++ m) s width) {i : Nat} (hi : l[i]? = some true) :
    s ≤ i ∧ i < s + width := by
  refine h i ?_
  rwa [List.getElem?_append_left (List.getElem?_eq_some_iff.1 hi).1]

theorem right_window {l m : List Bool} {width : Nat} (h : InWindow (l ++ m) s width) {i : Nat} (hi : m[i]? = some true) :
    s ≤ l.length + i ∧ l.length + i < s + width := by
  refine h _ ?_
  rwa [List.getElem?_append_right (Nat.le_add_right _ _),Nat.add_sub_cancel_left]

theorem mem_of_window {l : List Bool} {width : Nat} (h : InWindow l s width) (hl : true ∈ l) :
    true ∈ (l.drop s).take width := by
  obtain ⟨i,hi⟩ := List.mem_iff_getElem?.1 hl
  obtain ⟨hlo,hhi⟩ := h i hi
  refine List.mem_iff_getElem?.2 ⟨i - s,?_⟩
  rw [List.getElem?_take_of_lt (by omega),List.getElem?_drop,Nat.add_sub_cancel' hlo]
  exact hi

theorem bitPoly_of_none {l : List Bool} (h : ∀ i : Nat, l[i]? = some true → False) : bitPoly l = 0 :=
  bitPoly_eq_zero_of_false fun b hb => by
    obtain ⟨i,hi⟩ := List.mem_iff_getElem?.1 hb
    cases b with
    | false => rfl
    | true => exact (h i hi).elim

/-- Ten places across the end of the word. -/
theorem not_dvd_word_border (hword : word.length = 16) (hcrc : crc.length = 16) (hpayload : payload.length = 96 * n)
    (h1 : 1 ≤ n) (h32 : n ≤ 32) (hwindow : InWindow (word ++ (crc ++ payload)) s 10) (hs : 6 < s ∧ s < 16)
    (hfar : true ∈ word) : ¬crcGenerator CRC16_POLY ∣ bitPoly (word ++ payload ++ crc) := by
  have hconst : (crcGenerator CRC16_POLY).coeff 0 ≠ 0 := coeff_crcGenerator_zero (by decide) (by decide)
  have hw : InWindow word s (16 - s) := fun i hi => by
    have hin := left_window hwindow hi
    have hlt := (List.getElem?_eq_some_iff.1 hi).1
    omega
  have hc : InWindow crc 0 (s - 6) := fun i hi => by
    have hin := right_window hwindow (i := i) (by rwa [List.getElem?_append_left (List.getElem?_eq_some_iff.1 hi).1])
    omega
  have hp : bitPoly payload = 0 := bitPoly_of_none fun i hi => by
    have hin := right_window hwindow (i := crc.length + i)
      (by rwa [List.getElem?_append_right (Nat.le_add_right _ _),Nat.add_sub_cancel_left])
    omega
  obtain ⟨u,hu⟩ : ∃ u, (word.drop s).take (16 - s) = u := ⟨_,rfl⟩
  obtain ⟨v,hv⟩ : ∃ v, (crc.drop 0).take (s - 6) = v := ⟨_,rfl⟩
  have hulen : u.length = 16 - s := by
    rw [← hu,List.length_take,List.length_drop]
    omega
  have hvlen : v.length = s - 6 := by
    rw [← hv,List.length_take,List.length_drop]
    omega
  have hsum : bitPoly (word ++ payload ++ crc) =
      (bitPoly u * X^(96 * n + (10 - u.length)) + bitPoly v) * X^(22 - s) := by
    have hwordPoly : bitPoly word = bitPoly u := by
      have hlow : 16 - (s + (16 - s)) = 0 := by omega
      rw [bitPoly_window hw,hu,hword,hlow,pow_zero,mul_one]
    have hcrcPoly : bitPoly crc = bitPoly v * X^(22 - s) := by
      have hlow : 16 - (0 + (s - 6)) = 22 - s := by omega
      rw [bitPoly_window hc,hv,hcrc,hlow]
    have hplaces : 96 * n + (10 - (16 - s)) + (22 - s) = 96 * n + 16 := by omega
    rw [bitPoly_append,bitPoly_append,hp,hcrc,hpayload,hwordPoly,hcrcPoly,hulen,add_zero,add_mul,mul_assoc,mul_assoc,
      ← pow_add,← pow_add,hplaces]
  rw [hsum]
  intro hdvd
  refine not_dvd_of_borderClear (borders_clear h1 h32).1 (by decide) (hu ▸ mem_of_window hw hfar) (by omega) (by omega)
    ((coprime_crcGenerator hconst _).dvd_of_dvd_mul_right hdvd)

/-- Eleven places across the beginning of the payload. -/
theorem not_dvd_payload_border (hword : word.length = 16) (hcrc : crc.length = 16) (hpayload : payload.length = 96 * n)
    (h1 : 1 ≤ n) (h32 : n ≤ 32) (hwindow : InWindow (word ++ (crc ++ payload)) s 11) (hs : 21 < s ∧ s < 32)
    (hfar : true ∈ payload) : ¬crcGenerator CRC16_POLY ∣ bitPoly (word ++ payload ++ crc) := by
  have hw : bitPoly word = 0 := bitPoly_of_none fun i hi => by
    have hin := left_window hwindow hi
    have hlt := (List.getElem?_eq_some_iff.1 hi).1
    omega
  have hc : InWindow crc (s - 16) (32 - s) := fun i hi => by
    have hlt := (List.getElem?_eq_some_iff.1 hi).1
    have hin := right_window hwindow (i := i) (by rwa [List.getElem?_append_left hlt])
    omega
  have hp : InWindow payload 0 (s - 21) := fun i hi => by
    have hin := right_window hwindow (i := crc.length + i)
      (by rwa [List.getElem?_append_right (Nat.le_add_right _ _),Nat.add_sub_cancel_left])
    omega
  obtain ⟨u,hu⟩ : ∃ u, (payload.drop 0).take (s - 21) = u := ⟨_,rfl⟩
  obtain ⟨v,hv⟩ : ∃ v, (crc.drop (s - 16)).take (32 - s) = v := ⟨_,rfl⟩
  have hulen : u.length = s - 21 := by
    rw [← hu,List.length_take,List.length_drop]
    omega
  have hvlen : v.length = 32 - s := by
    rw [← hv,List.length_take,List.length_drop]
    omega
  have hsum : bitPoly (word ++ payload ++ crc) = bitPoly u * X^(96 * n + (16 - u.length)) + bitPoly v := by
    have hpayloadPoly : bitPoly payload = bitPoly u * X^(96 * n - (0 + (s - 21))) := by
      rw [bitPoly_window hp,hu,hpayload]
    have hcrcPoly : bitPoly crc = bitPoly v := by
      have hlow : 16 - (s - 16 + (32 - s)) = 0 := by omega
      rw [bitPoly_window hc,hv,hcrc,hlow,pow_zero,mul_one]
    have hplaces : 96 * n - (0 + (s - 21)) + 16 = 96 * n + (16 - (s - 21)) := by omega
    rw [bitPoly_append,bitPoly_append,hw,hcrc,hpayloadPoly,hcrcPoly,hulen,zero_mul,zero_add,mul_assoc,← pow_add,hplaces]
  rw [hsum]
  exact not_dvd_of_borderClear (borders_clear h1 h32).2 (by decide) (hu ▸ mem_of_window hp hfar) (by omega) (by omega)

/-- A burst of at most ten places, or of eleven behind the word. -/
structure ShortBurst (e : List UInt8) : Prop where
  bit : true ∈ e.flatMap byteBits
  window : ∃ s, InWindow (e.flatMap byteBits) s 10 ∨ 16 ≤ s ∧ InWindow (e.flatMap byteBits) s 11

/-- A short burst is not a multiple of the generator, wherever it is. -/
theorem not_dvd_of_shortBurst (h1 : 1 ≤ n) (h32 : n ≤ 32) (hlen : e.length = HEADER_BYTES + 12 * n) (h : ShortBurst e) :
    ¬crcGenerator CRC16_POLY ∣ bitPoly (checkedBits e) := by
  obtain ⟨hbit,hwindow⟩ := h
  have hheader : HEADER_BYTES = 4 := rfl
  have hmax : MAX_PAYLOAD_BYTES = 384 := rfl
  have h4 : 4 ≤ e.length := by omega
  obtain ⟨s,width,hwide,hshort⟩ : ∃ s width, InWindow (e.flatMap byteBits) s width ∧
      (width = 10 ∧ s < 16 ∨ width = 11 ∧ 16 ≤ s) := by
    obtain ⟨s,h10 | ⟨hs,h11⟩⟩ := hwindow
    · rcases Nat.lt_or_ge s 16 with hs | hs
      · exact ⟨s,10,h10,Or.inl ⟨rfl,hs⟩⟩
      · exact ⟨s,11,fun i hi => ⟨(h10 i hi).1,by have := (h10 i hi).2; omega⟩,Or.inr ⟨rfl,hs⟩⟩
    · exact ⟨s,11,h11,Or.inr ⟨rfl,hs⟩⟩
  by_cases hpart : (∀ i, (e.flatMap byteBits)[i]? = some true → i < 16) ∨
      (∀ i, (e.flatMap byteBits)[i]? = some true → 16 ≤ i ∧ i < 32) ∨
      ∀ i, (e.flatMap byteBits)[i]? = some true → 32 ≤ i
  · refine not_dvd_of_noticeable h4 (by omega) (.burst s hbit (fun i hi => ?_) hpart)
    have hin := hwide i hi
    omega
  -- Otherwise there are bits on both sides of a border.
  obtain ⟨word,crc,payload,hframe,hchecked,hword,hcrc⟩ := bits_parts h4
  have hpayload : payload.length = 96 * n := by
    have hbits := length_flatMap_byteBits e
    rw [hframe,List.length_append,List.length_append,hword,hcrc] at hbits
    omega
  rw [not_or,not_or] at hpart
  obtain ⟨hnotWord,hnotCrc,hnotPayload⟩ := hpart
  rw [hchecked]
  rw [hframe] at hwide hnotWord hnotCrc hnotPayload
  rcases hshort with ⟨rfl,hs⟩ | ⟨rfl,hs⟩
  · have hs6 : 6 < s := Nat.lt_of_not_le fun hle => hnotWord fun i hi => by
      have hin := hwide i hi
      omega
    have hfar : true ∈ word := by
      by_contra hnone
      refine hnotCrc fun i hi => ?_
      have hin := hwide i hi
      refine ⟨Nat.le_of_not_lt fun hlt => hnone (List.mem_iff_getElem?.2 ⟨i,?_⟩),by omega⟩
      rwa [List.getElem?_append_left (by omega)] at hi
    exact not_dvd_word_border hword hcrc hpayload h1 h32 hwide ⟨hs6,hs⟩ hfar
  · have hs32 : s < 32 := Nat.lt_of_not_le fun hle => hnotPayload fun i hi => by
      have hin := hwide i hi
      omega
    have hs21 : 21 < s := Nat.lt_of_not_le fun hle => hnotCrc fun i hi => by
      have hin := hwide i hi
      omega
    have hfar : true ∈ payload := by
      by_contra hnone
      refine hnotCrc fun i hi => ?_
      have hin := hwide i hi
      refine ⟨by omega,Nat.lt_of_not_le fun hge => hnone (List.mem_iff_getElem?.2 ⟨i - 32,?_⟩)⟩
      rw [List.getElem?_append_right (by omega),List.getElem?_append_right (by omega)] at hi
      exact (congrArg (payload[·]?) (by omega)).trans hi
    exact not_dvd_payload_border hword hcrc hpayload h1 h32 hwide ⟨hs21,hs32⟩ hfar

end Bursts
end MfskCore.Uvpacket
