import MfskCore.Library.Positional
import MfskCore.Msg.Wsjt77Pack
import Mathlib.Tactic.IntervalCases

/-! What the unpacker makes of a packed standard message. The canonical rendering is stated on
the texts alone; the bits, the mixed-radix callsigns and the shared grid field are then shown to
carry it. -/
namespace MfskCore.Msg
open Rust Library

/-- A callsign field as it should be shown: directed CQs with three digits or their letters,
everything else in upper case. -/
def canonicalCall (base : Str) : Str :=
  let c := trim base
  match stripPrefix "CQ ".toList c with
  | some suffix =>
    match (parseU32 (trim suffix)).filter (· ≤ 999) with
    | some n => "CQ ".toList ++ zeroPadded 3 n
    | none => "CQ ".toList ++ trim suffix
  | none => c.map Char.toUpper

/-- A letter of a locator's field, in either case. -/
def isFieldLetter (c : Char) : Bool := 'A' ≤ c.toUpper && c.toUpper ≤ 'R'

/-- A locator: two field letters and two digits. -/
def isGrid4 : Str → Bool
  | [a,b,c,d] => isFieldLetter a && isFieldLetter b && isAsciiDigit c && isAsciiDigit d
  | _ => false

/-- A report field as it should be shown: signed with two digits when it is a number other than
the closing `73`, and in upper case otherwise. -/
def canonicalReport (report : Str) : Str :=
  if report = "73".toList then report
  else match parseReport report with
    | some (ir,snr) => fmtReport snr ir
    | none => report.map Char.toUpper

/-- What may stand behind a CQ: nothing, or a locator other than the closing `RR73`. -/
def cqExchange (report : Str) : Bool := report.isEmpty || (isGrid4 report && report != "RR73".toList)

/-- The suffix both flags stand for: `/P` as soon as one of the calls carries `/P`. -/
def sharedSuffix (call1 call2 : Str) : Str :=
  if (splitRpSuffix call1).2.2 || (splitRpSuffix call2).2.2 then "/P".toList else "/R".toList

/-- The first call, whose suffix is not shown behind `CQ`. -/
def canonicalCall1 (call1 call2 : Str) : Str :=
  let c := canonicalCall (splitRpSuffix call1).1
  if (splitRpSuffix call1).2.1 && !("CQ".toList.isPrefixOf c) then c ++ sharedSuffix call1 call2 else c

def canonicalCall2 (call1 call2 : Str) : Str :=
  let c := canonicalCall (splitRpSuffix call2).1
  if (splitRpSuffix call2).2.1 then c ++ sharedSuffix call1 call2 else c

/-- The canonical rendering of the three fields. -/
def canonicalText (call1 call2 report : Str) : Str :=
  let rest := if (trim report).isEmpty then [] else ' ' :: canonicalReport (trim report)
  canonicalCall1 call1 call2 ++ ' ' :: canonicalCall2 call1 call2 ++ rest

/-- A call with the suffix it was given. -/
def ownCall (call : Str) : Str :=
  let (base,flag,p) := splitRpSuffix call
  canonicalCall base ++ (if flag then if p then "/P".toList else "/R".toList else [])

/-- The callsign field holds the whole call: its number stays below `2^28`, which a leading slash
does not, and shifting it right drops no sixth byte. -/
def FitsField (base : Str) : Prop :=
  let b := asBytes (trim base)
  b.head? ≠ some 47 ∧ ¬(b.length = 6 ∧ isDigitByte (b.getD 1 0) ∧ ¬isDigitByte (b.getD 2 0))

instance (base : Str) : Decidable (FitsField base) := by unfold FitsField; infer_instance

/-- A numeric report whose biased code is none of those of the grid limit, the empty report and
the three closing words. -/
def DistinctReport (report : Str) : Prop :=
  ∀ p ∈ parseReport report, ¬(-35 ≤ p.2 ∧ p.2 ≤ -31)

section Bits
variable (msg : List UInt8) (start len val : Nat)

private theorem bit_eq (j : Nat) : bit msg j = (msg[j]?.getD 0 &&& 1).toNat := by
  rw [bit,List.getD_eq_getElem?_getD]

@[simp] theorem length_writeBits : (writeBits msg start len val).length = msg.length :=
  length_foldl_set _ start _ msg

theorem bit_writeBits (j : Nat) :
    bit (writeBits msg start len val) j =
      if start ≤ j ∧ j < start + len ∧ j < msg.length then (val >>> (len - 1 - (j - start))) % 2
      else bit msg j := by
  rw [bit_eq,writeBits,getElem?_foldl_set]
  split
  · simp
  · rw [bit_eq]

theorem bit_set (k : Nat) (b : UInt8) (j : Nat) :
    bit (msg.set k b) j = if k = j ∧ j < msg.length then (b &&& 1).toNat else bit msg j := by
  rw [bit_eq,bit_eq,List.getElem?_set]
  by_cases hk : k = j
  · subst hk
    by_cases hl : k < msg.length
    · simp [hl]
    · simp [hl]
  · simp [hk]

/-- Bits that agree are read alike. -/
theorem readBits_congr {msg' : List UInt8} (h : ∀ j, start ≤ j → j < start + len → bit msg j = bit msg' j) :
    readBits msg start len = readBits msg' start len := by
  apply List.foldl_ext
  intro n i hi
  rw [List.mem_range'_1] at hi
  rw [h i hi.1 hi.2]

/-- A field reads back what was written to it, cut to its width. -/
theorem readBits_writeBits (h : start + len ≤ msg.length) :
    readBits (writeBits msg start len val) start len = val % 2^len := by
  apply foldl_bits
  intro i hi
  rw [bit_writeBits,if_pos (by omega),Nat.add_sub_cancel_left]

theorem readBits_writeBits_of_disjoint (start' len' : Nat)
    (h : start + len ≤ start' ∨ start' + len' ≤ start) :
    readBits (writeBits msg start' len' val) start len = readBits msg start len := by
  apply readBits_congr
  intro j hj hj'
  rw [bit_writeBits,if_neg (by omega)]

theorem readBits_set_of_disjoint (k : Nat) (b : UInt8) (h : k < start ∨ start + len ≤ k) :
    readBits (msg.set k b) start len = readBits msg start len := by
  apply readBits_congr
  intro j hj hj'
  rw [bit_set,if_neg (by omega)]

end Bits

/-- What the unpacker reads from the payload of a standard message. -/
theorem layout77_reads (n28a : Nat) (ipa : Bool) (n28b : Nat) (ipb : Bool) (ir igrid i3 : Nat) :
    let m := layout77 n28a ipa n28b ipb ir igrid i3
    readBits m 0 28 = n28a % 2^28 ∧ bit m 28 = ipa.toNat ∧ readBits m 29 28 = n28b % 2^28 ∧
      bit m 57 = ipb.toNat ∧ bit m 58 = (UInt8.ofNat ir &&& 1).toNat ∧
      readBits m 59 15 = igrid % 2^15 ∧ readBits m 74 3 = i3 % 2^3 := by
  intro m
  refine ⟨?_,?_,?_,?_,?_,?_,?_⟩
  · simp (disch := simp) only [m,layout77,readBits_writeBits_of_disjoint,readBits_set_of_disjoint,
      readBits_writeBits]
  · simp [m,layout77,bit_writeBits,bit_set]
    cases ipa <;> rfl
  · simp (disch := simp) only [m,layout77,readBits_writeBits_of_disjoint,readBits_set_of_disjoint,
      readBits_writeBits]
  · simp [m,layout77,bit_writeBits,bit_set]
    cases ipb <;> rfl
  · simp [m,layout77,bit_writeBits,bit_set]
  · simp (disch := simp) only [m,layout77,readBits_writeBits_of_disjoint,
      readBits_writeBits]
  · simp (disch := simp) only [m,layout77,readBits_writeBits]

private theorem alphabet_lengths : C1.length = 38 ∧ C2.length = 36 ∧ C3.length = 10 ∧ C4.length = 27 := by decide

theorem getD_of_idxOf? {l : List UInt8} {b : UInt8} {i : Nat} (h : l.idxOf? b = some i) :
    i < l.length ∧ l.getD i 0 = b := by
  obtain ⟨hi,hb,-⟩ := List.idxOf?_eq_some_iff.1 h
  refine ⟨hi,?_⟩
  rw [List.getD_eq_getElem?_getD,List.getElem?_eq_getElem hi,Option.getD_some,hb]
theorem mem_of_idxOf? {l : List UInt8} {b : UInt8} {i : Nat} (h : l.idxOf? b = some i) : b ∈ l := by
  obtain ⟨hi,rfl,-⟩ := List.idxOf?_eq_some_iff.1 h
  exact List.getElem_mem hi

private theorem standardCall_digits {b1 b2 b3 b4 b5 b6 : UInt8} {i1 i2 i3 i4 i5 i6 : Nat}
    (h1 : C1.idxOf? b1 = some i1) (h2 : C2.idxOf? b2 = some i2) (h3 : C3.idxOf? b3 = some i3)
    (h4 : C4.idxOf? b4 = some i4) (h5 : C4.idxOf? b5 = some i5) (h6 : C4.idxOf? b6 = some i6) :
    standardCall (((((i1 * 36 + i2) * 10 + i3) * 27 + i4) * 27 + i5) * 27 + i6) =
      trim (alphabetText [b1,b2,b3,b4,b5,b6]) := by
  obtain ⟨l1,l2,l3,l4⟩ := alphabet_lengths
  obtain ⟨hl1,rfl⟩ := getD_of_idxOf? h1
  obtain ⟨hl2,rfl⟩ := getD_of_idxOf? h2
  obtain ⟨hl3,rfl⟩ := getD_of_idxOf? h3
  obtain ⟨hl4,rfl⟩ := getD_of_idxOf? h4
  obtain ⟨hl5,rfl⟩ := getD_of_idxOf? h5
  obtain ⟨hl6,rfl⟩ := getD_of_idxOf? h6
  rw [l1] at hl1
  rw [l2] at hl2
  rw [l3] at hl3
  rw [l4] at hl4 hl5 hl6
  generalize hn : ((((i1 * 36 + i2) * 10 + i3) * 27 + i4) * 27 + i5) * 27 + i6 = n
  have e1 : n / (36 * 10 * 27 * 27 * 27) = i1 := by omega
  have e2 : n % (36 * 10 * 27 * 27 * 27) / (10 * 27 * 27 * 27) = i2 := by omega
  have e3 : n % (36 * 10 * 27 * 27 * 27) % (10 * 27 * 27 * 27) / (27 * 27 * 27) = i3 := by omega
  have e4 : n % (36 * 10 * 27 * 27 * 27) % (10 * 27 * 27 * 27) % (27 * 27 * 27) / (27 * 27) = i4 := by
    omega
  have e5 : n % (36 * 10 * 27 * 27 * 27) % (10 * 27 * 27 * 27) % (27 * 27 * 27) % (27 * 27) / 27 = i5 := by
    omega
  have e6 : n % (36 * 10 * 27 * 27 * 27) % (10 * 27 * 27 * 27) % (27 * 27 * 27) % (27 * 27) % 27 = i6 := by
    omega
  simp only [standardCall,e1,e2,e3,e4,e5,e6,l1,l2,l3,l4]
  rw [if_neg]
  simp only [ge_iff_le,Bool.or_eq_true,decide_eq_true_eq]
  omega

private theorem ascii_of_mem {b : UInt8} (h : b ∈ C1 ∨ b ∈ C2 ∨ b ∈ C3 ∨ b ∈ C4) :
    b < 128 ∧ asChar b ≠ '<' := by
  have hall : (C1 ++ C2 ++ C3 ++ C4).all (fun b => b < 128 ∧ asChar b ≠ '<') := by decide
  rw [List.all_eq_true] at hall
  refine of_decide_eq_true (hall b ?_)
  rw [List.mem_append,List.mem_append,List.mem_append]
  rcases h with h | h | h | h
  · exact .inl (.inl (.inl h))
  · exact .inl (.inl (.inr h))
  · exact .inl (.inr h)
  · exact .inr h

private theorem toNat_upperByte (b : UInt8) :
    (upperByte b).toNat = if 97 ≤ b.toNat ∧ b.toNat ≤ 122 then b.toNat - 32 else b.toNat := by
  unfold upperByte
  simp only [UInt8.le_iff_toNat_le,Bool.and_eq_true,decide_eq_true_eq]
  split
  · rename_i h
    have h' : 97 ≤ b.toNat ∧ b.toNat ≤ 122 := h
    rw [if_pos h',UInt8.toNat_sub_of_le]
    · rfl
    · rw [UInt8.le_iff_toNat_le]
      change 32 ≤ b.toNat
      omega
  · rename_i h
    have h' : ¬(97 ≤ b.toNat ∧ b.toNat ≤ 122) := h
    rw [if_neg h']

theorem alphabetText_upper {c : Str} (h : isAscii c) :
    alphabetText ((asBytes c).map upperByte) = c.map Char.toUpper := by
  rw [asBytes_ascii h,alphabetText,List.map_map,List.map_map]
  apply List.map_congr_left
  intro ch hch
  simp only [isAscii,List.all_eq_true,decide_eq_true_eq] at h
  have hlt := h ch hch
  revert hlt
  apply ascii_cases
  decide

theorem isAscii_of_upper {c : Str} (h : ∀ b ∈ (asBytes c).map upperByte, b < 128) : isAscii c := by
  apply isAscii_of_asBytes
  intro b hb
  have hu := h _ (List.mem_map_of_mem hb)
  rw [UInt8.lt_iff_toNat_lt,toNat_upperByte] at hu
  rw [UInt8.lt_iff_toNat_lt]
  change _ < 128 at hu
  change _ < 128
  split at hu
  · omega
  · exact hu

private theorem alignCall_shape {bytes buf : List UInt8} (h : alignCall bytes = some buf)
    (hlen : bytes.length ≤ 6)
    (hfit : ¬(bytes.length = 6 ∧ isDigitByte (bytes.getD 1 0) ∧ ¬isDigitByte (bytes.getD 2 0))) :
    buf.length = 6 ∧ ∃ k m, buf = List.replicate k 32 ++ (bytes.map upperByte ++ List.replicate m 32) := by
  simp only [alignCall,List.length_map,ge_iff_le,Bool.and_eq_true,decide_eq_true_eq] at h
  split at h
  · rename_i h3
    cases h
    refine ⟨?_,0,6 - bytes.length,rfl⟩
    simp
    omega
  · rename_i h3
    split at h
    · rename_i h2
      cases h
      have h5 : bytes.length ≤ 5 := by
        by_contra hgt
        exact hfit ⟨by omega,h2.2,fun hd => h3 ⟨by omega,hd⟩⟩
      have htake : (bytes.map upperByte).take 5 = bytes.map upperByte :=
        List.take_of_length_le (by simpa using h5)
      rw [htake]
      refine ⟨?_,1,5 - bytes.length,rfl⟩
      simp
      omega
    · cases h

private theorem head_ne_slash {bytes buf : List UInt8} {k m : Nat} (hs : bytes.head? ≠ some 47) (hne : bytes ≠ [])
    (hbuf : buf = List.replicate k 32 ++ (bytes.map upperByte ++ List.replicate m 32)) :
    buf.getD 0 0 ≠ 47 := by
  subst hbuf
  cases k with
  | zero =>
    obtain ⟨b,bs,rfl⟩ := List.exists_cons_of_ne_nil hne
    intro hb
    apply hs
    have hb' : upperByte b = 47 := by simpa using hb
    have ht := congrArg UInt8.toNat hb'
    rw [toNat_upperByte] at ht
    change _ = 47 at ht
    have h47 : b.toNat = 47 := by
      split at ht
      · omega
      · exact ht
    rw [List.head?_cons,UInt8.toNat_inj.1 (show b.toNat = (47 : UInt8).toNat from h47)]
  | succ k => simp [List.replicate_succ]

/-- A packed standard callsign stays within its 28 bits and reads as its own text. -/
theorem packStandardCall_text {c : Str} {n : Nat} (hc : Trimmed c)
    (hs : (asBytes c).head? ≠ some 47)
    (hfit : ¬((asBytes c).length = 6 ∧ isDigitByte ((asBytes c).getD 1 0) ∧
      ¬isDigitByte ((asBytes c).getD 2 0)))
    (h : packStandardCall (asBytes c) = some n) :
    NTOKENS + MAX22 ≤ n ∧ n < 2^28 ∧ standardCall (n - NTOKENS - MAX22) = c.map Char.toUpper ∧
      ∀ ch ∈ c.map Char.toUpper, ch ≠ '<' := by
  rw [packStandardCall] at h
  split at h
  · cases h
  · rename_i hlen
    simp only [List.isEmpty_iff,gt_iff_lt,Bool.or_eq_true,decide_eq_true_eq,not_or,not_lt] at hlen
    obtain ⟨buf,hbuf,h⟩ := Option.bind_eq_some_iff.1 h
    split at h
    · cases h
    · obtain ⟨i1,h1,h⟩ := Option.bind_eq_some_iff.1 h
      obtain ⟨i2,h2,h⟩ := Option.bind_eq_some_iff.1 h
      obtain ⟨i3,h3,h⟩ := Option.bind_eq_some_iff.1 h
      obtain ⟨i4,h4,h⟩ := Option.bind_eq_some_iff.1 h
      obtain ⟨i5,h5,h⟩ := Option.bind_eq_some_iff.1 h
      obtain ⟨i6,h6,hsum⟩ := Option.bind_eq_some_iff.1 h
      obtain ⟨hsix,k,m,hshape⟩ := alignCall_shape hbuf hlen.2 hfit
      have hslash := head_ne_slash hs hlen.1 hshape
      match buf, hsix with
      | [b1,b2,b3,b4,b5,b6], _ =>
        simp only [List.getD_cons_zero,List.getD_cons_succ] at h1 h2 h3 h4 h5 h6 hslash
        have hascii : ∀ b ∈ [b1,b2,b3,b4,b5,b6], b < 128 ∧ asChar b ≠ '<' := by
          intro b hb
          apply ascii_of_mem
          simp only [List.mem_cons,List.not_mem_nil,or_false] at hb
          rcases hb with rfl | rfl | rfl | rfl | rfl | rfl
          · exact .inl (mem_of_idxOf? h1)
          · exact .inr (.inl (mem_of_idxOf? h2))
          · exact .inr (.inr (.inl (mem_of_idxOf? h3)))
          · exact .inr (.inr (.inr (mem_of_idxOf? h4)))
          · exact .inr (.inr (.inr (mem_of_idxOf? h5)))
          · exact .inr (.inr (.inr (mem_of_idxOf? h6)))
        have hupper : ∀ b ∈ (asBytes c).map upperByte, b < 128 ∧ asChar b ≠ '<' := by
          intro b hb
          apply hascii
          rw [hshape]
          exact List.mem_append_right _ (List.mem_append_left _ hb)
        have hca : isAscii c := isAscii_of_upper fun b hb => (hupper b hb).1
        have htext : alphabetText [b1,b2,b3,b4,b5,b6] =
            List.replicate k ' ' ++ (c.map Char.toUpper ++ List.replicate m ' ') := by
          rw [hshape,← alphabetText_upper hca]
          simp only [alphabetText,List.map_append,List.map_replicate]
          rfl
        have hd := standardCall_digits h1 h2 h3 h4 h5 h6
        obtain ⟨l1,l2,l3,l4⟩ := alphabet_lengths
        obtain ⟨hl1,hb1⟩ := getD_of_idxOf? h1
        have hl2 := (getD_of_idxOf? h2).1
        have hl3 := (getD_of_idxOf? h3).1
        have hl4 := (getD_of_idxOf? h4).1
        have hl5 := (getD_of_idxOf? h5).1
        have hl6 := (getD_of_idxOf? h6).1
        have hi1 : i1 ≠ 37 := by
          rintro rfl
          exact hslash hb1.symm
        rw [l1] at hl1
        rw [l2] at hl2
        rw [l3] at hl3
        rw [l4] at hl4 hl5 hl6
        have hn : n = NTOKENS + MAX22 +
            (((((i1 * 36 + i2) * 10 + i3) * 27 + i4) * 27 + i5) * 27 + i6) := by
          simpa using hsum.symm
        refine ⟨by omega,?_,?_,?_⟩
        · rw [hn,NTOKENS,MAX22]
          omega
        · rw [hn,Nat.add_assoc,Nat.add_sub_cancel_left,Nat.add_sub_cancel_left,hd,htext]
          exact hc.map_toUpper.trim_pad k m
        · rw [← alphabetText_upper hca,alphabetText]
          intro ch hch
          obtain ⟨b,hb,rfl⟩ := List.mem_map.1 hch
          exact (hupper b hb).2

private theorem directedCq_digits {b1 b2 b3 b4 : UInt8} {i1 i2 i3 i4 : Nat}
    (h1 : C4.idxOf? b1 = some i1) (h2 : C4.idxOf? b2 = some i2) (h3 : C4.idxOf? b3 = some i3)
    (h4 : C4.idxOf? b4 = some i4) :
    ((i1 * 27 + i2) * 27 + i3) * 27 + i4 < 27^4 ∧
    directedCq (((i1 * 27 + i2) * 27 + i3) * 27 + i4) =
      "CQ ".toList ++ trim (alphabetText [b1,b2,b3,b4]) := by
  obtain ⟨-,-,-,l4⟩ := alphabet_lengths
  obtain ⟨hl1,rfl⟩ := getD_of_idxOf? h1
  obtain ⟨hl2,rfl⟩ := getD_of_idxOf? h2
  obtain ⟨hl3,rfl⟩ := getD_of_idxOf? h3
  obtain ⟨hl4,rfl⟩ := getD_of_idxOf? h4
  rw [l4] at hl1 hl2 hl3 hl4
  generalize hn : ((i1 * 27 + i2) * 27 + i3) * 27 + i4 = n
  have e1 : n / (27 * 27 * 27) = i1 := by omega
  have e2 : n % (27 * 27 * 27) / (27 * 27) = i2 := by omega
  have e3 : n % (27 * 27 * 27) % (27 * 27) / 27 = i3 := by omega
  have e4 : n % (27 * 27 * 27) % (27 * 27) % 27 = i4 := by omega
  refine ⟨by omega,?_⟩
  simp only [directedCq,e1,e2,e3,e4,l4]
  rw [if_neg]
  simp only [ge_iff_le,Bool.or_eq_true,decide_eq_true_eq]
  omega

theorem alphabetText_asBytes {c : Str} (h : isAscii c) : alphabetText (asBytes c) = c := by
  rw [asBytes_ascii h,alphabetText,List.map_map]
  simp only [isAscii,List.all_eq_true,decide_eq_true_eq] at h
  refine (List.map_congr_left fun ch hch => ?_).trans (List.map_id c)
  have hlt := h ch hch
  revert hlt
  apply ascii_cases
  decide

/-- A packed directed CQ reads as its number in three digits or its letters. -/
theorem packDirectedCq_text {s : Str} {n : Nat} (hs : Trimmed s) (h : packDirectedCq s = some n) :
    n < NTOKENS ∧ unpack28 n = "CQ ".toList ++
      (match (parseU32 s).filter (· ≤ 999) with
        | some k => zeroPadded 3 k
        | none => s) := by
  rw [packDirectedCq] at h
  cases hp : (parseU32 s).filter (· ≤ 999) with
  | some k =>
    rw [hp] at h
    have hk : k ≤ 999 := by simpa using (Option.filter_eq_some_iff.1 hp).2
    have hn : n = 3 + k := by simpa using h.symm
    have hlt : 3 + k < NTOKENS := by
      rw [NTOKENS]
      omega
    subst hn
    refine ⟨hlt,?_⟩
    rw [unpack28,if_pos hlt,if_neg (by omega),if_neg (by omega),if_neg (by omega),if_pos (by omega),
      Nat.add_sub_cancel_left]
  | none =>
    rw [hp] at h
    simp only at h
    split at h
    · rename_i hsb
      simp only [Bool.and_eq_true,decide_eq_true_eq] at hsb
      obtain ⟨i1,h1,h⟩ := Option.bind_eq_some_iff.1 h
      obtain ⟨i2,h2,h⟩ := Option.bind_eq_some_iff.1 h
      obtain ⟨i3,h3,h⟩ := Option.bind_eq_some_iff.1 h
      obtain ⟨i4,h4,hsum⟩ := Option.bind_eq_some_iff.1 h
      obtain ⟨hlt,hd⟩ := directedCq_digits h1 h2 h3 h4
      have hca : isAscii s := by
        apply isAscii_of_asBytes
        intro b hb
        have hu := List.all_eq_true.1 hsb.2 b hb
        simp only [isUpperByte,Bool.and_eq_true,decide_eq_true_eq] at hu
        exact UInt8.lt_of_le_of_lt hu.2 (by decide)
      have hbuf : ∀ buf : List UInt8, buf.length = 4 →
          [buf.getD 0 0,buf.getD 1 0,buf.getD 2 0,buf.getD 3 0] = buf := by
        intro buf hlen
        match buf, hlen with
        | [_,_,_,_], _ => rfl
      rw [hbuf _ (by simp; omega),alphabetText,List.map_append,List.map_replicate] at hd
      have htrim := hs.trim_pad 0 (4 - (asBytes s).length)
      have hn : n = 1003 + (((i1 * 27 + i2) * 27 + i3) * 27 + i4) := by
        have hsome := Option.some.inj hsum
        omega
      have hbound : n < NTOKENS := by
        rw [NTOKENS]
        omega
      refine ⟨hbound,?_⟩
      rw [unpack28,if_pos hbound,if_neg (by omega),if_neg (by omega),if_neg (by omega),
        if_neg (by omega),hn,Nat.add_sub_cancel_left,hd]
      change "CQ ".toList ++ trim (alphabetText (asBytes s) ++ _) = _
      rw [alphabetText_asBytes hca]
      exact congrArg _ htrim
    · cases h

/-- A text that begins with `CQ ` has no digit where a standard callsign needs one. -/
private theorem packStandardCall_cq {c suffix : Str} (h : stripPrefix "CQ ".toList c = some suffix) :
    packStandardCall (asBytes c) = none := by
  rw [stripPrefix] at h
  split at h
  · rename_i hcq
    obtain ⟨t,rfl⟩ := List.isPrefixOf_iff_prefix.1 hcq
    have hbytes : asBytes ("CQ ".toList ++ t) = 67 :: 81 :: 32 :: asBytes t := rfl
    have halign : alignCall (67 :: 81 :: 32 :: asBytes t) = none := by
      simp [alignCall,isDigitByte]
    rw [hbytes,packStandardCall,halign,Option.bind_none,ite_self]
  · cases h

/-- What `pack28` accepts, `unpack28` shows in its canonical form. -/
theorem unpack28_pack28 {base : Str} {n : Nat} (h : pack28 base = some n) (hfit : FitsField base) :
    n < 2^28 ∧ unpack28 n = canonicalCall base ∧
      ∃ ch rest, canonicalCall base = ch :: rest ∧ ch ≠ '<' := by
  have hc := trimmed_trim base
  rw [pack28] at h
  simp only [FitsField,canonicalCall] at hfit ⊢
  generalize trim base = c at h hfit hc ⊢
  split at h
  · rename_i hde
    cases h
    subst hde
    exact ⟨by decide,by decide,'D',['E'],by decide,by decide⟩
  split at h
  · rename_i hqrz
    cases h
    subst hqrz
    exact ⟨by decide,by decide,'Q',['R','Z'],by decide,by decide⟩
  split at h
  · rename_i hcq
    cases h
    subst hcq
    exact ⟨by decide,by decide,'C',['Q'],by decide,by decide⟩
  cases hp : stripPrefix "CQ ".toList c with
  | none =>
    rw [hp] at h
    obtain ⟨hlo,hhi,htext,hch⟩ := packStandardCall_text hc hfit.1 hfit.2 h
    have hne : c ≠ [] := by
      rintro rfl
      cases h
    obtain ⟨ch,rest,rfl⟩ := List.exists_cons_of_ne_nil hne
    refine ⟨hhi,?_,_,_,List.map_cons,hch _ (by simp)⟩
    rw [unpack28,if_neg (by omega),if_neg (by omega),htext]
  | some suffix =>
    rw [hp,Option.map_some] at h
    by_cases hempty : trim suffix = []
    · rw [hempty,packStandardCall_cq hp] at h
      cases h
    · have hsome : (some (trim suffix)).filter (fun t => !t.isEmpty) = some (trim suffix) := by
        simp [hempty]
      rw [hsome] at h
      obtain ⟨hlt,htext⟩ := packDirectedCq_text (trimmed_trim suffix) h
      rw [htext]
      refine ⟨lt_trans hlt (by decide),?_⟩
      dsimp only
      cases (parseU32 (trim suffix)).filter (· ≤ 999) with
      | none => exact ⟨rfl,'C',_,rfl,by decide⟩
      | some k => exact ⟨rfl,'C',_,rfl,by decide⟩

private theorem letter_field {c : Char} (hc : c.toNat < 128)
    (h : (upperByte (UInt8.ofNat c.toNat) - 65).toNat ≤ 17) :
    isFieldLetter c ∧ letter (upperByte (UInt8.ofNat c.toNat) - 65).toNat = c.toUpper := by
  revert h
  revert hc
  apply ascii_cases
  decide

private theorem digit_field {c : Char} (hc : c.toNat < 128) (h : (UInt8.ofNat c.toNat - 48).toNat ≤ 9) :
    isAsciiDigit c ∧ digit (UInt8.ofNat c.toNat - 48).toNat = c.toUpper := by
  revert h
  revert hc
  apply ascii_cases
  decide

private theorem byte_ascii_of_sub {b k : UInt8} {m : Nat} (hk : k.toNat + m < 128)
    (h : (b - k).toNat ≤ m) : b.toNat < 128 := by
  have hb := b.toNat_lt
  have hsub : (b - k).toNat = (2^8 - k.toNat + b.toNat) % 2^8 := UInt8.toNat_sub b k
  omega

private theorem letterByte_ascii {b : UInt8} (h : (upperByte b - 65).toNat ≤ 17) : b < 128 := by
  have hlt := byte_ascii_of_sub (by decide) h
  rw [toNat_upperByte] at hlt
  rw [UInt8.lt_iff_toNat_lt]
  change b.toNat < 128
  split at hlt
  · omega
  · exact hlt

private theorem digitByte_ascii {b : UInt8} (h : (b - 48).toNat ≤ 9) : b < 128 :=
  UInt8.lt_iff_toNat_lt.2 (byte_ascii_of_sub (by decide) h)

/-- A packed locator is one, and reads back in upper case. -/
theorem toGrid4_packGrid4 {grid : Str} {n : Nat} (h : packGrid4 grid = some n) :
    n < MAX_GRID4 ∧ isGrid4 grid ∧ toGrid4 n = some (grid.map Char.toUpper) := by
  simp only [packGrid4] at h
  split at h
  · cases h
  · rename_i hlen
    rw [not_not] at hlen
    split at h
    · cases h
    · rename_i hj
      simp only [gt_iff_lt,Bool.or_eq_true,decide_eq_true_eq,not_or,not_lt] at hj
      obtain ⟨⟨⟨hj1,hj2⟩,hj3⟩,hj4⟩ := hj
      have hascii : isAscii grid := by
        apply isAscii_of_asBytes
        intro b hb
        match hg : asBytes grid, hlen with
        | [b1,b2,b3,b4], _ =>
          rw [hg] at hb hj1 hj2 hj3 hj4
          simp only [List.mem_cons,List.not_mem_nil,or_false] at hb
          rcases hb with rfl | rfl | rfl | rfl
          · exact letterByte_ascii hj1
          · exact letterByte_ascii hj2
          · exact digitByte_ascii hj3
          · exact digitByte_ascii hj4
      rw [asBytes_ascii hascii] at h hlen hj1 hj2 hj3 hj4
      match grid, hlen with
      | [a,b,c,d], _ =>
        simp only [isAscii,List.all_cons,List.all_nil,Bool.and_eq_true,decide_eq_true_eq] at hascii
        simp only [List.map_cons,List.map_nil,List.getD_cons_zero,List.getD_cons_succ] at h hj1 hj2 hj3 hj4
        obtain ⟨ha,hb,hc,hd,-⟩ := hascii
        obtain ⟨ha1,ha2⟩ := letter_field ha hj1
        obtain ⟨hb1,hb2⟩ := letter_field hb hj2
        obtain ⟨hc1,hc2⟩ := digit_field hc hj3
        obtain ⟨hd1,hd2⟩ := digit_field hd hj4
        have hn := Option.some.inj h
        generalize (upperByte (UInt8.ofNat a.toNat) - 65).toNat = j1 at *
        generalize (upperByte (UInt8.ofNat b.toNat) - 65).toNat = j2 at *
        generalize (UInt8.ofNat c.toNat - 48).toNat = j3 at *
        generalize (UInt8.ofNat d.toNat - 48).toNat = j4 at *
        have hmax : n < MAX_GRID4 := by
          rw [MAX_GRID4]
          omega
        have e1 : n / (18 * 10 * 10) = j1 := by omega
        have e2 : n % (18 * 10 * 10) / (10 * 10) = j2 := by omega
        have e3 : n % (18 * 10 * 10) % (10 * 10) / 10 = j3 := by omega
        have e4 : n % (18 * 10 * 10) % (10 * 10) % 10 = j4 := by omega
        refine ⟨hmax,by simp [isGrid4,ha1,hb1,hc1,hd1],?_⟩
        simp only [toGrid4,e1,e2,e3,e4]
        rw [if_neg (by omega),if_neg (by simp; omega),ha2,hb2,hc2,hd2]
        rfl

private theorem parseI32_letter {c : Char} {r : Str} (h : isFieldLetter c) : parseI32 (c :: r) = none := by
  have hsign : c ≠ '-' ∧ c ≠ '+' ∧ isAsciiDigit c = false := by
    refine ⟨?_,?_,?_⟩
    · rintro rfl
      exact absurd h (by decide)
    · rintro rfl
      exact absurd h (by decide)
    · by_cases hc : c.toNat < 128
      · revert h
        revert hc
        apply ascii_cases
        decide
      · rw [isAsciiDigit,Bool.and_eq_false_iff]
        right
        rw [decide_eq_false_iff_not]
        intro hle
        have hle' : c.toNat ≤ 57 := hle
        omega
  unfold parseI32
  split
  · rename_i heq
    exact absurd (List.cons.inj heq).1 hsign.1
  · rename_i heq
    exact absurd (List.cons.inj heq).1 hsign.2.1
  · simp [parseDigits,hsign.2.2]

/-- No locator is a numeric report. -/
private theorem parseReport_grid {r : Str} (h : isGrid4 r) : parseReport r = none := by
  unfold isGrid4 at h
  split at h
  · rename_i a b c d
    simp only [Bool.and_eq_true] at h
    obtain ⟨⟨⟨ha,hb⟩,-⟩,-⟩ := h
    rw [parseReport]
    by_cases hr : a = 'R'
    · subst hr
      change (parseI32 [b,c,d]).map _ = none
      rw [parseI32_letter hb]
      rfl
    · have hstrip : stripPrefix ['R'] [a,b,c,d] = none := by
        simp [stripPrefix,Ne.symm hr]
      rw [hstrip]
      dsimp only
      rw [parseI32_letter ha]
      rfl
  · cases h

/-- A number in range and clear of the reserved codes is shown as itself. -/
private theorem standardExchange_number {snr : Int} (ir : Nat) (cq : Bool) (hlo : -50 ≤ snr)
    (hhi : snr ≤ 49) (hd : ¬(-35 ≤ snr ∧ snr ≤ -31)) :
    let isnr := if snr + 35 < 0 then snr + 35 + 101 else snr + 35
    MAX_GRID4 + isnr.toNat < 2^15 ∧
      standardExchange cq ir (MAX_GRID4 + isnr.toNat) = if cq then none else some (fmtReport snr ir) := by
  intro isnr
  have hcode : 5 ≤ isnr ∧ isnr ≤ 100 ∧ (if isnr - 35 > 50 then isnr - 35 - 101 else isnr - 35) = snr := by
    simp only [isnr]
    split <;> split <;> omega
  obtain ⟨h5,h100,hsnr⟩ := hcode
  have hnat : (isnr.toNat : Int) = isnr := Int.toNat_of_nonneg (by omega)
  refine ⟨?_,?_⟩
  · rw [MAX_GRID4]
    omega
  · rw [standardExchange,if_neg (by omega),Nat.add_sub_cancel_left]
    cases cq with
    | true =>
      rw [if_pos]
      · rfl
      · simp
        omega
    | false =>
      simp only [Bool.false_and,Bool.false_eq_true,↓reduceIte]
      rw [if_neg (by omega),if_neg (by omega),if_neg (by omega),if_neg (by omega),hnat,hsnr]

/-- What the unpacker shows for a packed report; a CQ takes no report at all. -/
theorem standardExchange_packReport {r : Str} {igrid ir : Nat} (cq : Bool)
    (h : packReport r = some (igrid,ir)) (hd : DistinctReport r) :
    igrid < 2^15 ∧ (ir = 0 ∨ ir = 1) ∧ standardExchange cq ir igrid =
      if cq && !cqExchange r then none else some (if r.isEmpty then [] else canonicalReport r) := by
  rw [packReport] at h
  split at h
  · rename_i hempty
    rw [List.isEmpty_iff] at hempty
    subst hempty
    cases h
    cases cq <;> decide
  rename_i hempty
  split at h
  · rename_i hrrr
    subst hrrr
    cases h
    cases cq <;> decide
  split at h
  · rename_i hrr73
    subst hrr73
    cases h
    cases cq <;> decide
  rename_i hrr73
  split at h
  · rename_i h73
    subst h73
    cases h
    cases cq <;> decide
  rename_i h73
  rw [if_neg hempty,canonicalReport,if_neg h73]
  split at h
  · rename_i g hg
    cases h
    have hpack : packGrid4 r = some igrid := by
      split at hg
      · exact hg
      · cases hg
    obtain ⟨hlt,hgrid,htext⟩ := toGrid4_packGrid4 hpack
    have hcq : cqExchange r = true := by
      rw [cqExchange,hgrid,bne_iff_ne.2 hrr73,Bool.and_self,Bool.or_true]
    rw [parseReport_grid hgrid,hcq]
    refine ⟨lt_trans hlt (by decide),.inl rfl,?_⟩
    simp [standardExchange,Nat.le_of_lt hlt,htext]
  · obtain ⟨⟨ir',snr⟩,hparse,hrange⟩ := Option.bind_eq_some_iff.1 h
    dsimp only at hrange
    split at hrange
    · cases hrange
    · rename_i hbounds
      rw [not_not] at hbounds
      have hfree := hd _ hparse
      obtain ⟨hlt,hshow⟩ := standardExchange_number ir' cq hbounds.1 hbounds.2 hfree
      cases hrange
      have hcq : cqExchange r = false := by
        by_contra hyes
        rw [Bool.not_eq_false,cqExchange,Bool.or_eq_true,Bool.and_eq_true] at hyes
        rcases hyes with hyes | hyes
        · exact hempty hyes
        · rw [parseReport_grid hyes.1] at hparse
          cases hparse
      rw [hparse,hcq]
      refine ⟨hlt,?_,?_⟩
      · rw [parseReport] at hparse
        split at hparse
        · obtain ⟨v,-,hv⟩ := Option.map_eq_some_iff.1 hparse
          cases hv
          exact .inr rfl
        · obtain ⟨v,-,hv⟩ := Option.map_eq_some_iff.1 hparse
          cases hv
          exact .inl rfl
      · rw [hshow]
        simp

private theorem unpack28H_new (n28 : Nat) : unpack28H n28 .new = unpack28 n28 := by
  rw [unpack28H]
  split
  · rename_i hhash
    simp only [ge_iff_le,Bool.and_eq_true,decide_eq_true_eq] at hhash
    rw [unpack28,if_neg (by omega),if_pos hhash.2]
    rfl
  · rfl

private theorem not_bracket {s t : Str} (h : ∃ ch rest, s = ch :: rest ∧ ch ≠ '<') :
    ['<'].isPrefixOf (s ++ t) = false := by
  obtain ⟨ch,rest,rfl,hne⟩ := h
  rw [List.cons_append,List.isPrefixOf_cons_cons,beq_false_of_ne hne.symm,Bool.false_and]

private theorem canonicalReport_ne_nil {r : Str} (h : r ≠ []) : canonicalReport r ≠ [] := by
  rw [canonicalReport]
  split
  · exact h
  · split
    · simp [fmtReport]
    · simpa using h

private theorem render_standard (c1 c2 r : Str) :
    (Wsjt77Fields.Standard c1 c2 (if r.isEmpty then [] else canonicalReport r)).render =
      c1 ++ ' ' :: c2 ++ (if r.isEmpty then [] else ' ' :: canonicalReport r) := by
  by_cases h : r = []
  · simp [h,Wsjt77Fields.render]
  · simp [h,Wsjt77Fields.render,canonicalReport_ne_nil h]

/-- A packed standard message unpacks to the canonical text of its three fields, or is refused
when it is a CQ that carries a report. -/
theorem unpack77_pack77 (call1 call2 report : Str) (bits : List UInt8)
    (h : pack77 call1 call2 report = some bits)
    (h1 : FitsField (splitRpSuffix call1).1) (h2 : FitsField (splitRpSuffix call2).1)
    (hr : DistinctReport (trim report)) :
    unpack77 bits =
      if isCq (canonicalCall1 call1 call2) && !cqExchange (trim report) then none
      else some (canonicalText call1 call2 report) := by
  rcases hs1 : splitRpSuffix call1 with ⟨base1,ipa,p1⟩
  rcases hs2 : splitRpSuffix call2 with ⟨base2,ipb,p2⟩
  rw [hs1] at h1
  rw [hs2] at h2
  rw [pack77,hs1,hs2] at h
  dsimp only at h
  obtain ⟨n28a,hn1,h⟩ := Option.bind_eq_some_iff.1 h
  obtain ⟨n28b,hn2,h⟩ := Option.bind_eq_some_iff.1 h
  obtain ⟨⟨igrid,ir⟩,hrep,rfl⟩ := Option.map_eq_some_iff.1 h
  obtain ⟨hlt1,htext1,hhead1⟩ := unpack28_pack28 hn1 h1
  obtain ⟨hlt2,htext2,hhead2⟩ := unpack28_pack28 hn2 h2
  obtain ⟨hgrid,hir,hexch⟩ :=
    standardExchange_packReport (isCq (canonicalCall1 call1 call2)) hrep hr
  obtain ⟨r1,r2,r3,r4,r5,r6,r7⟩ := layout77_reads n28a ipa n28b ipb ir igrid (if p1 || p2 then 2 else 1)
  generalize layout77 n28a ipa n28b ipb ir igrid (if p1 || p2 then 2 else 1) = m at *
  rw [Nat.mod_eq_of_lt hlt1] at r1
  rw [Nat.mod_eq_of_lt hlt2] at r3
  rw [Nat.mod_eq_of_lt hgrid] at r6
  have hbit : bit m 58 = ir := by
    rw [r5]
    rcases hir with rfl | rfl <;> rfl
  have hsuffix : (if (if p1 || p2 then 2 else 1) = 1 then "/R".toList else "/P".toList) =
      sharedSuffix call1 call2 := by
    rw [sharedSuffix,hs1,hs2]
    cases p1 || p2 <;> simp
  have hc1 : (if ipa.toNat == 1 && !(['<'].isPrefixOf (canonicalCall base1)) &&
      !("CQ".toList.isPrefixOf (canonicalCall base1)) then canonicalCall base1 ++ sharedSuffix call1 call2
      else canonicalCall base1) = canonicalCall1 call1 call2 := by
    have hb : ['<'].isPrefixOf (canonicalCall base1) = false := by simpa using not_bracket hhead1 (t := [])
    rw [canonicalCall1,hs1,hb]
    cases ipa <;> simp
  have hc2 : (if ipb.toNat == 1 && !(['<'].isPrefixOf (canonicalCall base2)) then
      canonicalCall base2 ++ sharedSuffix call1 call2 else canonicalCall base2) =
      canonicalCall2 call1 call2 := by
    have hb : ['<'].isPrefixOf (canonicalCall base2) = false := by simpa using not_bracket hhead2 (t := [])
    rw [canonicalCall2,hs2,hb]
    cases ipb <;> simp
  have hstd : unpackStandard m .new (if p1 || p2 then 2 else 1) =
      (standardExchange (isCq (canonicalCall1 call1 call2)) ir igrid).map
        (Wsjt77Fields.Standard (canonicalCall1 call1 call2) (canonicalCall2 call1 call2)) := by
    simp only [unpackStandard,r1,r2,r3,r4,hbit,r6,unpack28H_new,htext1,htext2,hsuffix,hc1,hc2]
  have hdispatch : unpack77Dispatch m .new (readBits m 74 3) (readBits m 71 3) =
      unpackStandard m .new (if p1 || p2 then 2 else 1) := by
    rw [r7]
    cases p1 || p2 <;> rfl
  have hb2 : ['<'].isPrefixOf (canonicalCall2 call1 call2) = false := by
    rw [← hc2]
    split
    · exact not_bracket hhead2
    · simpa using not_bracket hhead2 (t := [])
  rw [unpack77,unpack77WithHash,unpack77Fields,hdispatch,hstd,hexch]
  split
  · rfl
  · rw [Option.map_some,Option.bind_some,cqFromHash,Wsjt77Fields.callsigns]
    simp only [hb2,Bool.and_false,Bool.false_eq_true,↓reduceIte,Option.map_some]
    rw [render_standard,canonicalText]

theorem unpack77_pack77_directed_cq :
    ∃ bits, pack77 "CQ SOTA".toList " ja1abc/P".toList "pm95".toList = some bits ∧
      unpack77 bits = some "CQ SOTA JA1ABC/P PM95".toList := by
  have hsome : (pack77 "CQ SOTA".toList " ja1abc/P".toList "pm95".toList).isSome := by decide
  obtain ⟨bits,hbits⟩ := Option.isSome_iff_exists.1 hsome
  refine ⟨bits,hbits,?_⟩
  rw [unpack77_pack77 _ _ _ bits hbits (by decide) (by decide) (by rintro p hp; cases hp)]
  decide

/-- A `/R` beside a `/P` comes back as `/P`, and a CQ that carries a report is packed and then
refused. -/
theorem packed_text_differs :
    (pack77 "W1AW/R".toList "K1ABC/P".toList "-10".toList).bind unpack77 =
        some "W1AW/P K1ABC/P -10".toList ∧
      ownCall "W1AW/R".toList = "W1AW/R".toList ∧ ownCall "K1ABC/P".toList = "K1ABC/P".toList ∧
      (pack77 "CQ".toList "K1ABC".toList "RR73".toList).isSome ∧
      (pack77 "CQ".toList "K1ABC".toList "RR73".toList).bind unpack77 = none := by
  refine ⟨?_,?_,?_,?_,?_⟩
  · decide
  · decide
  · decide
  · decide
  · decide

end MfskCore.Msg
