import MfskCore.Library.LetterClass
import MfskCore.Msg.Callsign

/-! The grammar that `is_standard_callsign` documents, and the calls it accepts beside it: those whose prefix is a
single digit. -/
namespace MfskCore.Msg
open Rust Library

/-- `u8::is_ascii_uppercase` read on characters. -/
def isAsciiUppercase (c : Char) : Bool := 'A' ≤ c && c ≤ 'Z'

section Grammar

/-- `[A-Z]{0,2} | [A-Z][0-9] | [0-9][A-Z]`. -/
def part1 : Language Char :=
  upTo 2 isAsciiUppercase + oneOf isAsciiUppercase * oneOf isAsciiDigit +
    oneOf isAsciiDigit * oneOf isAsciiUppercase

/-- `[0-9][A-Z]{0,3}`. -/
def part2 : Language Char := oneOf isAsciiDigit * upTo 3 isAsciiUppercase

/-- `(/R|/P)?`. -/
def rpSuffix : Language Char := 1 + {"/R".toList} + {"/P".toList}

end Grammar

section Bytes

theorem digitByte_not_upper (b : UInt8) (h : isDigitByte b = true) : ¬ isUpperByte b = true := by
  simp only [isDigitByte,isUpperByte,Bool.and_eq_true,decide_eq_true_eq,UInt8.le_iff_toNat_le] at h ⊢
  have hlow : (57 : UInt8).toNat < (65 : UInt8).toNat := by decide
  omega

theorem splitDigit_some {b : List UInt8} {i : Nat} (h : splitDigit b = some i) :
    ∃ u d v, b = u ++ d :: v ∧ i = u.length ∧ isDigitByte d = true ∧ ∀ x ∈ v, isUpperByte x = true := by
  have hi : i < b.length := List.mem_range.1 (List.mem_reverse.1 (List.mem_of_find?_eq_some h))
  have hfound := List.find?_some h
  rw [Bool.and_eq_true,List.getD_eq_getElem?_getD,List.getElem?_eq_getElem hi,Option.getD_some,List.all_eq_true] at hfound
  refine ⟨b.take i,b[i],b.drop (i + 1),?_,(List.length_take_of_le hi.le).symm,hfound⟩
  rw [List.cons_getElem_drop_succ,List.take_append_drop]

theorem splitDigit_append {u v : List UInt8} {d : UInt8} (hd : isDigitByte d = true)
    (hv : ∀ x ∈ v, isUpperByte x = true) : splitDigit (u ++ d :: v) = some u.length := by
  cases h : splitDigit (u ++ d :: v) with
  | none =>
    have hmem : u.length ∈ (List.range (u ++ d :: v).length).reverse := by simp
    refine absurd (List.find?_eq_none.1 h u.length hmem) (not_not.2 ?_)
    rw [Bool.and_eq_true,List.all_eq_true]
    exact ⟨by simpa using hd,by simpa using hv⟩
  | some i =>
    obtain ⟨u',d',v',heq,rfl,hd',hv'⟩ := splitDigit_some h
    rw [(cut_unique digitByte_not_upper hd hv hd' hv' heq).1]

theorem length_of_standardPrefix {u : List UInt8} (h : standardPrefix u = true) : u.length ≤ 2 := by
  match u with
  | [] | [_] | [_,_] => simp
  | _ :: _ :: _ :: _ => simp [standardPrefix] at h

/-- A standard callsign is a prefix, a digit and at most three letters. -/
theorem isStandardCallsign_iff (call : Str) :
    isStandardCallsign call = true ↔ ∃ u d v, asBytes (stripRp (trim call)) = u ++ d :: v ∧
      standardPrefix u = true ∧ isDigitByte d = true ∧ v.length ≤ 3 ∧ ∀ x ∈ v, isUpperByte x = true := by
  rw [isStandardCallsign]
  generalize asBytes (stripRp (trim call)) = b
  constructor
  · intro h
    cases hsplit : splitDigit b with
    | none => simp [hsplit] at h
    | some i =>
      obtain ⟨u,d,v,rfl,rfl,hd,hv⟩ := splitDigit_some hsplit
      simp only [hsplit,List.drop_left,List.take_left,Bool.if_false_left,Bool.and_eq_true] at h
      refine ⟨u,d,v,rfl,h.2.2.2.2,hd,Nat.le_of_succ_le_succ (Nat.le_of_not_lt ?_),hv⟩
      simpa using h.2.2.1
  · rintro ⟨u,d,v,rfl,hpre,hd,hlen,hv⟩
    have hu := length_of_standardPrefix hpre
    have hsize : ¬ ((u ++ d :: v).isEmpty || decide ((u ++ d :: v).length > 6)) = true := by
      have hle : (u ++ d :: v).length ≤ 6 := by rw [List.length_append,List.length_cons]; omega
      simpa using hle
    have hshort : ¬ (d :: v).length > 4 := Nat.not_lt.2 (Nat.succ_le_succ hlen)
    rw [if_neg hsize,splitDigit_append hd hv]
    simp only [List.drop_left,List.take_left]
    rw [if_neg (by simpa using hd),if_neg hshort,if_neg (by simpa using hv)]
    exact hpre

end Bytes

section Characters

/-- The byte of an ASCII character. -/
def byteOf (c : Char) : UInt8 := UInt8.ofNat c.toNat

theorem upper_byteOf {c : Char} (h : c.toNat < 128) : isUpperByte (byteOf c) = isAsciiUppercase c := by
  have hall : ∀ n < 128, isUpperByte (UInt8.ofNat n) = isAsciiUppercase (Char.ofNat n) := by decide
  rw [byteOf,hall _ h,Char.ofNat_toNat]

theorem digit_byteOf {c : Char} (h : c.toNat < 128) : isDigitByte (byteOf c) = isAsciiDigit c := by
  have hall : ∀ n < 128, isDigitByte (UInt8.ofNat n) = isAsciiDigit (Char.ofNat n) := by decide
  rw [byteOf,hall _ h,Char.ofNat_toNat]

theorem ascii_of_upper {c : Char} (h : isAsciiUppercase c = true) : c.toNat < 128 := by
  rw [isAsciiUppercase,Bool.and_eq_true,decide_eq_true_eq,decide_eq_true_eq] at h
  exact Nat.lt_of_le_of_lt h.2 (by decide)

theorem ascii_of_digit {c : Char} (h : isAsciiDigit c = true) : c.toNat < 128 := by
  rw [isAsciiDigit,Bool.and_eq_true,decide_eq_true_eq,decide_eq_true_eq] at h
  exact Nat.lt_of_le_of_lt h.2 (by decide)

theorem digit_not_upper (c : Char) (h : isAsciiDigit c = true) : ¬ isAsciiUppercase c = true := by
  rw [← upper_byteOf (ascii_of_digit h)]
  exact digitByte_not_upper _ (by rwa [digit_byteOf (ascii_of_digit h)])

/-- A letter or a digit. -/
def Alnum (c : Char) : Prop := isAsciiUppercase c = true ∨ isAsciiDigit c = true

theorem Alnum.ascii {c : Char} (h : Alnum c) : c.toNat < 128 := h.elim ascii_of_upper ascii_of_digit

theorem over_part1 : Over Alnum part1 :=
  ((over_upTo (fun _ => .inl) 2).add ((over_oneOf fun _ => .inl).mul (over_oneOf fun _ => .inr))).add
    ((over_oneOf fun _ => .inr).mul (over_oneOf fun _ => .inl))

theorem over_part2 : Over Alnum part2 := (over_oneOf fun _ => .inr).mul (over_upTo (fun _ => .inl) 3)

/-- The prefixes the code takes: those of the grammar, and a single digit. -/
theorem standardPrefix_iff {u : Str} (h : ∀ c ∈ u, c.toNat < 128) :
    standardPrefix (u.map byteOf) = true ↔ u ∈ part1 + oneOf isAsciiDigit := by
  rw [Language.mem_add,part1,Language.mem_add,Language.mem_add,mem_upTo,mem_oneOf_mul_oneOf,mem_oneOf_mul_oneOf,mem_oneOf]
  match u with
  | [] => simp [standardPrefix]
  | [a] =>
    have ha := h a List.mem_cons_self
    simp [standardPrefix,upper_byteOf ha,digit_byteOf ha]
  | [a,b] =>
    have ha := h a List.mem_cons_self
    have hb := h b (List.mem_cons_of_mem a List.mem_cons_self)
    simp [standardPrefix,upper_byteOf ha,digit_byteOf ha,upper_byteOf hb,digit_byteOf hb]
  | a :: b :: c :: rest => simp [standardPrefix]

end Characters

section Acceptance

private theorem lt_of_isDigitByte {b : UInt8} (h : isDigitByte b = true) : b < 128 := by
  rw [isDigitByte,Bool.and_eq_true,decide_eq_true_eq,decide_eq_true_eq] at h
  exact UInt8.lt_of_le_of_lt h.2 (by decide)

private theorem lt_of_isUpperByte {b : UInt8} (h : isUpperByte b = true) : b < 128 := by
  rw [isUpperByte,Bool.and_eq_true,decide_eq_true_eq,decide_eq_true_eq] at h
  exact UInt8.lt_of_le_of_lt h.2 (by decide)

private theorem prefix_ascii {u : List UInt8} (h : standardPrefix u = true) : ∀ b ∈ u, b < 128 := by
  match u with
  | [] => exact fun b hb => absurd hb List.not_mem_nil
  | [a] =>
    rw [standardPrefix,Bool.or_eq_true] at h
    exact List.forall_mem_singleton.2 (h.elim lt_of_isUpperByte lt_of_isDigitByte)
  | [a,b] =>
    simp only [standardPrefix,Bool.or_eq_true,Bool.and_eq_true] at h
    rw [List.forall_mem_cons,List.forall_mem_singleton]
    rcases h with (⟨ha,hb⟩ | ⟨ha,hb⟩) | ⟨ha,hb⟩
    · exact ⟨lt_of_isUpperByte ha,lt_of_isUpperByte hb⟩
    · exact ⟨lt_of_isUpperByte ha,lt_of_isDigitByte hb⟩
    · exact ⟨lt_of_isDigitByte ha,lt_of_isUpperByte hb⟩
  | _ :: _ :: _ :: _ => cases h

private theorem asBytes_eq_map {s : Str} (h : ∀ c ∈ s, c.toNat < 128) : asBytes s = s.map byteOf :=
  asBytes_ascii (List.all_eq_true.2 fun c hc => decide_eq_true (h c hc))

/-- What the code accepts, once the suffix is gone. -/
theorem isStandardCallsign_mem (call : Str) :
    isStandardCallsign call = true ↔ stripRp (trim call) ∈ (part1 + oneOf isAsciiDigit) * part2 := by
  rw [isStandardCallsign_iff,part2,mem_mul_oneOf_mul]
  generalize stripRp (trim call) = base
  constructor
  · rintro ⟨u,d,v,hbytes,hpre,hd,hlen,hv⟩
    have hascii : ∀ c ∈ base, c.toNat < 128 := by
      refine fun c hc => of_decide_eq_true (List.all_eq_true.1 (isAscii_of_asBytes ?_) c hc)
      rw [hbytes,List.forall_mem_append,List.forall_mem_cons]
      exact ⟨prefix_ascii hpre,lt_of_isDigitByte hd,fun b hb => lt_of_isUpperByte (hv b hb)⟩
    rw [asBytes_eq_map hascii,List.map_eq_append_iff] at hbytes
    obtain ⟨u,right,rfl,rfl,hright⟩ := hbytes
    obtain ⟨d,v,rfl,rfl,rfl⟩ := List.map_eq_cons_iff.1 hright
    rw [List.forall_mem_append,List.forall_mem_cons] at hascii
    refine ⟨u,d,v,(standardPrefix_iff hascii.1).1 hpre,?_,⟨?_,fun c hc => ?_⟩,rfl⟩
    · rwa [← digit_byteOf hascii.2.1]
    · rwa [List.length_map] at hlen
    · rw [← upper_byteOf (hascii.2.2 c hc)]
      exact hv _ (List.mem_map_of_mem hc)
  · rintro ⟨u,d,v,hu,hd,⟨hlen,hv⟩,rfl⟩
    have hua : ∀ c ∈ u, c.toNat < 128 := fun c hc => ((over_part1.add (over_oneOf fun _ => .inr)) u hu c hc).ascii
    have hascii : ∀ c ∈ u ++ d :: v, c.toNat < 128 := by
      rw [List.forall_mem_append,List.forall_mem_cons]
      exact ⟨hua,ascii_of_digit hd,fun c hc => ascii_of_upper (hv c hc)⟩
    refine ⟨u.map byteOf,byteOf d,v.map byteOf,?_,(standardPrefix_iff hua).2 hu,?_,?_,?_⟩
    · rw [asBytes_eq_map hascii,List.map_append,List.map_cons]
    · rwa [digit_byteOf (ascii_of_digit hd)]
    · rwa [List.length_map]
    · exact List.forall_mem_map.2 fun c hc => by rw [upper_byteOf (ascii_of_upper (hv c hc))]; exact hv c hc

theorem mem_rpSuffix {w : Str} : w ∈ rpSuffix ↔ w = [] ∨ w = "/R".toList ∨ w = "/P".toList := by
  rw [rpSuffix,Language.mem_add,Language.mem_add,or_assoc]
  rfl

theorem stripRp_suffixed (u : Str) {v : Str} (hv : v = "/R".toList ∨ v = "/P".toList) : stripRp (u ++ v) = u := by
  have hsuffix : ("/R".toList.isSuffixOf (u ++ v) || "/P".toList.isSuffixOf (u ++ v)) = true := by
    rw [Bool.or_eq_true,List.isSuffixOf_iff_suffix,List.isSuffixOf_iff_suffix]
    rcases hv with rfl | rfl
    · exact .inl (List.suffix_append _ _)
    · exact .inr (List.suffix_append _ _)
  have hlen : (u ++ v).length - 2 = u.length := by
    rw [List.length_append]
    rcases hv with rfl | rfl <;> rfl
  rw [stripRp,if_pos hsuffix,hlen,List.take_left]

/-- Nothing is cut off a word of letters and digits. -/
theorem stripRp_alnum {u : Str} (h : ∀ c ∈ u, Alnum c) : stripRp u = u := by
  have hslash : '/' ∉ u := fun hmem => by
    have halnum := h _ hmem
    simp [Alnum,isAsciiUppercase,isAsciiDigit] at halnum
  rw [stripRp,if_neg]
  rw [Bool.or_eq_true,List.isSuffixOf_iff_suffix,List.isSuffixOf_iff_suffix,not_or]
  exact ⟨fun hs => hslash (hs.subset (by decide)),fun hs => hslash (hs.subset (by decide))⟩

/-- A word of letters and digits ends in the suffix only when it was put there. -/
theorem mem_mul_rpSuffix {l : Language Char} (hl : Over Alnum l) {w : Str} : w ∈ l * rpSuffix ↔ stripRp w ∈ l := by
  constructor
  · intro h
    obtain ⟨u,hu,v,hv,rfl⟩ := Language.mem_mul.1 h
    rcases mem_rpSuffix.1 hv with rfl | hv
    · rwa [List.append_nil,stripRp_alnum (hl u hu)]
    · rwa [stripRp_suffixed u hv]
  · intro h
    by_cases hsuffix : ("/R".toList.isSuffixOf w || "/P".toList.isSuffixOf w) = true
    · obtain ⟨u,v,hv,rfl⟩ : ∃ u v, (v = "/R".toList ∨ v = "/P".toList) ∧ u ++ v = w := by
        rw [Bool.or_eq_true,List.isSuffixOf_iff_suffix,List.isSuffixOf_iff_suffix] at hsuffix
        rcases hsuffix with ⟨u,hu⟩ | ⟨u,hu⟩
        · exact ⟨u,_,.inl rfl,hu⟩
        · exact ⟨u,_,.inr rfl,hu⟩
      rw [stripRp_suffixed u hv] at h
      exact Language.mem_mul.2 ⟨u,h,v,mem_rpSuffix.2 (.inr hv),rfl⟩
    · rw [stripRp,if_neg hsuffix] at h
      exact Language.mem_mul.2 ⟨w,h,[],mem_rpSuffix.2 (.inl rfl),List.append_nil w⟩

theorem digit_not_part1 {e : Char} (he : isAsciiDigit e = true) : [e] ∉ part1 := by
  rw [part1,Language.mem_add,Language.mem_add,mem_upTo,mem_oneOf_mul_oneOf,mem_oneOf_mul_oneOf]
  rintro ((⟨-,hupper⟩ | ⟨a,b,-,-,heq⟩) | ⟨a,b,-,-,heq⟩)
  · exact digit_not_upper e he (hupper e List.mem_cons_self)
  · cases heq
  · cases heq

/-- No word has both a prefix of the grammar and a prefix of one digit. -/
theorem prefixes_disjoint {w : Str} (h : w ∈ part1 * part2) : w ∉ oneOf isAsciiDigit * part2 := by
  intro hlone
  rw [part2,mem_mul_oneOf_mul] at h hlone
  obtain ⟨u,d,v,hu,hd,⟨-,hv⟩,rfl⟩ := h
  obtain ⟨_,d',v',⟨e,he,rfl⟩,hd',⟨-,hv'⟩,heq⟩ := hlone
  rw [(cut_unique digit_not_upper hd hv hd' hv' heq).1] at hu
  exact digit_not_part1 he hu

/-- The code follows its grammar but for the calls whose prefix is a single digit, all of which it accepts. -/
theorem is_standard_callsign_grammar (call : Str) :
    (isStandardCallsign call = true ↔ trim call ∈ part1 * part2 * rpSuffix) ↔
      trim call ∉ oneOf isAsciiDigit * part2 * rpSuffix := by
  have hlone : Over Alnum (oneOf isAsciiDigit * part2) := (over_oneOf fun _ => .inr).mul over_part2
  rw [isStandardCallsign_mem,mem_mul_rpSuffix (over_part1.mul over_part2),mem_mul_rpSuffix hlone,add_mul,
    Language.mem_add]
  constructor
  · intro h hdigit
    exact prefixes_disjoint (h.1 (.inr hdigit)) hdigit
  · intro h
    exact or_iff_left h

/-- `12A` has no prefix the grammar knows. -/
theorem accepts_two_digits : ¬ ∀ call : Str, isStandardCallsign call = true ↔ trim call ∈ part1 * part2 * rpSuffix := by
  intro h
  have hgrammar := (mem_mul_rpSuffix (over_part1.mul over_part2)).1 ((h "12A".toList).1 (by decide))
  have hlone : stripRp (trim "12A".toList) ∈ oneOf isAsciiDigit * part2 :=
    mem_oneOf_mul.2 ⟨'1',_,by decide,mem_oneOf_mul.2 ⟨'2',['A'],by decide,by simp [mem_upTo,isAsciiUppercase],rfl⟩,by decide⟩
  exact prefixes_disjoint hgrammar hlone

end Acceptance

end MfskCore.Msg
