import MfskCore.Msg.Wsjt77Learn

/-! Type-4 messages: the call that is spelled out reads back as it was packed, and whoever has
learned it can resolve its hash. -/
namespace MfskCore.Msg
open Rust Library

section Digits

private theorem packNonstandard_digits {nb : List UInt8} {n58 : Nat} (hnb : nb.length ≤ 11)
    (h : packNonstandard nb = some n58) :
    n58 < 2^58 ∧ fillDigits C38 38 11 n58 = List.replicate (11 - nb.length) 32 ++ nb := by
  obtain ⟨hlt,hdigits⟩ := fillDigits_packed rfl h
  have hlen : (List.replicate (11 - nb.length) (32 : UInt8) ++ nb).length = 11 := by
    rw [List.length_append,List.length_replicate]
    omega
  rw [hlen] at hlt hdigits
  exact ⟨hlt.trans (by decide),hdigits⟩

end Digits

section Layout

/-- The report of a type-4 message and its two bits. -/
def nrptOf (report : Str) : Option Nat :=
  if report = [] then some 0 else if report = "RRR".toList then some 1
  else if report = "RR73".toList then some 2 else if report = "73".toList then some 3 else none

/-- What the unpacker reads from a packed type-4 message. -/
structure Reads4 (nonstd stdCall report : Str) (isCq : Bool) (bits : List UInt8) : Prop where
  size : bits.length = 77
  hash : readBits bits 0 12 = if isCq then 0 else (ihashcall stdCall 12).toNat
  call : trim ((fromUtf8 (fillDigits C38 38 11 (readBits bits 12 58))).getD []) =
    (trim nonstd).map Char.toUpper
  flip : bit bits 70 = if isCq || (pack28 stdCall).isSome then 0 else 1
  rpt : nrptOf (trim report) = some (readBits bits 71 2)
  cq : bit bits 73 = isCq.toNat
  kind : readBits bits 74 3 = 4

private theorem nrptOf_lt {report : Str} {n : Nat} (h : nrptOf report = some n) : n < 2^2 := by
  unfold nrptOf at h
  split_ifs at h
  all_goals
    obtain rfl := Option.some.inj h
    decide

private theorem padded_text {s : Str} (hs : Trimmed s) (hall : (asBytes s).all (C38.contains ·)) (k : Nat) :
    trim ((fromUtf8 (List.replicate k 32 ++ asBytes s)).getD []) = s := by
  have hbytes : ∀ b ∈ asBytes s, b < 128 := fun b hb =>
    (plain_of_mem_C38 b (List.contains_iff_mem.1 (List.all_eq_true.1 hall b hb))).1
  have hpad : ∀ b ∈ List.replicate k (32 : UInt8) ++ asBytes s, b < 128 := by
    intro b hb
    rcases List.mem_append.1 hb with hb | hb
    · rw [List.eq_of_mem_replicate hb]
      decide
    · exact hbytes b hb
  have htext := alphabetText_asBytes (isAscii_of_asBytes hbytes)
  have hblank := hs.trim_pad k 0
  rw [List.replicate_zero,List.append_nil] at hblank
  rw [fromUtf8_ascii hpad,Option.getD_some,List.map_append,List.map_replicate]
  exact (congrArg (fun x => trim (List.replicate k ' ' ++ x)) htext).trans hblank

/-- The payload of a type-4 message from its fields. -/
private def layout4 (n12 n58 iflip nrpt : Nat) (isCq : Bool) : List UInt8 :=
  writeBits (((writeBits ((writeBits (writeBits (List.replicate 77 0) 0 12 n12) 12 58 n58).set 70
    (UInt8.ofNat iflip)) 71 2 nrpt)).set 73 isCq.toUInt8) 74 3 4

private theorem layout4_reads (n12 n58 iflip nrpt : Nat) (isCq : Bool) :
    let m := layout4 n12 n58 iflip nrpt isCq
    m.length = 77 ∧ readBits m 0 12 = n12 % 2^12 ∧ readBits m 12 58 = n58 % 2^58 ∧
      bit m 70 = (UInt8.ofNat iflip &&& 1).toNat ∧ readBits m 71 2 = nrpt % 2^2 ∧ bit m 73 = isCq.toNat ∧
      readBits m 74 3 = 4 := by
  intro m
  refine ⟨?_,?_,?_,?_,?_,?_,?_⟩
  · simp [m,layout4]
  · simp (disch := simp) only [m,layout4,readBits_writeBits_of_disjoint,readBits_set_of_disjoint,
      readBits_writeBits]
  · simp (disch := simp) only [m,layout4,readBits_writeBits_of_disjoint,readBits_set_of_disjoint,
      readBits_writeBits]
  · simp [m,layout4,bit_writeBits,bit_set]
  · simp (disch := simp) only [m,layout4,readBits_writeBits_of_disjoint,readBits_set_of_disjoint,
      readBits_writeBits]
  · simp [m,layout4,bit_writeBits,bit_set]
    cases isCq <;> rfl
  · simp (disch := simp) only [m,layout4,readBits_writeBits,Nat.reducePow,Nat.reduceMod]

theorem pack77Type4_reads {nonstd stdCall report : Str} {isCq : Bool} {bits : List UInt8}
    (h : pack77Type4 nonstd stdCall report isCq = some bits) : Reads4 nonstd stdCall report isCq bits := by
  unfold pack77Type4 at h
  dsimp only at h
  split at h
  · exact absurd h (by simp)
  rename_i hsize
  split at h
  · exact absurd h (by simp)
  rename_i hall
  rw [Bool.or_eq_true,decide_eq_true_eq,not_or] at hsize
  rw [Bool.not_eq_true',Bool.not_eq_false] at hall
  obtain ⟨n58,hn58,h⟩ := Option.bind_eq_some_iff.1 h
  obtain ⟨nrpt,hrpt,h⟩ := Option.map_eq_some_iff.1 h
  change nrptOf (trim report) = some nrpt at hrpt
  change layout4 (if isCq then 0 else (ihashcall stdCall 12).toNat) n58
    (if isCq || (pack28 stdCall).isSome then 0 else 1) nrpt isCq = bits at h
  obtain ⟨hlt,hdigits⟩ := packNonstandard_digits (Nat.not_lt.1 hsize.2) hn58
  obtain ⟨rsize,rhash,rcall,rflip,rrpt,rcq,rkind⟩ := layout4_reads
    (if isCq then 0 else (ihashcall stdCall 12).toNat) n58
    (if isCq || (pack28 stdCall).isSome then 0 else 1) nrpt isCq
  rw [h] at rsize rhash rcall rflip rrpt rcq rkind
  refine ⟨rsize,?_,?_,?_,?_,rcq,rkind⟩
  · rw [rhash,Nat.mod_eq_of_lt]
    split
    · exact Nat.two_pow_pos 12
    · exact CallsignHashTable.ihashcall_lt stdCall (by decide)
  · rw [rcall,Nat.mod_eq_of_lt hlt,hdigits]
    exact padded_text (trimmed_trim nonstd).map_toUpper hall _
  · rw [rflip]
    cases isCq || (pack28 stdCall).isSome with
    | true => rfl
    | false => rfl
  · rw [rrpt,Nat.mod_eq_of_lt (nrptOf_lt hrpt),hrpt]

end Layout

section Reading

/-- A type-4 message as it reads under a table. -/
def readType4 (ht : CallsignHashTable) (call stdCall report : Str) (cq : Bool) : Wsjt77Fields :=
  let hashed := bracketed (ht.lookup12 (ihashcall stdCall 12))
  if cq then .Nonstandard "CQ".toList (some call) []
  else if (pack28 stdCall).isSome then .Nonstandard hashed (some call) report
  else .Nonstandard call (some hashed) report

/-- The spelled-out call is a CQ token in front of a hash. -/
def readsCqOfHash (call stdCall : Str) (cq : Bool) : Bool := !cq && (pack28 stdCall).isNone && isCq call

private theorem exchange_of_nrpt {report : Str} {n : Nat} (h : nrptOf report = some n) :
    (if n = 0 then some [] else if n = 1 then some "RRR".toList
      else if n = 2 then some "RR73".toList else if n = 3 then some "73".toList else none) = some report := by
  unfold nrptOf at h
  split_ifs at h with h0 h1 h2 h3
  · obtain rfl := Option.some.inj h
    rw [h0]
    rfl
  · obtain rfl := Option.some.inj h
    rw [h1]
    rfl
  · obtain rfl := Option.some.inj h
    rw [h2]
    rfl
  · obtain rfl := Option.some.inj h
    rw [h3]
    rfl

private theorem unpackNonstandard_packed {nonstd stdCall report : Str} {cq : Bool} {bits : List UInt8}
    (h : pack77Type4 nonstd stdCall report cq = some bits) (ht : CallsignHashTable) :
    unpackNonstandard bits ht =
      some (readType4 ht ((trim nonstd).map Char.toUpper) stdCall (trim report) cq) := by
  have hr := pack77Type4_reads h
  unfold unpackNonstandard readType4
  dsimp only
  rw [hr.call,hr.cq,hr.hash,exchange_of_nrpt hr.rpt,hr.flip,resolveHash12]
  cases cq with
  | true => rfl
  | false => cases (pack28 stdCall).isSome <;> simp

/-- The characters of an accepted call. -/
private theorem call_chars {nonstd stdCall report : Str} {cq : Bool} {bits : List UInt8}
    (h : pack77Type4 nonstd stdCall report cq = some bits) :
    asBytes ((trim nonstd).map Char.toUpper) ⊆ C38 := by
  unfold pack77Type4 at h
  dsimp only at h
  split at h
  · exact absurd h (by simp)
  split at h
  · exact absurd h (by simp)
  rename_i hall
  rw [Bool.not_eq_true',Bool.not_eq_false] at hall
  exact fun b hb => List.contains_iff_mem.1 (List.all_eq_true.1 hall b hb)

private theorem not_bracket_call {call : Str} (h : asBytes call ⊆ C38) : ['<'].isPrefixOf call = false := by
  rw [← Bool.not_eq_true,List.isPrefixOf_iff_prefix]
  rintro ⟨rest,rfl⟩
  have hmem : (60 : UInt8) ∈ C38 := h (List.mem_flatMap.2 ⟨'<',by simp,by decide⟩)
  exact absurd hmem (by decide)

/-- The dispatcher's one refusal of a type-4 message. -/
theorem unpack77Fields_packed {nonstd stdCall report : Str} {cq : Bool} {bits : List UInt8}
    (h : pack77Type4 nonstd stdCall report cq = some bits) (ht : CallsignHashTable) :
    unpack77Fields bits ht =
      if readsCqOfHash ((trim nonstd).map Char.toUpper) stdCall cq then none
      else some (readType4 ht ((trim nonstd).map Char.toUpper) stdCall (trim report) cq) := by
  have hplain := not_bracket_call (call_chars h)
  obtain ⟨x,hx⟩ := bracketed_eq (ht.lookup12 (ihashcall stdCall 12))
  have hrefuse : cqFromHash (readType4 ht ((trim nonstd).map Char.toUpper) stdCall (trim report) cq) =
      readsCqOfHash ((trim nonstd).map Char.toUpper) stdCall cq := by
    unfold readType4 readsCqOfHash
    dsimp only
    rw [hx]
    cases cq with
    | true =>
      simp only [if_true,cqFromHash,Wsjt77Fields.callsigns,Option.toList_some,hplain,Bool.and_false]
      rfl
    | false =>
      cases hp : pack28 stdCall with
      | some n =>
        simp only [Option.isSome_some,Option.isNone_some,if_true,Bool.false_eq_true,if_false,cqFromHash,
          Wsjt77Fields.callsigns,Option.toList_some,hplain,Bool.and_false]
        rfl
      | none =>
        simp only [Option.isSome_none,Option.isNone_none,Bool.false_eq_true,if_false,cqFromHash,
          Wsjt77Fields.callsigns,Option.toList_some]
        simp
  rw [unpack77Fields,(pack77Type4_reads h).kind]
  change (unpackNonstandard bits ht).bind _ = _
  rw [unpackNonstandard_packed h,Option.bind_some,hrefuse]

/-- The characters a type-4 message spells out. -/
def type4Chars : Str := " 0123456789ABCDEFGHIJKLMNOPQRSTUVWXYZ/".toList

/-- A call of up to eleven of these characters, in either case, blanks around it aside. -/
def IsType4Call (nonstd : Str) : Prop :=
  1 ≤ (trim nonstd).length ∧ (trim nonstd).length ≤ 11 ∧ ∀ ch ∈ trim nonstd, ch.toUpper ∈ type4Chars

private theorem packNonstandard_isSome {nb : List UInt8} (h : nb ⊆ C38) : (packNonstandard nb).isSome = true := by
  refine (packed_isSome_iff 0).2 (List.append_subset.2 ⟨fun b hb => ?_,h⟩)
  rw [List.eq_of_mem_replicate hb]
  decide

private theorem isSome_pack77Type4_iff (nonstd stdCall : Str) {report : Str} (cq : Bool)
    (hreport : (nrptOf (trim report)).isSome = true) :
    (pack77Type4 nonstd stdCall report cq).isSome = true ↔ IsType4Call nonstd := by
  have hupper : asBytes ((trim nonstd).map Char.toUpper) ⊆ C38 ↔ ∀ ch ∈ trim nonstd, ch.toUpper ∈ type4Chars :=
    (asBytes_subset_iff type4Chars (by decide)).trans List.forall_mem_map
  have hlength (h : asBytes ((trim nonstd).map Char.toUpper) ⊆ C38) :
      (asBytes ((trim nonstd).map Char.toUpper)).length = (trim nonstd).length := by
    rw [asBytes_ascii (isAscii_of_asBytes fun b hb => (plain_of_mem_C38 b (h hb)).1),List.length_map,
      List.length_map]
  have hempty (h : asBytes ((trim nonstd).map Char.toUpper) ⊆ C38) :
      (asBytes ((trim nonstd).map Char.toUpper)).isEmpty = true ↔ (trim nonstd).length = 0 := by
    rw [List.isEmpty_iff_length_eq_zero,hlength h]
  constructor
  · intro hsome
    obtain ⟨bits,h⟩ := Option.isSome_iff_exists.1 hsome
    have hchars := call_chars h
    unfold pack77Type4 at h
    dsimp only at h
    split at h
    · exact absurd h (by simp)
    rename_i hsize
    rw [Bool.or_eq_true,decide_eq_true_eq,hempty hchars,hlength hchars] at hsize
    exact ⟨by omega,by omega,hupper.1 hchars⟩
  · rintro ⟨hleast,hmost,hall⟩
    have hchars := hupper.2 hall
    obtain ⟨n58,hn58⟩ := Option.isSome_iff_exists.1 (packNonstandard_isSome hchars)
    obtain ⟨nrpt,hnrpt⟩ := Option.isSome_iff_exists.1 hreport
    rw [nrptOf] at hnrpt
    unfold pack77Type4
    dsimp only
    rw [if_neg,if_neg,hn58,Option.bind_some,hnrpt]
    · rfl
    · rw [Bool.not_eq_true',Bool.not_eq_false]
      exact List.all_eq_true.2 fun b hb => List.contains_iff_mem.2 (hchars hb)
    · rw [Bool.or_eq_true,decide_eq_true_eq,hempty hchars,hlength hchars]
      omega

/-- The four reports of a type-4 message. -/
def TYPE4_REPORTS : List Str := [[],"RRR".toList,"RR73".toList,"73".toList]

private theorem report_cases {report : Str} (h : report ∈ TYPE4_REPORTS) :
    trim report = report ∧ (nrptOf (trim report)).isSome = true := by
  simp only [TYPE4_REPORTS,List.mem_cons,List.not_mem_nil,or_false] at h
  rcases h with rfl | rfl | rfl | rfl <;> decide

/-- A packed type-4 message comes back as it was put in, whatever the table knows, unless it puts a CQ token
in front of a hash. -/
theorem type4_round_trip (nonstd stdCall report : Str) (cq : Bool) (ht : CallsignHashTable)
    (hreport : report ∈ TYPE4_REPORTS) :
    ((pack77Type4 nonstd stdCall report cq).isSome = true ↔ IsType4Call nonstd) ∧
    ∀ bits, pack77Type4 nonstd stdCall report cq = some bits → unpack77Fields bits ht =
      if readsCqOfHash ((trim nonstd).map Char.toUpper) stdCall cq then none
      else some (readType4 ht ((trim nonstd).map Char.toUpper) stdCall report cq) := by
  obtain ⟨htrim,hsome⟩ := report_cases hreport
  refine ⟨isSome_pack77Type4_iff nonstd stdCall cq hsome,fun bits h => ?_⟩
  rw [unpack77Fields_packed h,htrim]

theorem type4_round_trip_reference :
    ∃ bits, pack77Type4 "pj4/k1abc".toList "W9XYZ".toList "RRR".toList false = some bits ∧
      unpack77Fields bits .new =
        some (.Nonstandard "<...>".toList (some "PJ4/K1ABC".toList) "RRR".toList) := by
  obtain ⟨hsome,hback⟩ := type4_round_trip "pj4/k1abc".toList "W9XYZ".toList "RRR".toList false .new
    (by decide)
  obtain ⟨bits,hbits⟩ := Option.isSome_iff_exists.1 (hsome.2
    ⟨by decide,by decide,List.all_iff_forall_prop.1 (by decide)⟩)
  exact ⟨bits,hbits,(hback bits hbits).trans (by decide +kernel)⟩

/-- A call spelled `CQ` in front of the hash of a compound call is packed and then refused. -/
theorem type4_cq_of_hash_refused :
    ∃ bits, pack77Type4 "CQ".toList "PJ4/K1ABC".toList "RRR".toList false = some bits ∧
      unpack77Fields bits .new = none := by
  refine ⟨(pack77Type4 "CQ".toList "PJ4/K1ABC".toList "RRR".toList false).getD [],?_⟩
  decide +kernel

end Reading

section Resolving

/-- The characters of a callsign that a type-4 message can spell out. -/
def callChars : Str := "0123456789ABCDEFGHIJKLMNOPQRSTUVWXYZ/".toList

/-- The table answers each of the three hashes of a call with the call. -/
structure Resolves (t : CallsignHashTable) (c : Str) : Prop where
  by10 : t.lookup10 (ihashcall c 10) = some c
  by12 : t.lookup12 (ihashcall c 12) = some c
  by22 : t.lookup22 (ihashcall c 22) = some c

/-- A type-4 message that hashes `c` as the other station, as it reads when `c` is known. A message
whose spelled-out call is a CQ token in front of a hash is refused, whatever the table knows. -/
def shownType4 (nonstd c report : Str) : Wsjt77Fields :=
  if (pack28 c).isSome then .Nonstandard ('<' :: c ++ ['>']) (some ((trim nonstd).map Char.toUpper)) (trim report)
  else .Nonstandard ((trim nonstd).map Char.toUpper) (some ('<' :: c ++ ['>'])) (trim report)

/-- Every field that carries a hash of `c` reads `<c>`. -/
structure ShowsHash (t : CallsignHashTable) (c : Str) : Prop where
  type4 : ∀ nonstd report bits, pack77Type4 nonstd c report false = some bits →
    ((pack28 c).isSome = true ∨ isCq ((trim nonstd).map Char.toUpper) = false) →
    unpack77Fields bits t = some (shownType4 nonstd c report)
  field28 : unpack28H (NTOKENS + (ihashcall c 22).toNat) t = '<' :: c ++ ['>']
  field22 : resolveHash22 (ihashcall c 22).toNat t = '<' :: c ++ ['>']

variable {t : CallsignHashTable} {c : Str}

private theorem Resolves.type4 (h : Resolves t c) (nonstd report : Str) (bits : List UInt8)
    (hpack : pack77Type4 nonstd c report false = some bits)
    (hcq : (pack28 c).isSome = true ∨ isCq ((trim nonstd).map Char.toUpper) = false) :
    unpack77Fields bits t = some (shownType4 nonstd c report) := by
  have hshown : ¬readsCqOfHash ((trim nonstd).map Char.toUpper) c false = true := by
    rw [readsCqOfHash,Bool.not_false,Bool.true_and]
    rcases hcq with hp | hcq
    · simp [Option.isNone_iff_eq_none,Option.isSome_iff_ne_none.1 hp]
    · simp [hcq]
  rw [unpack77Fields_packed hpack,if_neg hshown,readType4,h.by12,shownType4]
  rfl

theorem Resolves.shows (h : Resolves t c) : ShowsHash t c := by
  have hlt : (ihashcall c 22).toNat < MAX22 := CallsignHashTable.ihashcall_lt c (by decide)
  have h22 : resolveHash22 (ihashcall c 22).toNat t = '<' :: c ++ ['>'] := by
    rw [resolveHash22,UInt32.ofNat_toNat,h.by22]
    rfl
  refine ⟨h.type4,?_,h22⟩
  rw [unpack28H,if_pos,Nat.add_sub_cancel_left]
  · exact h22
  · rw [Nat.add_sub_cancel_left]
    simp [hlt]

private theorem callChars_plain : ∀ ch ∈ callChars, isWhitespace ch = false ∧ ch.toUpper = ch ∧
    ch ≠ '<' ∧ ch ≠ '>' ∧ ch ≠ '.' ∧ 0 < ch.toNat ∧ ch.toNat < 128 ∧ UInt8.ofNat ch.toNat ∈ C38 :=
  List.all_iff_forall_prop.1 (by decide +kernel)

/-- A callsign as the alphabet of type-4 messages has it. -/
structure Spelled (c : Str) : Prop where
  least : 3 ≤ c.length
  most : c.length ≤ 11
  chars : ∀ ch ∈ c, ch ∈ callChars
  notCq : "CQ".toList.isPrefixOf c = false

namespace Spelled

theorem trimmed (h : Spelled c) : trim c = c := by
  have hblank : ∀ ch ∈ c, isWhitespace ch = false := fun ch hch => (callChars_plain ch (h.chars ch hch)).1
  exact Trimmed.trim_eq ⟨fun ch hch => hblank ch (List.mem_of_mem_head? hch),
    fun ch hch => hblank ch (List.mem_of_getLast? hch)⟩

theorem upper (h : Spelled c) : c.map Char.toUpper = c :=
  (List.map_congr_left fun ch hch => (callChars_plain ch (h.chars ch hch)).2.1).trans (List.map_id c)

theorem ascii (h : Spelled c) : isAscii c := by
  simp only [isAscii,List.all_eq_true,decide_eq_true_eq]
  intro ch hch
  exact (callChars_plain ch (h.chars ch hch)).2.2.2.2.2.2.1

theorem bytes_length (h : Spelled c) : (asBytes c).length = c.length := by
  rw [asBytes_ascii h.ascii,List.length_map]

theorem bytes_subset (h : Spelled c) : asBytes c ⊆ C38 := by
  rw [asBytes_ascii h.ascii]
  intro b hb
  obtain ⟨ch,hch,rfl⟩ := List.mem_map.1 hb
  exact (callChars_plain ch (h.chars ch hch)).2.2.2.2.2.2.2

theorem baseCall_eq (h : Spelled c) : baseCall c = stripRp c := by
  have hopen : stripPrefix ['<'] c = none := by
    rw [stripPrefix,if_neg]
    intro hp
    obtain ⟨rest,rfl⟩ := List.isPrefixOf_iff_prefix.1 hp
    exact (callChars_plain '<' (h.chars '<' (by simp))).2.2.1 rfl
  have hclose : stripSuffix ['>'] c = none := by
    rw [stripSuffix,if_neg]
    intro hs
    obtain ⟨rest,rfl⟩ := List.isSuffixOf_iff_suffix.1 hs
    exact (callChars_plain '>' (h.chars '>' (by simp))).2.2.2.1 rfl
  rw [baseCall,h.trimmed,hopen,Option.getD_none,hclose,Option.getD_none]
  rfl

theorem byteLen_ge (h : Spelled c) : 3 ≤ byteLen c := h.least.trans (length_le_byteLen c)

theorem not_skips (h : Spelled c) : skipsBase c = false := by
  have hdots : (c == "...".toList) = false := by
    rw [beq_eq_false_iff_ne]
    rintro rfl
    exact absurd (h.chars '.' (by simp)) (by decide)
  have hlen : decide (byteLen c < 2) = false := decide_eq_false (by have := h.byteLen_ge; omega)
  rw [skipsBase,hlen,hdots,h.notCq]
  rfl

theorem packs (h : Spelled c) : (pack77Type4 c [] [] true).isSome = true := by
  have hne : (asBytes c).isEmpty = false := by
    rw [List.isEmpty_eq_false_iff_exists_mem]
    exact List.exists_mem_of_length_pos (by rw [h.bytes_length]; have := h.least; omega)
  have hmost : decide ((asBytes c).length > 11) = false :=
    decide_eq_false (by rw [h.bytes_length]; exact Nat.not_lt.2 h.most)
  have hall : (asBytes c).all (C38.contains ·) = true :=
    List.all_eq_true.2 fun b hb => List.contains_iff_mem.2 (h.bytes_subset hb)
  obtain ⟨n58,hn58⟩ := Option.isSome_iff_exists.1 (packNonstandard_isSome h.bytes_subset)
  rw [pack77Type4,h.trimmed,h.upper,hne,hmost,hall,hn58]
  rfl

/-- The one text a type-4 message hands to the table. -/
theorem callFields_eq (h : Spelled c) {stdCall report : Str} {isCq : Bool} {bits : List UInt8}
    (hpack : pack77Type4 c stdCall report isCq = some bits) : callFields bits = [c] := by
  have hr := pack77Type4_reads hpack
  have hcall := hr.call
  rw [h.trimmed,h.upper] at hcall
  have hfields : callFields bits = nonstdField bits := by
    rw [callFields,hr.kind]
    rfl
  rw [hfields,nonstdField,hcall,if_pos (le_of_lt h.byteLen_ge)]

end Spelled

/-- A call that a type-4 message taught is found under each of its hashes, and shown wherever one of
them is sent, unless the table cut a suffix from it. -/
theorem learned_call_resolves_iff (c : Str) (h : Spelled c) :
    (∀ ops stdCall report isCq bits, pack77Type4 c stdCall report isCq = some bits →
      Resolves (unpack77Learn bits (run CallsignHashTable.apply .new ops)).2 c ∧
      ShowsHash (unpack77Learn bits (run CallsignHashTable.apply .new ops)).2 c) ↔
    ¬("/R".toList.isSuffixOf c = true ∨ "/P".toList.isSuffixOf c = true) := by
  constructor
  · intro hall hsuffix
    obtain ⟨bits,hpack⟩ := Option.isSome_iff_exists.1 h.packs
    have hholds := registerCallsigns_holds bits .new (pack77Type4_reads hpack).size (.inl ⟨rfl,rfl⟩)
    rw [List.append_nil] at hholds
    have hfound := (hall [] [] [] true bits hpack).1.by10
    rw [run_nil] at hfound
    change (registerCallsigns bits .new).lookup10 _ = _ at hfound
    rw [(CallsignHashTable.lookups_of_holds hholds (taught_storable bits) _).1,Option.map_eq_some_iff] at hfound
    obtain ⟨base,hbase,htake⟩ := hfound
    obtain ⟨hmem,-⟩ := List.mem_filter.1 (List.mem_reverse.1 (List.mem_of_find?_eq_some hbase))
    rw [h.callFields_eq hpack,List.map_singleton,List.mem_singleton,h.baseCall_eq,stripRp,
      if_pos (Bool.or_eq_true_iff.2 hsuffix)] at hmem
    have hlen := congrArg List.length htake
    rw [hmem,List.length_take,List.length_take] at hlen
    have := h.least
    omega
  · intro hplain ops stdCall report isCq bits hpack
    have hbase : baseCall c = c := by
      rw [h.baseCall_eq,stripRp,if_neg]
      rwa [Bool.or_eq_true]
    have htaught : taught bits = [c] := by
      simp [taught,h.callFields_eq hpack,hbase,h.not_skips]
    have hholds := registerCallsigns_holds bits _ (pack77Type4_reads hpack).size
      (CallsignHashTable.run_holds ops (.inl ⟨rfl,rfl⟩))
    obtain ⟨h10,h12,h22⟩ := CallsignHashTable.knows_of_holds hholds (taught_storable bits)
      ((taught_length bits).trans (by decide)) c (htaught ▸ List.mem_singleton_self c)
    have hcut : c.take 13 = c := List.take_of_length_le (h.most.trans (by decide))
    have hfind : ∀ m, ((taught bits).find? (fun b => ihashcall b m = ihashcall c m)).map (List.take 13) =
        some c := by
      intro m
      simp [htaught,hcut]
    have hres : Resolves (registerCallsigns bits (run CallsignHashTable.apply .new ops)) c :=
      ⟨h10.trans (hfind 10),h12.trans (hfind 12),h22.trans (hfind 22)⟩
    exact ⟨hres,hres.shows⟩

theorem learned_call_resolves_prefixed :
    let bits := (pack77Type4 "PJ4/K1ABC".toList [] [] true).getD []
    Resolves (unpack77Learn bits .new).2 "PJ4/K1ABC".toList ∧
      ShowsHash (unpack77Learn bits .new).2 "PJ4/K1ABC".toList :=
  (learned_call_resolves_iff "PJ4/K1ABC".toList
    ⟨by decide,by decide,List.all_iff_forall_prop.1 (by decide +kernel),by decide⟩).2 (by decide)
    [] [] [] true _ (by decide +kernel)

/-- A portable station has been learned, and the next message to it still reads `<...>`. -/
theorem learned_portable_unresolved :
    ∃ bits later, pack77Type4 "JL1NIE/P".toList [] [] true = some bits ∧
      pack77Type4 "PJ4/K1ABC".toList "JL1NIE/P".toList "RRR".toList false = some later ∧
      (unpack77Learn bits .new).2.lookup10 (ihashcall "JL1NIE/P".toList 10) = none ∧
      (unpack77Learn bits .new).2.lookup12 (ihashcall "JL1NIE/P".toList 12) = none ∧
      (unpack77Learn bits .new).2.lookup22 (ihashcall "JL1NIE/P".toList 22) = none ∧
      unpack77WithHash later (unpack77Learn bits .new).2 = some "PJ4/K1ABC <...> RRR".toList := by
  refine ⟨(pack77Type4 "JL1NIE/P".toList [] [] true).getD [],
    (pack77Type4 "PJ4/K1ABC".toList "JL1NIE/P".toList "RRR".toList false).getD [],?_⟩
  decide +kernel

end Resolving

end MfskCore.Msg
