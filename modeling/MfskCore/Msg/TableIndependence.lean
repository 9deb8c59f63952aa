import MfskCore.Msg.Callsign

/-! One payload decoded against two callsign tables. What a table knows shows only between
brackets: it decides neither whether a payload is accepted nor as what, and knowing more never
makes a message less plausible. -/
namespace MfskCore.Msg
open Rust

/-- Two texts that differ at most inside one pair of brackets. -/
inductive AgreeOutside : Str → Str → Prop
  | same (s : Str) : AgreeOutside s s
  | hash (pre x y post : Str) (hpre : '<' ∉ pre) (hpost : '>' ∉ post) :
      AgreeOutside (pre ++ '<' :: x ++ '>' :: post) (pre ++ '<' :: y ++ '>' :: post)

namespace Wsjt77Fields

/-- The same message type, equal fields, and callsigns that agree outside brackets. -/
inductive Agree : Wsjt77Fields → Wsjt77Fields → Prop
  | freeText (t : Str) : Agree (.FreeText t) (.FreeText t)
  | dxPedition {a b c a' b' c' : Str} (report : Str) (ha : AgreeOutside a a') (hb : AgreeOutside b b')
      (hc : AgreeOutside c c') : Agree (.DxPedition a b c report) (.DxPedition a' b' c' report)
  | fieldDay {a b a' b' : Str} (ack : Bool) (n : Nat) (klass : Char) (sec : Str) (ha : AgreeOutside a a')
      (hb : AgreeOutside b b') : Agree (.FieldDay a b ack n klass sec) (.FieldDay a' b' ack n klass sec)
  | telemetry (hex : Str) : Agree (.Telemetry hex) (.Telemetry hex)
  | wspr {a a' : Str} (tail : Str) (ha : AgreeOutside a a') : Agree (.Wspr a tail) (.Wspr a' tail)
  | standard {a b a' b' : Str} (exchange : Str) (ha : AgreeOutside a a') (hb : AgreeOutside b b') :
      Agree (.Standard a b exchange) (.Standard a' b' exchange)
  | rttyRoundup {a b a' b' : Str} (tu ack : Bool) (rst exchange : Str) (ha : AgreeOutside a a')
      (hb : AgreeOutside b b') :
      Agree (.RttyRoundup tu a b ack rst exchange) (.RttyRoundup tu a' b' ack rst exchange)
  | nonstandard {a b a' b' : Str} (exchange : Str) (ha : AgreeOutside a a') (hb : AgreeOutside b b') :
      Agree (.Nonstandard a (some b) exchange) (.Nonstandard a' (some b') exchange)
  | euVhfContest {a b a' b' : Str} (ack : Bool) (exchange grid6 : Str) (ha : AgreeOutside a a')
      (hb : AgreeOutside b b') : Agree (.EuVhfContest a b ack exchange grid6) (.EuVhfContest a' b' ack exchange grid6)

end Wsjt77Fields

/-- A table that gives every answer another one gives. -/
structure Extends (t t' : CallsignHashTable) : Prop where
  lookup10 : ∀ n call, t.lookup10 n = some call → t'.lookup10 n = some call
  lookup12 : ∀ n call, t.lookup12 n = some call → t'.lookup12 n = some call
  lookup22 : ∀ n call, t.lookup22 n = some call → t'.lookup22 n = some call

section Fields

/-- One callsign field under two tables: the same text, or a hash under both. -/
def SameField (a b : Str) : Prop := a = b ∨ ∃ x y : Str, a = '<' :: x ++ ['>'] ∧ b = '<' :: y ++ ['>']

theorem bracketed_eq (call : Option Str) : ∃ x : Str, bracketed call = '<' :: x ++ ['>'] := by
  cases call with
  | none => exact ⟨"...".toList,rfl⟩
  | some call => exact ⟨call,rfl⟩

theorem sameField_bracketed (call call' : Option Str) : SameField (bracketed call) (bracketed call') := by
  obtain ⟨x,hx⟩ := bracketed_eq call
  obtain ⟨y,hy⟩ := bracketed_eq call'
  exact .inr ⟨x,y,hx,hy⟩

theorem sameField_unpack28H (n28 : Nat) (t t' : CallsignHashTable) :
    SameField (unpack28H n28 t) (unpack28H n28 t') := by
  unfold unpack28H
  split
  · exact sameField_bracketed _ _
  · exact .inl rfl

variable {a b : Str}

theorem SameField.agree (h : SameField a b) : AgreeOutside a b := by
  rcases h with rfl | ⟨x,y,rfl,rfl⟩
  · exact .same a
  · exact .hash [] x y [] List.not_mem_nil List.not_mem_nil

theorem SameField.isCq (h : SameField a b) : isCq a = isCq b := by
  rcases h with rfl | ⟨x,y,rfl,rfl⟩
  · rfl
  · rfl

theorem SameField.startsCq (h : SameField a b) : "CQ".toList.isPrefixOf a = "CQ".toList.isPrefixOf b := by
  rcases h with rfl | ⟨x,y,rfl,rfl⟩
  · rfl
  · rfl

theorem SameField.startsBracket (h : SameField a b) : ['<'].isPrefixOf a = ['<'].isPrefixOf b := by
  rcases h with rfl | ⟨x,y,rfl,rfl⟩
  · rfl
  · rfl

/-- A suffix is pushed under both tables or under neither, and never onto a hash. -/
theorem SameField.push {p : Str → Bool} (h : SameField a b) (hp : p a = p b)
    (hbracket : p a = true → ['<'].isPrefixOf a = false) (suffix : Str) :
    SameField (if p a then a ++ suffix else a) (if p b then b ++ suffix else b) := by
  rw [← hp]
  split
  · rename_i hpush
    rcases h with rfl | ⟨x,y,rfl,rfl⟩
    · exact .inl rfl
    · exact absurd (hbracket hpush) (by simp)
  · exact h

theorem isPlausibleCall_bracketed (x : Str) : isPlausibleCall ('<' :: x ++ ['>']) = true := by
  have hopen : ['<'].isPrefixOf ('<' :: x ++ ['>']) = true := rfl
  have hclose : ['>'].isSuffixOf ('<' :: x ++ ['>']) = true := by simp [List.isSuffixOf_iff_suffix]
  unfold isPlausibleCall
  rw [hopen,hclose]
  simp

theorem SameField.isPlausibleCall (h : SameField a b) : isPlausibleCall a = isPlausibleCall b := by
  rcases h with rfl | ⟨x,y,rfl,rfl⟩
  · rfl
  · rw [isPlausibleCall_bracketed,isPlausibleCall_bracketed]

end Fields

section Wspr

/-- A character of the prefix and suffix alphabet. -/
def isAddOnChar (c : Char) : Bool := isAsciiDigit c || ('A' ≤ c && c ≤ 'Z')

private theorem isAddOnChar_C2 : ∀ n < 36, C2.getD n 0 < 128 ∧ isAddOnChar (asChar (C2.getD n 0)) = true := by
  decide

private theorem addOn_text {ns : List Nat} (h : ∀ n ∈ ns, n < 36) :
    fromUtf8 (ns.map fun n => C2.getD n 0) = some (alphabetText (ns.map fun n => C2.getD n 0)) ∧
    ∀ c ∈ alphabetText (ns.map fun n => C2.getD n 0), isAddOnChar c = true := by
  refine ⟨fromUtf8_ascii fun x hx => ?_,fun c hc => ?_⟩
  · obtain ⟨n,hn,rfl⟩ := List.mem_map.1 hx
    exact (isAddOnChar_C2 n (h n hn)).1
  · obtain ⟨x,hx,rfl⟩ := List.mem_map.1 hc
    obtain ⟨n,hn,rfl⟩ := List.mem_map.1 hx
    exact (isAddOnChar_C2 n (h n hn)).2

/-- The prefix loop leaves blanks in front of one to three letters or digits. -/
private theorem fillPrefix_eq {npfx : Nat} (h : npfx < 46656) : ∃ k ns, ns ≠ [] ∧ (∀ n ∈ ns, n < 36) ∧
    fillPrefix 3 npfx (List.replicate 3 32) = List.replicate k 32 ++ ns.map fun n => C2.getD n 0 := by
  by_cases h1 : npfx / 36 = 0
  · refine ⟨2,[npfx % 36],by simp,by simp; omega,?_⟩
    simp [fillPrefix,h1,List.replicate]
  · by_cases h2 : npfx / 36 / 36 = 0
    · refine ⟨1,[npfx / 36 % 36,npfx % 36],by simp,by simp; omega,?_⟩
      simp [fillPrefix,h1,h2,List.replicate]
    · have h3 : npfx / 36 / 36 / 36 = 0 := by omega
      refine ⟨0,[npfx / 36 / 36 % 36,npfx / 36 % 36,npfx % 36],by simp,by simp; omega,?_⟩
      simp [fillPrefix,h1,h2,h3,List.replicate]

private theorem trimmed_addOn {ds : Str} (h : ∀ c ∈ ds, isAddOnChar c = true) : Trimmed ds := by
  have hblank : ∀ c, isAddOnChar c = true → isWhitespace c = false := by
    intro c hc
    have hascii : c.toNat < 128 := by
      simp only [isAddOnChar,isAsciiDigit,Bool.or_eq_true,Bool.and_eq_true,decide_eq_true_eq] at hc
      rcases hc with ⟨-,hle⟩ | ⟨-,hle⟩
      · exact Nat.lt_of_le_of_lt (Char.le_def.1 hle) (by decide)
      · exact Nat.lt_of_le_of_lt (Char.le_def.1 hle) (by decide)
    revert hc
    revert hascii
    apply ascii_cases
    decide
  exact ⟨fun c hc => hblank c (h c (List.mem_of_mem_head? hc)),
    fun c hc => hblank c (h c (List.mem_of_getLast? hc))⟩

/-- Whether an add-on is put in front of every call, or behind every call. -/
def AddsOn (npfx : Nat) (ds : Str) : Prop :=
  ds ≠ [] ∧ (∀ c ∈ ds, isAddOnChar c = true) ∧
    ((∀ call, wsprPrefixSuffix npfx call = some (ds ++ '/' :: call)) ∨
      ∀ call, wsprPrefixSuffix npfx call = some (call ++ '/' :: ds))

private theorem addsOn_front {npfx : Nat} (hpfx : npfx < 46656) : ∃ ds, AddsOn npfx ds := by
  obtain ⟨k,ns,hne,hns,hfill⟩ := fillPrefix_eq hpfx
  obtain ⟨-,hchars⟩ := addOn_text hns
  refine ⟨alphabetText (ns.map fun n => C2.getD n 0),by simpa [alphabetText] using hne,hchars,
    .inl fun call => ?_⟩
  have hascii : ∀ x ∈ List.replicate k 32 ++ ns.map (fun n => C2.getD n 0), x < 128 := by
    intro x hx
    rcases List.mem_append.1 hx with hx | hx
    · rw [List.eq_of_mem_replicate hx]
      decide
    · obtain ⟨n,hn,rfl⟩ := List.mem_map.1 hx
      exact (isAddOnChar_C2 n (hns n hn)).1
  have htrim := (trimmed_addOn hchars).trim_pad k 0
  have hmap : (List.replicate k (32 : UInt8) ++ ns.map fun n => C2.getD n 0).map
      (fun x => Char.ofNat x.toNat) =
      List.replicate k ' ' ++ (alphabetText (ns.map fun n => C2.getD n 0) ++ List.replicate 0 ' ') := by
    rw [List.map_append,List.map_replicate,List.replicate_zero,List.append_nil]
    rfl
  rw [wsprPrefixSuffix]
  dsimp only
  rw [if_pos hpfx,hfill,fromUtf8_ascii hascii,Option.map_some,hmap,htrim]

private theorem addsOn_back {npfx : Nat} (ns : List Nat) (hne : ns ≠ []) (hns : ∀ n ∈ ns, n < 36)
    (h : ∀ call, wsprPrefixSuffix npfx call =
      (fromUtf8 (ns.map fun n => C2.getD n 0)).map fun sfx => call ++ '/' :: sfx) :
    ∃ ds, AddsOn npfx ds := by
  obtain ⟨htext,hchars⟩ := addOn_text hns
  refine ⟨_,by simpa [alphabetText] using hne,hchars,.inr fun call => ?_⟩
  rw [h,htext,Option.map_some]

/-- The add-on number alone decides whether there is a text, and on which side it goes. -/
theorem wsprPrefixSuffix_cases (npfx : Nat) :
    (∀ call, wsprPrefixSuffix npfx call = none) ∨ ∃ ds, AddsOn npfx ds := by
  by_cases hpfx : npfx < 46656
  · exact .inr (addsOn_front hpfx)
  · have hform : ∀ call, wsprPrefixSuffix npfx call =
        (if npfx - 46656 ≤ 35 then some [C2.getD (npfx - 46656) 0]
          else if npfx - 46656 ≤ 1295 then
            some [C2.getD ((npfx - 46656) / 36) 0,C2.getD ((npfx - 46656) % 36) 0]
          else if npfx - 46656 ≤ 12959 then some [C2.getD ((npfx - 46656) / 360) 0,
            C2.getD ((npfx - 46656) / 10 % 36) 0,C2.getD ((npfx - 46656) % 10) 0]
          else none).bind fun sfx => (fromUtf8 sfx).map fun sfx => call ++ '/' :: sfx := by
      intro call
      exact if_neg hpfx
    generalize npfx - 46656 = n at hform
    by_cases h1 : n ≤ 35
    · refine .inr (addsOn_back [n] (by simp) (by simp; omega) fun call => ?_)
      rw [hform,if_pos h1,Option.bind_some,List.map_cons,List.map_nil]
    · by_cases h2 : n ≤ 1295
      · refine .inr (addsOn_back [n / 36,n % 36] (by simp) (by simp; omega) fun call => ?_)
        rw [hform,if_neg h1,if_pos h2,Option.bind_some,List.map_cons,List.map_cons,List.map_nil]
      · by_cases h3 : n ≤ 12959
        · refine .inr (addsOn_back [n / 360,n / 10 % 36,n % 10] (by simp) (by simp; omega) fun call => ?_)
          rw [hform,if_neg h1,if_neg h2,if_pos h3,Option.bind_some,List.map_cons,List.map_cons,
            List.map_cons,List.map_nil]
        · refine .inl fun call => ?_
          rw [hform,if_neg h1,if_neg h2,if_neg h3,Option.bind_none]

private theorem standardPrefix_bytes {part1 : List UInt8} (h : standardPrefix part1 = true) :
    ∀ b ∈ part1, isUpperByte b = true ∨ isDigitByte b = true := by
  unfold standardPrefix at h
  split at h
  · exact fun b hb => absurd hb List.not_mem_nil
  · simpa using h
  · simp only [Bool.or_eq_true,Bool.and_eq_true] at h
    simp only [List.mem_cons,List.not_mem_nil,or_false,forall_eq_or_imp,forall_eq]
    rcases h with (⟨ha,hb⟩ | ⟨ha,hb⟩) | ⟨ha,hb⟩
    · exact ⟨.inl ha,.inl hb⟩
    · exact ⟨.inl ha,.inr hb⟩
    · exact ⟨.inr ha,.inl hb⟩
  · exact absurd h (by simp)

/-- The bytes of a standard callsign are letters and digits. -/
theorem isStandardCallsign_bytes {call : Str} (h : isStandardCallsign call = true) :
    ∀ b ∈ asBytes (stripRp (trim call)), isUpperByte b = true ∨ isDigitByte b = true := by
  unfold isStandardCallsign at h
  dsimp only at h
  generalize asBytes (stripRp (trim call)) = bytes at h ⊢
  cases hsplit : splitDigit bytes with
  | none => simp [hsplit] at h
  | some split =>
    simp only [hsplit,Bool.if_false_left,Bool.and_eq_true,Bool.not_eq_true',decide_eq_false_iff_not,
      Bool.or_eq_true,not_or,Bool.not_eq_false] at h
    obtain ⟨-,⟨hne,hdigit⟩,-,htail,hpre⟩ := h
    intro b hb
    rw [← List.take_append_drop split bytes,List.mem_append] at hb
    rcases hb with hb | hb
    · exact standardPrefix_bytes hpre b hb
    · obtain ⟨d,rest,hdrop⟩ := List.exists_cons_of_ne_nil (l := bytes.drop split) (by simpa using hne)
      rw [hdrop] at hb hdigit htail
      rcases List.mem_cons.1 hb with rfl | hb
      · exact .inr (by simpa using hdigit)
      · exact .inl (List.all_eq_true.1 htail b hb)

/-- No standard callsign has a bracket in it. -/
private theorem not_isStandardCallsign {u v : Str} (h : Trimmed (u ++ UNRESOLVED_HASH ++ v)) :
    isStandardCallsign (u ++ UNRESOLVED_HASH ++ v) = false := by
  have htrim : trim (u ++ UNRESOLVED_HASH ++ v) = u ++ UNRESOLVED_HASH ++ v := by
    have hpad := h.trim_pad 0 0
    simpa using hpad
  have hmem : '<' ∈ stripRp (u ++ UNRESOLVED_HASH ++ v) := by
    rw [stripRp]
    split
    · have hsplit : u ++ UNRESOLVED_HASH ++ v = (u ++ ['<']) ++ ("...>".toList ++ v) := by
        simp [UNRESOLVED_HASH]
      have hle : (u ++ ['<']).length ≤ ((u ++ ['<']) ++ ("...>".toList ++ v)).length - 2 := by
        simp
        omega
      rw [hsplit,List.take_append,List.take_of_length_le hle]
      simp
    · simp [UNRESOLVED_HASH]
  rw [Bool.eq_false_iff]
  intro hstd
  have hbytes := isStandardCallsign_bytes hstd
  rw [htrim] at hbytes
  have hbyte : (60 : UInt8) ∈ asBytes (stripRp (u ++ UNRESOLVED_HASH ++ v)) :=
    List.mem_flatMap.2 ⟨'<',hmem,by decide⟩
  rcases hbytes 60 hbyte with h | h
  · exact absurd h (by decide)
  · exact absurd h (by decide)

/-- A compound call with an unresolved hash on one side is not believed. -/
private theorem not_isPlausibleCallsign {s p q : Str} (hstd : isStandardCallsign s = false)
    (hsplit : s.splitOn '/' = [p,q]) (hside : p = UNRESOLVED_HASH ∨ q = UNRESOLVED_HASH) :
    isPlausibleCallsign s = false := by
  have hbase : isBaseCallsign UNRESOLVED_HASH = false := by decide
  have hmod : isModifier UNRESOLVED_HASH = false := by decide
  have hvalid : isValidCallsign s = false := by
    rw [isValidCallsign,hstd,hsplit]
    rcases hside with rfl | rfl
    · simp [hbase,hmod]
    · simp [hbase,hmod]
  rw [isPlausibleCallsign,hvalid]
  rfl

private theorem addOn_notMem {ds : Str} (h : ∀ c ∈ ds, isAddOnChar c = true) :
    '/' ∉ ds ∧ ' ' ∉ ds ∧ '<' ∉ ds ∧ '>' ∉ ds := by
  refine ⟨fun hc => ?_,fun hc => ?_,fun hc => ?_,fun hc => ?_⟩
  all_goals exact absurd (h _ hc) (by decide)

private theorem not_isPlausibleCall {s : Str} (hopen : '<' ∈ s) (hblank : ' ' ∉ s)
    (hends : ['<'].isPrefixOf s = false ∨ ['>'].isSuffixOf s = false) (hcall : isPlausibleCallsign s = false) :
    isPlausibleCall s = false := by
  have htoken : (s == "CQ".toList || s == "DE".toList || s == "QRZ".toList ||
      "CQ ".toList.isPrefixOf s) = false := by
    rw [Bool.eq_false_iff]
    intro h
    simp only [Bool.or_eq_true,beq_iff_eq,List.isPrefixOf_iff_prefix] at h
    rcases h with ((rfl | rfl) | rfl) | hcq
    · exact absurd hopen (by decide)
    · exact absurd hopen (by decide)
    · exact absurd hopen (by decide)
    · exact hblank (hcq.subset (by decide))
  have hbrackets : (['<'].isPrefixOf s && ['>'].isSuffixOf s) = false := by
    rcases hends with h | h
    · rw [h,Bool.false_and]
    · rw [h,Bool.and_false]
  rw [isPlausibleCall,htoken,hbrackets,hcall]
  rfl

/-- A WSPR call with an add-on is not believed as long as its hash is unresolved. -/
theorem not_isPlausibleCall_unresolved {ds : Str} (hne : ds ≠ []) (hds : ∀ c ∈ ds, isAddOnChar c = true) :
    isPlausibleCall (ds ++ '/' :: UNRESOLVED_HASH) = false ∧
    isPlausibleCall (UNRESOLVED_HASH ++ '/' :: ds) = false := by
  obtain ⟨hslash,hblank,hopen,hclose⟩ := addOn_notMem hds
  have htrim := trimmed_addOn hds
  have hhash : Trimmed UNRESOLVED_HASH := by
    refine ⟨fun c hc => ?_,fun c hc => ?_⟩
    · obtain rfl : '<' = c := by simpa [UNRESOLVED_HASH] using hc
      rfl
    · obtain rfl : '>' = c := by simpa [UNRESOLVED_HASH] using hc
      rfl
  have hnil : UNRESOLVED_HASH ≠ [] := by decide
  have hslash' : '/' ∉ UNRESOLVED_HASH := by decide
  refine ⟨not_isPlausibleCall ?_ ?_ (.inl ?_) (not_isPlausibleCallsign (p := ds) ?_ ?_ (.inr rfl)),
    not_isPlausibleCall ?_ ?_ (.inr ?_) (not_isPlausibleCallsign (q := ds) ?_ ?_ (.inl rfl))⟩
  · simp [UNRESOLVED_HASH]
  · simpa [UNRESOLVED_HASH] using hblank
  · obtain ⟨c,rest,rfl⟩ := List.exists_cons_of_ne_nil hne
    have hc : c ≠ '<' := fun h => hopen (by simp [h])
    simpa [Bool.eq_false_iff] using hc.symm
  · have hstd := not_isStandardCallsign (u := ds ++ ['/']) (v := []) (by
      have h := htrim.append hhash hne hnil ['/']
      simpa using h)
    simpa using hstd
  · rw [List.splitOn_append_cons_self_of_not_mem hslash,List.splitOn_eq_singleton hslash']
  · simp [UNRESOLVED_HASH]
  · simpa [UNRESOLVED_HASH] using hblank
  · rw [Bool.eq_false_iff,ne_eq,List.isSuffixOf_iff_suffix]
    rintro ⟨t,ht⟩
    have hlast := congrArg List.getLast? ht
    have hcons : '/' :: ds ≠ [] := List.cons_ne_nil _ _
    rw [List.getLast?_append_of_ne_nil _ hcons,List.getLast?_append_of_ne_nil _ (by simp)] at hlast
    have hmem : '>' ∈ '/' :: ds := List.mem_of_getLast? hlast.symm
    simp [hclose] at hmem
  · have hstd := not_isStandardCallsign (u := []) (v := '/' :: ds) (by
      have h := hhash.append htrim hnil hne ['/']
      simpa using h)
    simpa using hstd
  · rw [List.splitOn_append_cons_self_of_not_mem hslash',List.splitOn_eq_singleton hslash]

end Wspr

section Payloads
variable {t t' : CallsignHashTable}

/-- What two tables make of one payload. -/
structure Related (t t' : CallsignHashTable) (f g : Wsjt77Fields) : Prop where
  agree : f.Agree g
  cq : cqFromHash f = cqFromHash g
  stays : Extends t t' → f.isPlausible = true → g.isPlausible = true

/-- A hash that a table knows is known to every extension of it under the same name. -/
theorem bracketed_extends {look look' : UInt32 → Option Str}
    (h : ∀ n call, look n = some call → look' n = some call) (n : UInt32) :
    bracketed (look n) = bracketed (look' n) ∨ bracketed (look n) = UNRESOLVED_HASH := by
  cases hn : look n with
  | none => exact .inr rfl
  | some call => exact .inl (by rw [h n call hn])

theorem unpack28H_extends (h : Extends t t') (n28 : Nat) :
    unpack28H n28 t = unpack28H n28 t' ∨ unpack28H n28 t = UNRESOLVED_HASH := by
  unfold unpack28H
  split
  · exact bracketed_extends h.lookup22 _
  · exact .inl rfl

private theorem rel_map {α β : Type} {R : β → β → Prop} {f g : α → β} (o : Option α)
    (h : ∀ x, R (f x) (g x)) : Option.Rel R (o.map f) (o.map g) := by
  cases o with
  | none => exact .none
  | some x => exact .some (h x)

private theorem rel_bind {α β : Type} {R : α → α → Prop} {S : β → β → Prop} {f g : α → Option β}
    {o o' : Option α} (h : Option.Rel R o o') (hfg : ∀ x y, R x y → Option.Rel S (f x) (g y)) :
    Option.Rel S (o.bind f) (o'.bind g) := by
  cases h with
  | none => exact .none
  | some hxy => exact hfg _ _ hxy

/-- Messages whose two callsigns are judged field by field. -/
private theorem related_pair {f g : Wsjt77Fields} {a b a' b' : Str} (hagree : f.Agree g)
    (ha : SameField a a') (hb : SameField b b') (hf : f.callsigns = [a,b]) (hg : g.callsigns = [a',b'])
    (hf' : f.isPlausible = f.callsigns.all isPlausibleCall)
    (hg' : g.isPlausible = g.callsigns.all isPlausibleCall) : Related t t' f g := by
  refine ⟨hagree,?_,fun _ h => ?_⟩
  · simp only [cqFromHash,hf,hg,ha.isCq,hb.startsBracket]
  · rw [hg',hg]
    rw [hf',hf] at h
    simpa only [List.all_cons,ha.isPlausibleCall,hb.isPlausibleCall] using h

private theorem relDxPedition (msg : List UInt8) :
    Option.Rel (Related t t') (unpackDxPedition msg t) (unpackDxPedition msg t') := by
  unfold unpackDxPedition
  dsimp only
  split
  · exact .none
  · have ha := sameField_unpack28H (readBits msg 0 28) t t'
    have hb := sameField_unpack28H (readBits msg 28 28) t t'
    have hc := sameField_bracketed (t.lookup10 (UInt32.ofNat (readBits msg 56 10)))
      (t'.lookup10 (UInt32.ofNat (readBits msg 56 10)))
    refine .some ⟨.dxPedition _ ha.agree hb.agree hc.agree,?_,fun _ h => ?_⟩
    · simp only [cqFromHash,Wsjt77Fields.callsigns,ha.isCq,hb.startsBracket]
    · simpa only [Wsjt77Fields.isPlausible,Wsjt77Fields.callsigns,List.all_cons,ha.isPlausibleCall,
        hb.isPlausibleCall,hc.isPlausibleCall] using h

private theorem relFieldDay (msg : List UInt8) (n3 : Nat) :
    Option.Rel (Related t t') (unpackFieldDay msg t n3) (unpackFieldDay msg t' n3) := by
  unfold unpackFieldDay
  dsimp only
  split
  · exact .none
  · split
    · exact .none
    · have ha := sameField_unpack28H (readBits msg 0 28) t t'
      have hb := sameField_unpack28H (readBits msg 28 28) t t'
      exact .some (related_pair (.fieldDay _ _ _ _ ha.agree hb.agree) ha hb rfl rfl rfl rfl)

private theorem relStandard (msg : List UInt8) (i3 : Nat) :
    Option.Rel (Related t t') (unpackStandard msg t i3) (unpackStandard msg t' i3) := by
  have ha := sameField_unpack28H (readBits msg 0 28) t t'
  have hb := sameField_unpack28H (readBits msg 29 28) t t'
  have ha' := ha.push (p := fun c => bit msg 28 == 1 && !(['<'].isPrefixOf c) && !("CQ".toList.isPrefixOf c))
    (by rw [ha.startsBracket,ha.startsCq]) (fun h => by simp only [Bool.and_eq_true] at h; simpa using h.1.2)
    (if i3 = 1 then "/R".toList else "/P".toList)
  have hb' := hb.push (p := fun c => bit msg 57 == 1 && !(['<'].isPrefixOf c))
    (by rw [hb.startsBracket]) (fun h => by simp only [Bool.and_eq_true] at h; simpa using h.2)
    (if i3 = 1 then "/R".toList else "/P".toList)
  unfold unpackStandard
  dsimp only at ha' hb' ⊢
  rw [ha'.isCq]
  exact rel_map _ fun report =>
    related_pair (.standard _ ha'.agree hb'.agree) ha' hb' rfl rfl rfl rfl

private theorem relRttyRoundup (msg : List UInt8) :
    Option.Rel (Related t t') (unpackRttyRoundup msg t) (unpackRttyRoundup msg t') := by
  have ha := sameField_unpack28H (readBits msg 1 28) t t'
  have hb := sameField_unpack28H (readBits msg 29 28) t t'
  exact rel_map _ fun exch =>
    related_pair (.rttyRoundup _ _ _ _ ha.agree hb.agree) ha hb rfl rfl rfl rfl

private theorem relNonstandard (msg : List UInt8) :
    Option.Rel (Related t t') (unpackNonstandard msg t) (unpackNonstandard msg t') := by
  have hh := sameField_bracketed (t.lookup12 (UInt32.ofNat (readBits msg 0 12)))
    (t'.lookup12 (UInt32.ofNat (readBits msg 0 12)))
  unfold unpackNonstandard
  dsimp only
  split
  · exact .some (related_pair (.nonstandard _ (.same _) (.same _)) (.inl rfl) (.inl rfl) rfl rfl rfl rfl)
  · refine rel_map _ fun exchange => ?_
    split
    · exact related_pair (.nonstandard _ hh.agree (.same _)) hh (.inl rfl) rfl rfl rfl rfl
    · exact related_pair (.nonstandard _ (.same _) hh.agree) (.inl rfl) hh rfl rfl rfl rfl

/-- A hash shown as more than the placeholder is shown alike by every extension. -/
private theorem unresolved_of_extends {look look' : UInt32 → Option Str}
    (h : ∀ n call, look n = some call → look' n = some call) (n : UInt32)
    (hne : bracketed (look n) ≠ UNRESOLVED_HASH) : bracketed (look' n) ≠ UNRESOLVED_HASH := by
  rcases bracketed_extends h n with heq | heq
  · rwa [← heq]
  · exact absurd heq hne

private theorem relEuVhfContest (msg : List UInt8) :
    Option.Rel (Related t t') (unpackEuVhfContest msg t) (unpackEuVhfContest msg t') := by
  have ha := sameField_bracketed (t.lookup12 (UInt32.ofNat (readBits msg 0 12)))
    (t'.lookup12 (UInt32.ofNat (readBits msg 0 12)))
  have hb := sameField_bracketed (t.lookup22 (UInt32.ofNat (readBits msg 12 22)))
    (t'.lookup22 (UInt32.ofNat (readBits msg 12 22)))
  refine rel_map _ fun grid => ⟨.euVhfContest _ _ _ ha.agree hb.agree,?_,fun hext h => ?_⟩
  · simp only [cqFromHash,Wsjt77Fields.callsigns,resolveHash12,resolveHash22,ha.isCq,hb.startsBracket]
  · simp only [Wsjt77Fields.isPlausible,Bool.or_eq_true,bne_iff_ne] at h ⊢
    rcases h with h | h
    · exact .inl (unresolved_of_extends hext.lookup12 _ h)
    · exact .inr (unresolved_of_extends hext.lookup22 _ h)

private theorem related_wspr {a a' : Str} (tail : Str) (hagree : AgreeOutside a a')
    (h : Extends t t' → isPlausibleCall a = true → isPlausibleCall a' = true) :
    Related t t' (.Wspr a tail) (.Wspr a' tail) := by
  refine ⟨.wspr _ hagree,rfl,fun hext hf => ?_⟩
  simp only [Wsjt77Fields.isPlausible,Wsjt77Fields.callsigns,List.all_cons,List.all_nil,Bool.and_true]
    at hf ⊢
  exact h hext hf

/-- A call and its add-on: the hash inside is the only thing that differs, and a message whose
hash is unknown was not plausible to begin with. -/
private theorem relComposed (n28 npfx : Nat) : Option.Rel
    (fun a a' => AgreeOutside a a' ∧
      (Extends t t' → isPlausibleCall a = true → isPlausibleCall a' = true))
    (wsprPrefixSuffix npfx (unpack28H n28 t)) (wsprPrefixSuffix npfx (unpack28H n28 t')) := by
  rcases wsprPrefixSuffix_cases npfx with hnone | ⟨ds,hne,hds,hside⟩
  · rw [hnone,hnone]
    exact .none
  · obtain ⟨-,-,hopen,hclose⟩ := addOn_notMem hds
    obtain ⟨hpre,hsuf⟩ := not_isPlausibleCall_unresolved hne hds
    rcases hside with hside | hside
    · rw [hside,hside]
      refine .some ⟨?_,fun hext h => ?_⟩
      · rcases sameField_unpack28H n28 t t' with heq | ⟨x,y,hx,hy⟩
        · rw [heq]
          exact .same _
        · rw [hx,hy]
          have hagree := AgreeOutside.hash (ds ++ ['/']) x y [] (by simpa using hopen) List.not_mem_nil
          simpa using hagree
      · rcases unpack28H_extends hext n28 with heq | heq
        · rwa [← heq]
        · rw [heq,hpre] at h
          exact absurd h (by simp)
    · rw [hside,hside]
      refine .some ⟨?_,fun hext h => ?_⟩
      · rcases sameField_unpack28H n28 t t' with heq | ⟨x,y,hx,hy⟩
        · rw [heq]
          exact .same _
        · rw [hx,hy]
          have hagree := AgreeOutside.hash [] x y ('/' :: ds) List.not_mem_nil (by simpa using hclose)
          simpa using hagree
      · rcases unpack28H_extends hext n28 with heq | heq
        · rwa [← heq]
        · rw [heq,hsuf] at h
          exact absurd h (by simp)

private theorem relWspr (msg : List UInt8) :
    Option.Rel (Related t t') (unpackWspr msg t) (unpackWspr msg t') := by
  have hcall : ∀ n28 tail, Related t t' (.Wspr (unpack28H n28 t) tail) (.Wspr (unpack28H n28 t') tail) := by
    intro n28 tail
    have h := sameField_unpack28H n28 t t'
    exact related_wspr tail h.agree fun _ hp => h.isPlausibleCall ▸ hp
  unfold unpackWspr
  dsimp only
  split
  · cases wsprDbm (readBits msg 44 5) with
    | none => exact .none
    | some idbm =>
      simp only [Option.bind_some,Option.map_eq_bind]
      exact rel_bind (relComposed (readBits msg 0 28) (readBits msg 28 16)) fun a a' h =>
        .some (related_wspr _ h.1 h.2)
  · split
    · cases wsprDbm (readBits msg 43 5) with
      | none => exact .none
      | some idbm => exact rel_map _ fun grid => hcall _ _
    · split
      · exact rel_map _ fun grid => hcall _ _
      · exact .none

private theorem related_refl {f : Wsjt77Fields} (h : f.Agree f) : Related t t' f f := ⟨h,rfl,fun _ hf => hf⟩

private theorem relDispatch (msg : List UInt8) (i3 n3 : Nat) :
    Option.Rel (Related t t') (unpack77Dispatch msg t i3 n3) (unpack77Dispatch msg t' i3 n3) := by
  unfold unpack77Dispatch
  split
  · split
    · dsimp only
      split
      · exact .none
      · exact .some (related_refl (.freeText _))
    · exact relDxPedition msg
    · exact .some (related_refl (.telemetry _))
    · exact relWspr msg
    · exact relFieldDay msg _
    · exact relFieldDay msg _
    · exact .none
  · exact relStandard msg _
  · exact relStandard msg _
  · exact relRttyRoundup msg
  · exact relEuVhfContest msg
  · exact relNonstandard msg
  · exact .none

private theorem relFields (msg : List UInt8) :
    Option.Rel (Related t t') (unpack77Fields msg t) (unpack77Fields msg t') := by
  refine rel_bind (relDispatch msg (readBits msg 74 3) (readBits msg 71 3)) fun f g h => ?_
  rw [h.cq]
  split
  · exact .none
  · exact .some h

/-- Every table accepts the payloads the empty one accepts. -/
theorem isSome_unpack77WithHash (msg : List UInt8) (t t' : CallsignHashTable) :
    (unpack77WithHash msg t).isSome = (unpack77WithHash msg t').isSome := by
  have hrel : Option.Rel (Related t t') _ _ := relFields msg
  unfold unpack77WithHash
  rw [Option.isSome_map,Option.isSome_map]
  generalize unpack77Fields msg t = f at hrel ⊢
  generalize unpack77Fields msg t' = g at hrel ⊢
  cases hrel with
  | none => rfl
  | some _ => rfl

/-- What has been learned decides neither acceptance nor type, shows only between brackets, and
never makes a plausible payload implausible. -/
theorem unpack77Fields_table (msg : List UInt8) (t t' : CallsignHashTable) :
    Option.Rel Wsjt77Fields.Agree (unpack77Fields msg t) (unpack77Fields msg t') ∧
    (Extends t t' → isPlausiblePayloadWithHash msg t = true → isPlausiblePayloadWithHash msg t' = true) := by
  have hrel : Option.Rel (Related t t') _ _ := relFields msg
  unfold isPlausiblePayloadWithHash
  generalize unpack77Fields msg t = f at hrel ⊢
  generalize unpack77Fields msg t' = g at hrel ⊢
  cases hrel with
  | none => exact ⟨.none,fun _ h => h⟩
  | some h => exact ⟨.some h.agree,fun hext hf => by simpa using h.stays hext (by simpa using hf)⟩

end Payloads

end MfskCore.Msg
