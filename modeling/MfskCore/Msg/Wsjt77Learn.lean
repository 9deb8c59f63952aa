import Mathlib.Data.Bool.AllAny
import MfskCore.Msg.AlphabetDigits
import MfskCore.Msg.Callsign
import MfskCore.Msg.HashTableRuns
import MfskCore.Msg.TableIndependence
import MfskCore.Msg.Wsjt77RoundTrip

/-! Learning callsigns from decoded messages (`unpack77_learn` and `register_callsigns` of
`msg/wsjt77.rs`). Resolving comes first and registering second, by a second walk over the bit
layout that does not ask whether the first one accepted the message. -/
namespace MfskCore.Msg
open Rust Library

/-- A 28-bit field is learned when it spells out a standard callsign. -/
def learnStd (n28 : Nat) (ht : CallsignHashTable) : CallsignHashTable :=
  let call := unpack28 n28
  if isStandardCallsign call then ht.insert call else ht

/-- The nonstandard call of a type-4 message, learned as the table takes it. -/
def learnNonstd (msg : List UInt8) (ht : CallsignHashTable) : CallsignHashTable :=
  match fromUtf8 (fillDigits C38 38 11 (readBits msg 12 58)) with
  | some s =>
    let call := trim s
    if byteLen call ≥ 2 then ht.insert call else ht
  | none => ht

def registerCallsigns (msg : List UInt8) (ht : CallsignHashTable) : CallsignHashTable :=
  if msg.length ≠ 77 then ht
  else
    let n3 := readBits msg 71 3
    let i3 := readBits msg 74 3
    match i3 with
    | 0 =>
      match n3 with
      | 1 | 3 | 4 => learnStd (readBits msg 28 28) (learnStd (readBits msg 0 28) ht)
      | _ => ht
    | 1 | 2 => learnStd (readBits msg 29 28) (learnStd (readBits msg 0 28) ht)
    | 3 => learnStd (readBits msg 29 28) (learnStd (readBits msg 1 28) ht)
    | 4 => learnNonstd msg ht
    | _ => ht

/-- The text of a message, and the table after it. -/
def unpack77Learn (msg : List UInt8) (ht : CallsignHashTable) : Option Str × CallsignHashTable :=
  let text := unpack77WithHash msg ht
  (text,registerCallsigns msg ht)

section Taught

/-- A 28-bit field that spells out a standard callsign. -/
def stdField (n28 : Nat) : List Str := if isStandardCallsign (unpack28 n28) then [unpack28 n28] else []

/-- The nonstandard call of a type-4 message. -/
def nonstdField (msg : List UInt8) : List Str :=
  let call := trim ((fromUtf8 (fillDigits C38 38 11 (readBits msg 12 58))).getD [])
  if byteLen call ≥ 2 then [call] else []

/-- The texts a payload hands to the table, in order. -/
def callFields (msg : List UInt8) : List Str :=
  match readBits msg 74 3, readBits msg 71 3 with
  | 0, 1 | 0, 3 | 0, 4 => stdField (readBits msg 0 28) ++ stdField (readBits msg 28 28)
  | 1, _ | 2, _ => stdField (readBits msg 0 28) ++ stdField (readBits msg 29 28)
  | 3, _ => stdField (readBits msg 1 28) ++ stdField (readBits msg 29 28)
  | 4, _ => nonstdField msg
  | _, _ => []

/-- The texts a payload teaches, newest first. -/
def taught (msg : List UInt8) : List Str :=
  (((callFields msg).map baseCall).filter fun base => !skipsBase base).reverse

variable (msg : List UInt8) (ht : CallsignHashTable)

private theorem learnStd_eq (n28 : Nat) :
    learnStd n28 ht = (stdField n28).foldl CallsignHashTable.insert ht := by
  rw [learnStd,stdField]
  split
  · rfl
  · rfl

private theorem learnNonstd_eq : learnNonstd msg ht = (nonstdField msg).foldl CallsignHashTable.insert ht := by
  rw [learnNonstd,nonstdField]
  cases fromUtf8 (fillDigits C38 38 11 (readBits msg 12 58)) with
  | none => rfl
  | some s =>
    dsimp only [Option.getD_some]
    split
    · rfl
    · rfl

/-- Registering is inserting the call fields one after another. -/
theorem registerCallsigns_eq (hlen : msg.length = 77) :
    registerCallsigns msg ht = (callFields msg).foldl CallsignHashTable.insert ht := by
  rw [registerCallsigns,if_neg (not_not.2 hlen),callFields]
  dsimp only
  generalize readBits msg 74 3 = i3
  generalize readBits msg 71 3 = n3
  rcases i3 with _ | _ | _ | _ | _ | i3
  · rcases n3 with _ | _ | _ | _ | _ | n3
    · rfl
    · simp only [List.foldl_append,learnStd_eq]
    · rfl
    · simp only [List.foldl_append,learnStd_eq]
    · simp only [List.foldl_append,learnStd_eq]
    · rfl
  · simp only [List.foldl_append,learnStd_eq]
  · simp only [List.foldl_append,learnStd_eq]
  · simp only [List.foldl_append,learnStd_eq]
  · exact learnNonstd_eq msg ht
  · rfl

private theorem run_inserts (calls : List Str) : calls.foldl CallsignHashTable.insert ht =
    run CallsignHashTable.apply ht (calls.map .insert) := by
  induction calls generalizing ht with
  | nil => rfl
  | cons call calls ih => exact ih (ht.insert call)

private theorem learn_inserts (hist : List Str) (calls : List Str) :
    run learn hist (calls.map .insert) =
      ((calls.map baseCall).filter fun base => !skipsBase base).reverse ++ hist := by
  induction calls generalizing hist with
  | nil => rfl
  | cons call calls ih =>
    rw [List.map_cons,run_cons,ih,learn,List.map_cons]
    by_cases h : skipsBase (baseCall call)
    · simp [h]
    · simp [h]

/-- After a payload the table holds what the payload teaches on top of what it held. -/
theorem registerCallsigns_holds {hist : List Str} (hlen : msg.length = 77) (h : ht.Holds hist) :
    (registerCallsigns msg ht).Holds (taught msg ++ hist) := by
  rw [registerCallsigns_eq msg ht hlen,run_inserts]
  have hrun := CallsignHashTable.run_holds ((callFields msg).map .insert) h
  rwa [learn_inserts] at hrun

private theorem mem_stdField {n28 : Nat} {call : Str} (h : call ∈ stdField n28) :
    isStandardCallsign call = true := by
  rw [stdField] at h
  split at h
  · rename_i hstd
    rwa [List.mem_singleton.1 h]
  · exact absurd h List.not_mem_nil

private theorem stdField_length (n28 : Nat) : (stdField n28).length ≤ 1 := by
  rw [stdField]
  split
  · exact le_rfl
  · exact Nat.zero_le _

/-- A payload has two standard fields at most, or the one nonstandard field. -/
private theorem callFields_cases : (∃ a b, callFields msg = stdField a ++ stdField b) ∨
    callFields msg = nonstdField msg ∨ callFields msg = [] := by
  unfold callFields
  split
  · exact .inl ⟨_,_,rfl⟩
  · exact .inl ⟨_,_,rfl⟩
  · exact .inl ⟨_,_,rfl⟩
  · exact .inl ⟨_,_,rfl⟩
  · exact .inl ⟨_,_,rfl⟩
  · exact .inl ⟨_,_,rfl⟩
  · exact .inr (.inl rfl)
  · exact .inr (.inr rfl)

theorem taught_length : (taught msg).length ≤ 2 := by
  have hfields : (callFields msg).length ≤ 2 := by
    rcases callFields_cases msg with ⟨a,b,h⟩ | h | h
    · rw [h,List.length_append]
      exact Nat.add_le_add (stdField_length a) (stdField_length b)
    · rw [h,nonstdField]
      split
      · exact Nat.le_succ 1
      · exact Nat.zero_le _
    · rw [h]
      exact Nat.zero_le _
  calc (taught msg).length ≤ ((callFields msg).map baseCall).length := by
        rw [taught,List.length_reverse]
        exact List.length_filter_le _ _
    _ ≤ 2 := by rwa [List.length_map]

theorem plain_of_mem_C38 : ∀ b ∈ C38, b < 128 ∧ 0 < (asChar b).toNat ∧ (asChar b).toNat < 128 :=
  List.all_iff_forall_prop.1 (by decide)

theorem fromUtf8_fillDigits (k n : Nat) :
    fromUtf8 (fillDigits C38 38 k n) = some ((fillDigits C38 38 k n).map asChar) :=
  fromUtf8_ascii fun b hb => (plain_of_mem_C38 b (fillDigits_subset rfl (by decide) k n hb)).1

private theorem plain_upper_digit {b : UInt8} (h : isUpperByte b = true ∨ isDigitByte b = true) :
    0 < b.toNat ∧ b.toNat < 128 := by
  simp only [isUpperByte,isDigitByte,Bool.and_eq_true,decide_eq_true_eq,UInt8.le_iff_toNat_le,
    UInt8.reduceToNat] at h
  omega

private theorem stripRp_append (s : Str) : ∃ u ⊆ "/RP".toList, stripRp s ++ u = s := by
  have hcut : ∀ u : Str, u.length = 2 → u.isSuffixOf s → s.take (s.length - 2) ++ u = s := by
    intro u hu h
    obtain ⟨t,rfl⟩ := List.isSuffixOf_iff_suffix.1 h
    simp [hu]
  rw [stripRp]
  split
  · rename_i h
    rcases Bool.or_eq_true_iff.1 h with h | h
    · exact ⟨_,by decide,hcut _ rfl h⟩
    · exact ⟨_,by decide,hcut _ rfl h⟩
  · exact ⟨[],by decide,List.append_nil s⟩

private theorem standard_plain {call : Str} (h : isStandardCallsign call = true) :
    ∀ c ∈ trim call, 0 < c.toNat ∧ c.toNat < 128 := by
  have hbytes := fun b hb => plain_upper_digit (isStandardCallsign_bytes h b hb)
  have hascii := isAscii_of_asBytes fun b hb => UInt8.lt_iff_toNat_lt.2 (hbytes b hb).2
  obtain ⟨u,hu,heq⟩ := stripRp_append (trim call)
  intro c hc
  rw [← heq,List.mem_append] at hc
  rcases hc with hc | hc
  · have hlt : c.toNat < 128 := by simpa using List.all_eq_true.1 hascii c hc
    rw [asBytes_ascii hascii] at hbytes
    have hpos := (hbytes _ (List.mem_map_of_mem hc)).1
    rw [UInt8.toNat_ofNat',Nat.mod_eq_of_lt (by omega)] at hpos
    exact ⟨hpos,hlt⟩
  · have hall : ∀ c ∈ "/RP".toList, 0 < c.toNat ∧ c.toNat < 128 :=
      List.all_iff_forall_prop.1 rfl
    exact hall c (hu hc)

/-- The texts of the call fields are plain ASCII. -/
private theorem callFields_plain {call : Str} (h : call ∈ callFields msg) :
    ∀ c ∈ trim call, 0 < c.toNat ∧ c.toNat < 128 := by
  rcases callFields_cases msg with ⟨a,b,hf⟩ | hf | hf
  · rw [hf,List.mem_append] at h
    exact standard_plain (h.elim mem_stdField mem_stdField)
  · rw [hf,nonstdField,fromUtf8_fillDigits,Option.getD_some] at h
    split at h
    · rw [List.mem_singleton.1 h]
      intro c hc
      obtain ⟨b,hb,rfl⟩ := List.mem_map.1 (trim_subset _ (trim_subset _ hc))
      exact (plain_of_mem_C38 b (fillDigits_subset rfl (by decide) _ _ hb)).2
    · exact absurd h List.not_mem_nil
  · rw [hf] at h
    exact absurd h List.not_mem_nil

theorem taught_storable : ∀ b ∈ taught msg, CallsignHashTable.Storable b := by
  intro b hb
  obtain ⟨hbase,hskip⟩ := List.mem_filter.1 (List.mem_reverse.1 hb)
  obtain ⟨call,hcall,rfl⟩ := List.mem_map.1 hbase
  exact CallsignHashTable.storable_baseCall (callFields_plain msg hcall) (by simpa using hskip)

/-- A refused payload leaves every answer alone exactly when the table knew what the second walk
registers from it. -/
theorem refused_teaches_iff (ops : List TableOp) (hlen : msg.length = 77) :
    ((unpack77Learn msg (run CallsignHashTable.apply .new ops)).1 = none →
      CallsignHashTable.SameAnswers (run CallsignHashTable.apply .new ops)
        (unpack77Learn msg (run CallsignHashTable.apply .new ops)).2) ↔
    ((unpack77 msg).isSome = true ∨
      CallsignHashTable.Knows (run CallsignHashTable.apply .new ops) (taught msg)) := by
  have hholds := CallsignHashTable.run_holds ops (.inl ⟨rfl,rfl⟩)
  have hteach := CallsignHashTable.sameAnswers_iff hholds (registerCallsigns_holds msg _ hlen hholds)
    (taught_storable msg) ((taught_length msg).trans (by decide))
  rw [unpack77,isSome_unpack77WithHash msg .new (run CallsignHashTable.apply .new ops),unpack77Learn,hteach]
  cases unpack77WithHash msg (run CallsignHashTable.apply .new ops) with
  | none => simp
  | some text => simp

/-- A CQ with a report is refused on the empty table, which has learned the station from it. -/
theorem refused_cq_report_taught :
    ∃ bits, pack77 "CQ".toList "JA1ABC".toList "-12".toList = some bits ∧
      (unpack77Learn bits .new).1 = none ∧
      CallsignHashTable.new.lookup22 (ihashcall "JA1ABC".toList 22) = none ∧
      (unpack77Learn bits .new).2.lookup22 (ihashcall "JA1ABC".toList 22) = some "JA1ABC".toList := by
  refine ⟨(pack77 "CQ".toList "JA1ABC".toList "-12".toList).getD [],by decide,by decide,rfl,?_⟩
  decide

/-- The same payload teaches nothing to a table that has the station. -/
theorem refused_known_station :
    let t := run CallsignHashTable.apply .new [.insert "JA1ABC".toList]
    let bits := (pack77 "CQ".toList "JA1ABC".toList "-12".toList).getD []
    (unpack77Learn bits t).1 = none ∧ CallsignHashTable.SameAnswers t (unpack77Learn bits t).2 := by
  have hrefused : (unpack77Learn ((pack77 "CQ".toList "JA1ABC".toList "-12".toList).getD [])
      (run CallsignHashTable.apply .new [.insert "JA1ABC".toList])).1 = none := by decide
  refine ⟨hrefused,(refused_teaches_iff _ _ (by decide)).2 (.inr ?_) hrefused⟩
  unfold CallsignHashTable.Knows
  decide

end Taught

end MfskCore.Msg
