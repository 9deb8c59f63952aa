import MfskCore.Library.Checked
import MfskCore.Msg.Callsign
import MfskCore.Msg.HashTableRuns

/-! The callsign table and the standard-callsign test with the checks that end in a panic:
indexing, slicing, rotating and unsigned subtraction. `none` is the panic; no table that inserts
and clears can build runs into one. -/
namespace MfskCore.Msg
open Rust Library

/-- `call[..call.len() - 2]` behind a two-byte suffix. -/
def checkedStripRp (call : Str) : Option Str :=
  if "/R".toList.isSuffixOf call || "/P".toList.isSuffixOf call then do
    let _ ← checkedSub (byteLen call) 2
    pure (call.take (call.length - 2))
  else some call

def checkedBaseCall (call : Str) : Option Str :=
  let call := trim call
  let call := (stripPrefix ['<'] call).getD call
  let call := (stripSuffix ['>'] call).getD call
  checkedStripRp call

def checkedIhashcall (call : Str) (m : Nat) : Option UInt32 := do
  let bytes := asBytes (call.map Char.toUpper)
  let n64 ← (List.range 11).foldlM (fun (n64 : UInt64) i => do
    let c ← if i < bytes.length then bytes[i]? else some 32
    pure (n64 * 38 + UInt64.ofNat ((c38.idxOf? c).getD 0))) 0
  let shift ← checkedSub 64 m
  pure ((n64 * hashMagic) >>> UInt64.ofNat shift).toUInt32

/-- `rotate_right(1)` of a prefix: the slice reaches no further than the array and is not empty. -/
def checkedRotatePrefix {α : Type} (k : Nat) (l : List α) : Option (List α) := do
  let front ← checkedTake k l
  if 1 ≤ front.length then some (rotatePrefix k l) else none

namespace Call13

def checkedFromStr (s : Str) : Option Call13 := do
  let n := min (asBytes s).length 13
  let _ ← checkedTake n (asBytes s)
  let _ ← checkedTake n (List.replicate 13 (0 : UInt8))
  pure (fromStr s)

def checkedAsStr (c : Call13) : Option Str := do
  let text ← checkedTake ((c.bytes.findIdx? (· == 0)).getD 13) c.bytes
  pure ((fromUtf8 text).getD [])

end Call13

namespace CallsignHashTable

def checkedInsert22 (t : CallsignHashTable) (n22 : UInt32) (entry : Call13) : Option CallsignHashTable :=
  match t.hash22, t.calls22 with
  | some hashes, some calls => do
    let known ← checkedTake t.n22 hashes
    match known.findIdx? (· == n22) with
    | some pos =>
      let calls ← checkedSet calls pos entry
      let hashes ← checkedRotatePrefix (pos + 1) hashes
      let calls ← checkedRotatePrefix (pos + 1) calls
      pure { t with hash22 := some hashes, calls22 := some calls }
    | none =>
      let live := if t.n22 < MAX_HASH22 then t.n22 + 1 else t.n22
      let hashes ← checkedRotatePrefix live hashes
      let calls ← checkedRotatePrefix live calls
      let hashes ← checkedSet hashes 0 n22
      let calls ← checkedSet calls 0 entry
      pure { t with hash22 := some hashes, calls22 := some calls, n22 := live }
  | _, _ => some t

def checkedInsert (t : CallsignHashTable) (call : Str) : Option CallsignHashTable := do
  let base ← checkedBaseCall call
  if skipsBase base then some t
  else do
    let n10 ← checkedIhashcall base 10
    let n12 ← checkedIhashcall base 12
    let n22 ← checkedIhashcall base 22
    let entry ← Call13.checkedFromStr base
    let t := t.allocate
    let t := { t with calls10 := setSlot t.calls10 n10 entry, calls12 := setSlot t.calls12 n12 entry }
    checkedInsert22 t n22 entry

/-- The outer option is the panic, the inner one the source's `None`. -/
def checkedLookupSlot (calls : Option (List Call13)) (n : UInt32) : Option (Option Str) :=
  match calls.bind fun t => t[n.toNat]? with
  | none => some none
  | some e => if e.isEmpty then some none else e.checkedAsStr.map some

def checkedLookup10 (t : CallsignHashTable) (n10 : UInt32) : Option (Option Str) := checkedLookupSlot t.calls10 n10

def checkedLookup12 (t : CallsignHashTable) (n12 : UInt32) : Option (Option Str) := checkedLookupSlot t.calls12 n12

def checkedLookup22 (t : CallsignHashTable) (n22 : UInt32) : Option (Option Str) :=
  match t.hash22 with
  | none => some none
  | some hashes => do
    let known ← checkedTake t.n22 hashes
    match known.findIdx? (· == n22), t.calls22 with
    | some pos, some calls =>
      let e ← calls[pos]?
      e.checkedAsStr.map some
    | _, _ => some none

end CallsignHashTable

def checkedSplitDigit (b : List UInt8) : List Nat → Option (Option Nat)
  | [] => some none
  | i :: is => do
    let x ← b[i]?
    if isDigitByte x then
      let rest ← checkedDrop (i + 1) b
      if rest.all isUpperByte then pure (some i) else checkedSplitDigit b is
    else checkedSplitDigit b is

def checkedIsStandardCallsign (call : Str) : Option Bool := do
  let base ← checkedStripRp (trim call)
  let b := asBytes base
  if b.isEmpty || b.length > 6 then pure false
  else
    match ← checkedSplitDigit b (List.range b.length).reverse with
    | none => pure false
    | some split =>
      let part1 ← checkedTake split b
      let part2 ← checkedDrop split b
      if part2.isEmpty then pure false
      else
        let first ← part2[0]?
        if !isDigitByte first then pure false
        else if part2.length > 4 then pure false
        else
          let rest ← checkedDrop 1 part2
          if !rest.all isUpperByte then pure false else pure (standardPrefix part1)

section Texts

theorem checkedStripRp_eq (call : Str) : checkedStripRp call = some (stripRp call) := by
  rw [checkedStripRp,stripRp]
  split
  · rename_i h
    have hlen : 2 ≤ call.length := by
      rcases Bool.or_eq_true_iff.1 h with h | h
      · exact (List.isSuffixOf_iff_suffix.1 h).length_le
      · exact (List.isSuffixOf_iff_suffix.1 h).length_le
    rw [checkedSub_eq (hlen.trans (length_le_byteLen call))]
    rfl
  · rfl

theorem checkedBaseCall_eq (call : Str) : checkedBaseCall call = some (baseCall call) := checkedStripRp_eq _

theorem checkedIhashcall_eq (call : Str) {m : Nat} (hm : m ≤ 64) :
    checkedIhashcall call m = some (ihashcall call m) := by
  have hloop := (foldlM_eq_some (l := List.range 11) (b := (0 : UInt64)) (f := fun n64 i => do
      let c ← if i < (asBytes (call.map Char.toUpper)).length then (asBytes (call.map Char.toUpper))[i]? else some 32
      pure (n64 * 38 + UInt64.ofNat ((c38.idxOf? c).getD 0)))
    (g := fun n64 i =>
      n64 * 38 + UInt64.ofNat ((c38.idxOf? ((asBytes (call.map Char.toUpper)).getD i 32)).getD 0))
    (fun _ => True) (fun i _ n64 _ => ⟨?_,trivial⟩) trivial).1
  · rw [checkedIhashcall,hloop]
    simp only [Option.bind_eq_bind,Option.bind_some,checkedSub_eq hm]
    rfl
  · by_cases hi : i < (asBytes (call.map Char.toUpper)).length
    · rw [if_pos hi,getElem?_eq_some_getD hi 32]
      rfl
    · rw [if_neg hi,List.getD_eq_default _ _ (Nat.le_of_not_lt hi)]
      rfl

theorem Call13.checkedFromStr_eq (s : Str) : Call13.checkedFromStr s = some (Call13.fromStr s) := by
  rw [checkedFromStr]
  simp only [checkedTake_eq (Nat.min_le_left _ _),checkedTake_eq (l := List.replicate 13 (0 : UInt8))
    ((Nat.min_le_right (asBytes s).length 13).trans (by rw [List.length_replicate])),Option.bind_eq_bind,Option.bind_some]
  rfl

theorem Call13.checkedAsStr_eq (c : Call13) : c.checkedAsStr = some c.asStr := by
  have hend : (c.bytes.findIdx? (· == 0)).getD 13 ≤ c.bytes.length := by
    cases h : c.bytes.findIdx? (· == 0) with
    | none => exact c.size.ge
    | some n => exact (List.findIdx?_eq_some_iff_getElem.1 h).choose.le
  rw [checkedAsStr,checkedTake_eq hend]
  rfl

theorem checkedSplitDigit_eq (b : List UInt8) (is : List Nat) (h : ∀ i ∈ is, i < b.length) :
    checkedSplitDigit b is =
      some (is.find? fun i => isDigitByte (b.getD i 0) && (b.drop (i + 1)).all isUpperByte) := by
  induction is with
  | nil => rfl
  | cons i is ih =>
    have hi := h i List.mem_cons_self
    have hrest := ih fun j hj => h j (List.mem_cons_of_mem i hj)
    rw [checkedSplitDigit,getElem?_eq_some_getD hi 0,checkedDrop_eq hi,hrest,List.find?_cons]
    simp only [Option.bind_eq_bind,Option.bind_some,Option.pure_def]
    cases isDigitByte (b.getD i 0) with
    | false => rfl
    | true =>
      cases (b.drop (i + 1)).all isUpperByte with
      | false => rfl
      | true => rfl

theorem checkedIsStandardCallsign_eq (call : Str) :
    checkedIsStandardCallsign call = some (isStandardCallsign call) := by
  have hsplit := checkedSplitDigit_eq (asBytes (stripRp (trim call)))
    (List.range (asBytes (stripRp (trim call))).length).reverse fun i hi => List.mem_range.1 (List.mem_reverse.1 hi)
  rw [checkedIsStandardCallsign,checkedStripRp_eq,isStandardCallsign]
  simp only [Option.bind_eq_bind,Option.bind_some,Option.pure_def]
  generalize asBytes (stripRp (trim call)) = b at hsplit ⊢
  by_cases hlen : (b.isEmpty || b.length > 6) = true
  · rw [if_pos hlen,if_pos hlen]
  rw [if_neg hlen,if_neg hlen,hsplit,Option.bind_some,← splitDigit]
  cases hs : splitDigit b with
  | none => rfl
  | some split =>
    have hle : split ≤ b.length := by
      have hmem := List.mem_of_find?_eq_some hs
      exact (List.mem_range.1 (List.mem_reverse.1 hmem)).le
    simp only [checkedTake_eq hle,checkedDrop_eq hle,Option.bind_some]
    cases hpart : b.drop split with
    | nil => rfl
    | cons first rest =>
      simp only [List.isEmpty_cons,Bool.false_eq_true,if_false,List.getElem?_cons_zero,Option.bind_some,Bool.false_or,
        List.getD_cons_zero,checkedDrop_eq (by simp : 1 ≤ (first :: rest).length),
        List.drop_one,List.tail_cons]
      split
      · rfl
      · split
        · rfl
        · exact (apply_ite some _ _ _).symm

end Texts

namespace CallsignHashTable
variable {t : CallsignHashTable} {hist : List Str}

theorem checkedLookupSlot_eq (calls : Option (List Call13)) (n : UInt32) :
    checkedLookupSlot calls n = some (lookupSlot calls n) := by
  cases calls with
  | none => rfl
  | some t =>
    rw [checkedLookupSlot,lookupSlot,Option.bind_some,Option.bind_some]
    cases t[n.toNat]? with
    | none => rfl
    | some e =>
      simp only [Call13.checkedAsStr_eq,Option.bind_some]
      exact (apply_ite some _ _ _).symm

theorem checkedLookup22_eq (h : t.Holds hist) (n : UInt32) : t.checkedLookup22 n = some (t.lookup22 n) := by
  rcases h with ⟨rfl,rfl⟩ | ⟨calls22,hash22,n22,h,rfl⟩
  · rfl
  · have hcount : n22 ≤ MAX_HASH22 := h.count ▸ newest_length MAX_HASH22 hist
    have hlen : n22 ≤ hash22.length := hcount.trans h.size_hash.ge
    rw [checkedLookup22,lookup22]
    simp only [checkedTake_eq hlen,Option.bind_eq_bind,Option.bind_some]
    cases hpos : (hash22.take n22).findIdx? (· == n) with
    | none => rfl
    | some pos =>
      have hlive := (List.findIdx?_eq_some_iff_getElem.1 hpos).choose
      rw [List.length_take] at hlive
      have hin : pos < calls22.length := by
        rw [h.size_calls]
        omega
      simp only [List.getElem?_eq_getElem hin,Option.bind_some,Option.map_some,Call13.checkedAsStr_eq]

private theorem checkedRotatePrefix_eq {α : Type} {k : Nat} {l : List α} (h1 : 1 ≤ k) (hk : k ≤ l.length) :
    checkedRotatePrefix k l = some (rotatePrefix k l) := by
  rw [checkedRotatePrefix,checkedTake_eq hk]
  refine if_pos ?_
  rwa [List.length_take,Nat.min_eq_left hk]

private theorem checkedInsert22_eq {calls22 : List Call13} {hash22 : List UInt32} {n22 : Nat}
    (calls10 calls12 : Option (List Call13)) (h : LruHolds calls22 hash22 n22 hist) (n : UInt32) (entry : Call13) :
    checkedInsert22 ⟨calls10,calls12,some calls22,some hash22,n22⟩ n entry =
      some (insert22 ⟨calls10,calls12,some calls22,some hash22,n22⟩ n entry) := by
  have hcount : n22 ≤ MAX_HASH22 := h.count ▸ newest_length MAX_HASH22 hist
  have hhash := h.size_hash
  have hcalls := h.size_calls
  have hmax : MAX_HASH22 = 1000 := rfl
  rw [checkedInsert22,insert22]
  simp only [checkedTake_eq (hcount.trans hhash.ge),Option.bind_eq_bind,Option.bind_some,Option.pure_def]
  cases hpos : (hash22.take n22).findIdx? (· == n) with
  | some pos =>
    have hlive := (List.findIdx?_eq_some_iff_getElem.1 hpos).choose
    rw [List.length_take] at hlive
    have hlen : (calls22.set pos entry).length = calls22.length := List.length_set
    simp only [checkedSet_eq (by omega : pos < calls22.length),Option.bind_some,
      checkedRotatePrefix_eq (Nat.succ_pos pos) (by omega : pos + 1 ≤ hash22.length),
      checkedRotatePrefix_eq (Nat.succ_pos pos) (by omega : pos + 1 ≤ (calls22.set pos entry).length)]
  | none =>
    have hlive : 1 ≤ (if n22 < MAX_HASH22 then n22 + 1 else n22) ∧
        (if n22 < MAX_HASH22 then n22 + 1 else n22) ≤ MAX_HASH22 := by
      split <;> omega
    generalize (if n22 < MAX_HASH22 then n22 + 1 else n22) = live at hlive ⊢
    have hrot := length_rotatePrefix live hash22
    have hrot' := length_rotatePrefix live calls22
    simp only [checkedRotatePrefix_eq hlive.1 (by omega : live ≤ hash22.length),
      checkedRotatePrefix_eq hlive.1 (by omega : live ≤ calls22.length),Option.bind_some,
      checkedSet_eq (by omega : 0 < (rotatePrefix live hash22).length),
      checkedSet_eq (by omega : 0 < (rotatePrefix live calls22).length)]

theorem checkedInsert_eq (h : t.Holds hist) (call : Str) : t.checkedInsert call = some (t.insert call) := by
  obtain ⟨calls22,hash22,n22,hl,ht⟩ := allocate_holds h
  rw [checkedInsert,checkedBaseCall_eq,insert]
  simp only [Option.bind_eq_bind,Option.bind_some,checkedIhashcall_eq _ (by decide : 10 ≤ 64),
    checkedIhashcall_eq _ (by decide : 12 ≤ 64),checkedIhashcall_eq _ (by decide : 22 ≤ 64),Call13.checkedFromStr_eq,ht]
  split
  · rfl
  · exact checkedInsert22_eq _ _ hl _ _

end CallsignHashTable
end MfskCore.Msg
