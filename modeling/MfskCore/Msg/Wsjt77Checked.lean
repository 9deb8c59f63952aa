import MfskCore.Msg.HashTableChecked
import MfskCore.Msg.Wsjt77Learn

/-! The unpacker and the learner of `msg/wsjt77.rs` with the checks that end in a panic: every
read of the payload and of a table against its length, every unsigned subtraction against zero,
every unsigned sum against its width, every character code against ASCII. `none` is the panic;
a result of the source's own type `Option` sits inside. -/
namespace MfskCore.Msg
open Rust Library

/-- A sum that must fit `w` bits. -/
def checkedWidth (w n : Nat) : Option Nat := if n < 2^w then some n else none

/-- `(base + j as u8) as char`. -/
def checkedChar (base : Char) (j : Nat) : Option Char :=
  let n := base.toNat + j % 256
  if n < 128 then some (Char.ofNat n) else none

/-- Alphabet bytes as characters. -/
def checkedText (bytes : List UInt8) : Option Str := bytes.mapM fun b => if b < 128 then some (asChar b) else none

def checkedBit (msg : List UInt8) (i : Nat) : Option Nat := do
  let b ← msg[i]?
  pure (b &&& 1).toNat

def checkedReadBits (msg : List UInt8) (start len : Nat) : Option Nat :=
  (List.range' start len).foldlM (fun n i => do
    let b ← checkedBit msg i
    pure (2 * n + b)) 0

def checkedFillDigits (alphabet : List UInt8) (base : Nat) : Nat → Nat → Option (List UInt8)
  | 0, _ => some []
  | count + 1, n => do
    let front ← checkedFillDigits alphabet base count (n / base)
    let c ← alphabet[n % base]?
    pure (front ++ [c])

def checkedDirectedCq (n : Nat) : Option Str :=
  let i1 := n / (27 * 27 * 27)
  let n := n % (27 * 27 * 27)
  let i2 := n / (27 * 27)
  let n := n % (27 * 27)
  let i3 := n / 27
  let i4 := n % 27
  if i1 ≥ C4.length || i2 ≥ C4.length || i3 ≥ C4.length || i4 ≥ C4.length then some "<?>".toList
  else do
    let b1 ← C4[i1]?
    let b2 ← C4[i2]?
    let b3 ← C4[i3]?
    let b4 ← C4[i4]?
    let suffix ← checkedText [b1,b2,b3,b4]
    pure ("CQ ".toList ++ trim suffix)

def checkedStandardCall (n : Nat) : Option Str :=
  let i1 := n / (36 * 10 * 27 * 27 * 27)
  let n := n % (36 * 10 * 27 * 27 * 27)
  let i2 := n / (10 * 27 * 27 * 27)
  let n := n % (10 * 27 * 27 * 27)
  let i3 := n / (27 * 27 * 27)
  let n := n % (27 * 27 * 27)
  let i4 := n / (27 * 27)
  let n := n % (27 * 27)
  let i5 := n / 27
  let i6 := n % 27
  if i1 ≥ C1.length || i2 ≥ C2.length || i3 ≥ C3.length || i4 ≥ C4.length || i5 ≥ C4.length ||
      i6 ≥ C4.length then some "?????".toList
  else do
    let b1 ← C1[i1]?
    let b2 ← C2[i2]?
    let b3 ← C3[i3]?
    let b4 ← C4[i4]?
    let b5 ← C4[i5]?
    let b6 ← C4[i6]?
    let s ← checkedText [b1,b2,b3,b4,b5,b6]
    pure (trim s)

def checkedUnpack28 (n28 : Nat) : Option Str :=
  if n28 < NTOKENS then
    if n28 = 0 then some "DE".toList
    else if n28 = 1 then some "QRZ".toList
    else if n28 = 2 then some "CQ".toList
    else if n28 ≤ 1002 then do
      let n ← checkedSub n28 3
      pure ("CQ ".toList ++ zeroPadded 3 n)
    else do
      let n ← checkedSub n28 1003
      checkedDirectedCq n
  else do
    let n ← checkedSub n28 NTOKENS
    if n < MAX22 then pure "<...>".toList
    else
      let n ← checkedSub n MAX22
      checkedStandardCall n

def checkedUnpack28H (n28 : Nat) (ht : CallsignHashTable) : Option Str :=
  if n28 ≥ NTOKENS then do
    let n ← checkedSub n28 NTOKENS
    if n < MAX22 then
      let call ← ht.checkedLookup22 (UInt32.ofNat n)
      pure (bracketed call)
    else checkedUnpack28 n28
  else checkedUnpack28 n28

def checkedResolveHash12 (n12 : Nat) (ht : CallsignHashTable) : Option Str := do
  let call ← ht.checkedLookup12 (UInt32.ofNat n12)
  pure (bracketed call)

def checkedResolveHash22 (n22 : Nat) (ht : CallsignHashTable) : Option Str := do
  let call ← ht.checkedLookup22 (UInt32.ofNat n22)
  pure (bracketed call)

def checkedWsprDbm (raw : Nat) : Option (Option Nat) := do
  let sum ← checkedWidth 32 (20 * raw + 3)
  pure (if sum / 6 > 60 then none else some (sum / 6))

def checkedFillPrefix : Nat → Nat → List UInt8 → Option (List UInt8)
  | 0, _, cpfx => some cpfx
  | i + 1, n, cpfx => do
    let c ← C2[n % 36]?
    let cpfx ← checkedSet cpfx i c
    if n / 36 = 0 then pure cpfx else checkedFillPrefix i (n / 36) cpfx

/-- The suffix bytes, or the source's `None`. -/
def checkedWsprSuffix (n : Nat) : Option (Option (List UInt8)) :=
  if n ≤ 35 then do
    let b0 ← C2[n]?
    pure (some [b0])
  else if n ≤ 1295 then do
    let b0 ← C2[n / 36]?
    let b1 ← C2[n % 36]?
    pure (some [b0,b1])
  else if n ≤ 12959 then do
    let b0 ← C2[n / 360]?
    let b1 ← C2[n / 10 % 36]?
    let b2 ← C2[n % 10]?
    pure (some [b0,b1,b2])
  else some none

def checkedWsprPrefixSuffix (npfx : Nat) (call : Str) : Option (Option Str) :=
  let nzzz := 46656
  if npfx < nzzz then do
    let cpfx ← checkedFillPrefix 3 npfx (List.replicate 3 32)
    pure ((fromUtf8 cpfx).map fun pfx => trim pfx ++ '/' :: call)
  else do
    let n ← checkedSub npfx nzzz
    let sfx ← checkedWsprSuffix n
    pure (sfx.bind fun sfx => (fromUtf8 sfx).map fun sfx => call ++ '/' :: sfx)

def checkedToGrid (n : Nat) : Option (Option Str) :=
  let j1 := n / (18 * 10 * 10 * 25 * 25)
  if j1 > 17 then some none else do
  let n ← checkedSub n (j1 * (18 * 10 * 10 * 25 * 25))
  let j2 := n / (10 * 10 * 25 * 25)
  if j2 > 17 then some none else do
  let n ← checkedSub n (j2 * (10 * 10 * 25 * 25))
  let j3 := n / (10 * 25 * 25)
  if j3 > 9 then some none else do
  let n ← checkedSub n (j3 * (10 * 25 * 25))
  let j4 := n / (25 * 25)
  if j4 > 9 then some none else do
  let n ← checkedSub n (j4 * (25 * 25))
  let j5 := n / 25
  let j6 ← checkedSub n (j5 * 25)
  if j5 > 24 || j6 > 24 then pure none
  else
    let c1 ← checkedChar 'A' j1
    let c2 ← checkedChar 'A' j2
    let c3 ← checkedChar '0' j3
    let c4 ← checkedChar '0' j4
    let g := [c1,c2,c3,c4]
    if j5 ≠ 24 ∨ j6 ≠ 24 then
      let c5 ← checkedChar 'A' j5
      let c6 ← checkedChar 'A' j6
      pure (some (g ++ [c5,c6]))
    else pure (some g)

def checkedToGrid6 (n : Nat) : Option (Option Str) :=
  let j1 := n / (18 * 10 * 10 * 24 * 24)
  if j1 > 17 then some none else do
  let n ← checkedSub n (j1 * (18 * 10 * 10 * 24 * 24))
  let j2 := n / (10 * 10 * 24 * 24)
  if j2 > 17 then some none else do
  let n ← checkedSub n (j2 * (10 * 10 * 24 * 24))
  let j3 := n / (10 * 24 * 24)
  if j3 > 9 then some none else do
  let n ← checkedSub n (j3 * (10 * 24 * 24))
  let j4 := n / (24 * 24)
  if j4 > 9 then some none else do
  let n ← checkedSub n (j4 * (24 * 24))
  let j5 := n / 24
  let j6 ← checkedSub n (j5 * 24)
  if j5 > 23 || j6 > 23 then pure none
  else
    let c1 ← checkedChar 'A' j1
    let c2 ← checkedChar 'A' j2
    let c3 ← checkedChar '0' j3
    let c4 ← checkedChar '0' j4
    let c5 ← checkedChar 'A' j5
    let c6 ← checkedChar 'A' j6
    pure (some [c1,c2,c3,c4,c5,c6])

def checkedToGrid4 (n : Nat) : Option (Option Str) :=
  if n > MAX_GRID4 then some none else
  let j1 := n / (18 * 10 * 10)
  let n := n % (18 * 10 * 10)
  let j2 := n / (10 * 10)
  let n := n % (10 * 10)
  let j3 := n / 10
  let j4 := n % 10
  if j1 > 17 || j2 > 17 then some none
  else do
    let c1 ← checkedChar 'A' j1
    let c2 ← checkedChar 'A' j2
    let c3 ← checkedChar '0' j3
    let c4 ← checkedChar '0' j4
    pure (some [c1,c2,c3,c4])

def checkedUnpackFreeText (msg : List UInt8) : Option Str := do
  let n ← checkedReadBits msg 0 71
  let chars ← checkedFillDigits FREE_TEXT 42 13 n
  pure (trim ((fromUtf8 chars).getD []))

section Reads
variable {msg : List UInt8}

theorem checkedWidth_eq {w n : Nat} (h : n < 2^w) : checkedWidth w n = some n := if_pos h

theorem checkedLetter_eq {j : Nat} (h : j ≤ 25) : checkedChar 'A' j = some (letter j) := by
  rw [checkedChar,Nat.mod_eq_of_lt (by omega)]
  exact if_pos (by have hA : 'A'.toNat = 65 := rfl; omega)

theorem checkedDigit_eq {j : Nat} (h : j ≤ 9) : checkedChar '0' j = some (digit j) := by
  rw [checkedChar,Nat.mod_eq_of_lt (by omega)]
  exact if_pos (by have h0 : '0'.toNat = 48 := rfl; omega)

theorem checkedText_eq {bytes : List UInt8} (h : ∀ b ∈ bytes, b < 128) : checkedText bytes = some (alphabetText bytes) :=
  mapM_eq_some fun b hb => if_pos (h b hb)

theorem checkedBit_eq {i : Nat} (h : i < msg.length) : checkedBit msg i = some (bit msg i) := by
  rw [checkedBit,getElem?_eq_some_getD h 0]
  rfl

theorem checkedReadBits_eq {start len : Nat} (h : start + len ≤ msg.length) :
    checkedReadBits msg start len = some (readBits msg start len) := by
  refine (foldlM_eq_some (fun _ => True) (fun i hi n _ => ⟨?_,trivial⟩) trivial).1
  have hlast := (List.mem_range'_1.1 hi).2
  rw [checkedBit_eq (by omega : i < msg.length)]
  rfl

theorem bit_le (msg : List UInt8) (i : Nat) : bit msg i ≤ 1 := by
  rw [bit,UInt8.toNat_and]
  exact Nat.and_le_right

/-- A field of `len` bits. -/
theorem readBits_lt (msg : List UInt8) (start len : Nat) : readBits msg start len < 2^len := by
  induction len with
  | zero => exact Nat.one_pos
  | succ len ih =>
    have hbit := bit_le msg (start + 1 * len)
    rw [readBits,List.range'_concat,List.foldl_append,← readBits,List.foldl_cons,List.foldl_nil,Nat.pow_succ]
    omega

theorem checkedFillDigits_eq {alphabet : List UInt8} {base : Nat} (hbase : alphabet.length = base) (hpos : 0 < base)
    (count n : Nat) : checkedFillDigits alphabet base count n = some (fillDigits alphabet base count n) := by
  induction count generalizing n with
  | zero => rfl
  | succ count ih =>
    have hdigit : n % base < alphabet.length := (Nat.mod_lt n hpos).trans_eq hbase.symm
    rw [checkedFillDigits,ih,getElem?_eq_some_getD hdigit 32]
    rfl

end Reads

section Calls

private theorem ascii_getD {alphabet : List UInt8} (h : ∀ b ∈ alphabet, b < 128) (i : Nat) :
    alphabet.getD i 0 < 128 := by
  by_cases hi : i < alphabet.length
  · rw [List.getD_eq_getElem _ 0 hi]
    exact h _ (List.getElem_mem hi)
  · rw [List.getD_eq_default _ 0 (Nat.le_of_not_lt hi)]
    decide

private theorem ascii_C1 : ∀ b ∈ C1, b < 128 := List.all_iff_forall_prop.1 (by decide)
private theorem ascii_C2 : ∀ b ∈ C2, b < 128 := List.all_iff_forall_prop.1 (by decide)
private theorem ascii_C3 : ∀ b ∈ C3, b < 128 := List.all_iff_forall_prop.1 (by decide)
private theorem ascii_C4 : ∀ b ∈ C4, b < 128 := List.all_iff_forall_prop.1 (by decide)

theorem checkedDirectedCq_eq (n : Nat) : checkedDirectedCq n = some (directedCq n) := by
  rw [checkedDirectedCq,directedCq]
  split
  · rfl
  · rename_i hin
    simp only [Bool.or_eq_true,decide_eq_true_eq,not_or,ge_iff_le,Nat.not_le] at hin
    obtain ⟨⟨⟨h1,h2⟩,h3⟩,h4⟩ := hin
    rw [getElem?_eq_some_getD h1 0,getElem?_eq_some_getD h2 0,getElem?_eq_some_getD h3 0,getElem?_eq_some_getD h4 0]
    simp only [Option.bind_eq_bind,Option.bind_some]
    rw [checkedText_eq]
    · rfl
    · simp only [List.forall_mem_cons]
      exact ⟨ascii_getD ascii_C4 _,ascii_getD ascii_C4 _,ascii_getD ascii_C4 _,ascii_getD ascii_C4 _,by simp⟩

theorem checkedStandardCall_eq (n : Nat) : checkedStandardCall n = some (standardCall n) := by
  rw [checkedStandardCall,standardCall]
  split
  · rfl
  · rename_i hin
    simp only [Bool.or_eq_true,decide_eq_true_eq,not_or,ge_iff_le,Nat.not_le] at hin
    obtain ⟨⟨⟨⟨⟨h1,h2⟩,h3⟩,h4⟩,h5⟩,h6⟩ := hin
    rw [getElem?_eq_some_getD h1 0,getElem?_eq_some_getD h2 0,getElem?_eq_some_getD h3 0,getElem?_eq_some_getD h4 0,
      getElem?_eq_some_getD h5 0,getElem?_eq_some_getD h6 0]
    simp only [Option.bind_eq_bind,Option.bind_some]
    rw [checkedText_eq]
    · rfl
    · simp only [List.forall_mem_cons]
      exact ⟨ascii_getD ascii_C1 _,ascii_getD ascii_C2 _,ascii_getD ascii_C3 _,ascii_getD ascii_C4 _,
        ascii_getD ascii_C4 _,ascii_getD ascii_C4 _,by simp⟩

theorem checkedUnpack28_eq (n28 : Nat) : checkedUnpack28 n28 = some (unpack28 n28) := by
  rw [checkedUnpack28,unpack28]
  by_cases htoken : n28 < NTOKENS
  · rw [if_pos htoken,if_pos htoken]
    by_cases h0 : n28 = 0
    · rw [if_pos h0,if_pos h0]
    by_cases h1 : n28 = 1
    · rw [if_neg h0,if_neg h0,if_pos h1,if_pos h1]
    by_cases h2 : n28 = 2
    · rw [if_neg h0,if_neg h0,if_neg h1,if_neg h1,if_pos h2,if_pos h2]
    rw [if_neg h0,if_neg h0,if_neg h1,if_neg h1,if_neg h2,if_neg h2]
    by_cases h3 : n28 ≤ 1002
    · rw [if_pos h3,if_pos h3,checkedSub_eq (by omega : 3 ≤ n28),Option.bind_eq_bind,Option.bind_some,Option.pure_def]
    · rw [if_neg h3,if_neg h3,checkedSub_eq (by omega : 1003 ≤ n28),Option.bind_eq_bind,Option.bind_some,
        checkedDirectedCq_eq]
  · rw [if_neg htoken,if_neg htoken,checkedSub_eq (Nat.le_of_not_lt htoken),Option.bind_eq_bind,Option.bind_some]
    by_cases hhash : n28 - NTOKENS < MAX22
    · rw [if_pos hhash,if_pos hhash,Option.pure_def]
    · rw [if_neg hhash,if_neg hhash,checkedSub_eq (Nat.le_of_not_lt hhash),Option.bind_some,checkedStandardCall_eq]

variable {ht : CallsignHashTable} {hist : List Str}

theorem checkedUnpack28H_eq (h : ht.Holds hist) (n28 : Nat) : checkedUnpack28H n28 ht = some (unpack28H n28 ht) := by
  rw [checkedUnpack28H,unpack28H]
  by_cases htoken : n28 ≥ NTOKENS
  · rw [if_pos htoken,checkedSub_eq htoken,Option.bind_eq_bind,Option.bind_some]
    by_cases hhash : n28 - NTOKENS < MAX22
    · rw [if_pos hhash,if_pos (by rw [decide_eq_true htoken,decide_eq_true hhash]; rfl),
        CallsignHashTable.checkedLookup22_eq h,Option.bind_eq_bind,Option.bind_some,Option.pure_def]
    · rw [if_neg hhash,if_neg (by rw [decide_eq_false hhash,Bool.and_false]; decide),checkedUnpack28_eq]
  · rw [if_neg htoken,if_neg (by rw [decide_eq_false htoken,Bool.false_and]; decide),checkedUnpack28_eq]

theorem checkedResolveHash12_eq (n12 : Nat) (ht : CallsignHashTable) :
    checkedResolveHash12 n12 ht = some (resolveHash12 n12 ht) := by
  rw [checkedResolveHash12,CallsignHashTable.checkedLookup12,CallsignHashTable.checkedLookupSlot_eq]
  rfl

theorem checkedResolveHash22_eq (h : ht.Holds hist) (n22 : Nat) :
    checkedResolveHash22 n22 ht = some (resolveHash22 n22 ht) := by
  rw [checkedResolveHash22,CallsignHashTable.checkedLookup22_eq h]
  rfl

end Calls

section Fields

theorem checkedWsprDbm_eq {raw : Nat} (h : raw < 32) : checkedWsprDbm raw = some (wsprDbm raw) := by
  rw [checkedWsprDbm,checkedWidth_eq (by omega)]
  rfl

private theorem length_C2 : C2.length = 36 := by decide

theorem checkedFillPrefix_eq {i n : Nat} {cpfx : List UInt8} (h : i ≤ cpfx.length) :
    checkedFillPrefix i n cpfx = some (fillPrefix i n cpfx) := by
  induction i generalizing n cpfx with
  | zero => rfl
  | succ i ih =>
    have hdigit : n % 36 < C2.length := length_C2 ▸ Nat.mod_lt n (by decide)
    rw [checkedFillPrefix,fillPrefix,getElem?_eq_some_getD hdigit 0]
    simp only [Option.bind_eq_bind,Option.bind_some,checkedSet_eq (Nat.lt_of_succ_le h)]
    by_cases hlast : n / 36 = 0
    · rw [if_pos hlast,if_pos hlast,Option.pure_def]
    · rw [if_neg hlast,if_neg hlast]
      exact ih (by rw [List.length_set]; omega)

theorem checkedWsprSuffix_eq (n : Nat) : checkedWsprSuffix n = some
    (if n ≤ 35 then some [C2.getD n 0]
    else if n ≤ 1295 then some [C2.getD (n / 36) 0,C2.getD (n % 36) 0]
    else if n ≤ 12959 then some [C2.getD (n / 360) 0,C2.getD (n / 10 % 36) 0,C2.getD (n % 10) 0]
    else none) := by
  have hread : ∀ i < 36, C2[i]? = some (C2.getD i 0) := fun i hi => getElem?_eq_some_getD (by rwa [length_C2]) 0
  rw [checkedWsprSuffix]
  by_cases h1 : n ≤ 35
  · rw [if_pos h1,if_pos h1,hread n (by omega)]
    rfl
  by_cases h2 : n ≤ 1295
  · rw [if_neg h1,if_neg h1,if_pos h2,if_pos h2,hread (n / 36) (by omega),hread (n % 36) (by omega)]
    rfl
  by_cases h3 : n ≤ 12959
  · rw [if_neg h1,if_neg h1,if_neg h2,if_neg h2,if_pos h3,if_pos h3,hread (n / 360) (by omega),
      hread (n / 10 % 36) (by omega),hread (n % 10) (by omega)]
    rfl
  · rw [if_neg h1,if_neg h1,if_neg h2,if_neg h2,if_neg h3,if_neg h3]

theorem checkedWsprPrefixSuffix_eq (npfx : Nat) (call : Str) :
    checkedWsprPrefixSuffix npfx call = some (wsprPrefixSuffix npfx call) := by
  rw [checkedWsprPrefixSuffix,wsprPrefixSuffix]
  by_cases hpfx : npfx < 46656
  · rw [if_pos hpfx,if_pos hpfx,checkedFillPrefix_eq (by rw [List.length_replicate]),Option.bind_eq_bind,
      Option.bind_some,Option.pure_def]
  · rw [if_neg hpfx,if_neg hpfx,checkedSub_eq (Nat.le_of_not_lt hpfx),Option.bind_eq_bind,Option.bind_some,
      checkedWsprSuffix_eq,Option.bind_eq_bind,Option.bind_some,Option.pure_def]

theorem checkedToGrid_eq (n : Nat) : checkedToGrid n = some (toGrid n) := by
  rw [checkedToGrid,toGrid]
  simp only [Option.bind_eq_bind,Option.pure_def]
  by_cases h1 : n / (18 * 10 * 10 * 25 * 25) > 17
  · rw [if_pos h1,if_pos h1]
  rw [if_neg h1,if_neg h1,checkedSub_eq (Nat.div_mul_le_self _ _),Option.bind_some]
  have hc1 := checkedLetter_eq (by omega : n / (18 * 10 * 10 * 25 * 25) ≤ 25)
  generalize n - n / (18 * 10 * 10 * 25 * 25) * (18 * 10 * 10 * 25 * 25) = n1
  by_cases h2 : n1 / (10 * 10 * 25 * 25) > 17
  · rw [if_pos h2,if_pos h2]
  rw [if_neg h2,if_neg h2,checkedSub_eq (Nat.div_mul_le_self _ _),Option.bind_some]
  have hc2 := checkedLetter_eq (by omega : n1 / (10 * 10 * 25 * 25) ≤ 25)
  generalize n1 - n1 / (10 * 10 * 25 * 25) * (10 * 10 * 25 * 25) = n2
  by_cases h3 : n2 / (10 * 25 * 25) > 9
  · rw [if_pos h3,if_pos h3]
  rw [if_neg h3,if_neg h3,checkedSub_eq (Nat.div_mul_le_self _ _),Option.bind_some]
  have hc3 := checkedDigit_eq (Nat.le_of_not_lt h3)
  generalize n2 - n2 / (10 * 25 * 25) * (10 * 25 * 25) = n3
  by_cases h4 : n3 / (25 * 25) > 9
  · rw [if_pos h4,if_pos h4]
  rw [if_neg h4,if_neg h4,checkedSub_eq (Nat.div_mul_le_self _ _),Option.bind_some]
  have hc4 := checkedDigit_eq (Nat.le_of_not_lt h4)
  generalize n3 - n3 / (25 * 25) * (25 * 25) = n4
  rw [checkedSub_eq (Nat.div_mul_le_self _ _),Option.bind_some]
  by_cases h5 : (n4 / 25 > 24 || n4 - n4 / 25 * 25 > 24) = true
  · rw [if_pos h5,if_pos h5]
  have hlast := h5
  simp only [Bool.or_eq_true,decide_eq_true_eq,not_or,Nat.not_lt] at hlast
  have hc5 := checkedLetter_eq (by omega : n4 / 25 ≤ 25)
  have hc6 := checkedLetter_eq (by omega : n4 - n4 / 25 * 25 ≤ 25)
  rw [if_neg h5,if_neg h5,hc1,Option.bind_some,hc2,Option.bind_some,hc3,Option.bind_some,hc4,Option.bind_some]
  by_cases h6 : n4 / 25 ≠ 24 ∨ n4 - n4 / 25 * 25 ≠ 24
  · rw [if_pos h6,if_pos h6,hc5,Option.bind_some,hc6,Option.bind_some]
  · rw [if_neg h6,if_neg h6]

theorem checkedToGrid6_eq (n : Nat) : checkedToGrid6 n = some (toGrid6 n) := by
  rw [checkedToGrid6,toGrid6]
  simp only [Option.bind_eq_bind,Option.pure_def]
  by_cases h1 : n / (18 * 10 * 10 * 24 * 24) > 17
  · rw [if_pos h1,if_pos h1]
  rw [if_neg h1,if_neg h1,checkedSub_eq (Nat.div_mul_le_self _ _),Option.bind_some]
  have hc1 := checkedLetter_eq (by omega : n / (18 * 10 * 10 * 24 * 24) ≤ 25)
  generalize n - n / (18 * 10 * 10 * 24 * 24) * (18 * 10 * 10 * 24 * 24) = n1
  by_cases h2 : n1 / (10 * 10 * 24 * 24) > 17
  · rw [if_pos h2,if_pos h2]
  rw [if_neg h2,if_neg h2,checkedSub_eq (Nat.div_mul_le_self _ _),Option.bind_some]
  have hc2 := checkedLetter_eq (by omega : n1 / (10 * 10 * 24 * 24) ≤ 25)
  generalize n1 - n1 / (10 * 10 * 24 * 24) * (10 * 10 * 24 * 24) = n2
  by_cases h3 : n2 / (10 * 24 * 24) > 9
  · rw [if_pos h3,if_pos h3]
  rw [if_neg h3,if_neg h3,checkedSub_eq (Nat.div_mul_le_self _ _),Option.bind_some]
  have hc3 := checkedDigit_eq (Nat.le_of_not_lt h3)
  generalize n2 - n2 / (10 * 24 * 24) * (10 * 24 * 24) = n3
  by_cases h4 : n3 / (24 * 24) > 9
  · rw [if_pos h4,if_pos h4]
  rw [if_neg h4,if_neg h4,checkedSub_eq (Nat.div_mul_le_self _ _),Option.bind_some]
  have hc4 := checkedDigit_eq (Nat.le_of_not_lt h4)
  generalize n3 - n3 / (24 * 24) * (24 * 24) = n4
  rw [checkedSub_eq (Nat.div_mul_le_self _ _),Option.bind_some]
  by_cases h5 : (n4 / 24 > 23 || n4 - n4 / 24 * 24 > 23) = true
  · rw [if_pos h5,if_pos h5]
  have hlast := h5
  simp only [Bool.or_eq_true,decide_eq_true_eq,not_or,Nat.not_lt] at hlast
  have hc5 := checkedLetter_eq (by omega : n4 / 24 ≤ 25)
  have hc6 := checkedLetter_eq (by omega : n4 - n4 / 24 * 24 ≤ 25)
  rw [if_neg h5,if_neg h5,hc1,Option.bind_some,hc2,Option.bind_some,hc3,Option.bind_some,hc4,Option.bind_some,
    hc5,Option.bind_some,hc6,Option.bind_some]

theorem checkedToGrid4_eq (n : Nat) : checkedToGrid4 n = some (toGrid4 n) := by
  rw [checkedToGrid4,toGrid4]
  by_cases hmax : n > MAX_GRID4
  · rw [if_pos hmax,if_pos hmax]
  rw [if_neg hmax,if_neg hmax]
  dsimp only
  by_cases hout : (n / (18 * 10 * 10) > 17 || n % (18 * 10 * 10) / (10 * 10) > 17) = true
  · rw [if_pos hout,if_pos hout]
  have hin := hout
  simp only [Bool.or_eq_true,decide_eq_true_eq,not_or,Nat.not_lt] at hin
  rw [if_neg hout,if_neg hout,checkedLetter_eq (by omega : n / (18 * 10 * 10) ≤ 25),
    checkedLetter_eq (by omega : n % (18 * 10 * 10) / (10 * 10) ≤ 25),
    checkedDigit_eq (by omega : n % (18 * 10 * 10) % (10 * 10) / 10 ≤ 9),
    checkedDigit_eq (by omega : n % (18 * 10 * 10) % (10 * 10) % 10 ≤ 9)]
  rfl

end Fields

end MfskCore.Msg
