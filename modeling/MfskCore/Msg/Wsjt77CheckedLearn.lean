import MfskCore.Msg.Wsjt77Checked

/-! The message layouts, their dispatch, the rendering and the learner with the checks that end
in a panic. On a payload of 77 bytes and a table that inserts and clears can build, no check fails
and the result is that of the unchecked functions. -/
namespace MfskCore.Msg
open Rust Library

def checkedUnpackDxPedition (msg : List UInt8) (ht : CallsignHashTable) : Option (Option Wsjt77Fields) := do
  let n28a ← checkedReadBits msg 0 28
  let n28b ← checkedReadBits msg 28 28
  let n10 ← checkedReadBits msg 56 10
  let n5 ← checkedReadBits msg 66 5
  let irpt : Int := 2 * (n5 : Int) - 30
  let crpt := (if irpt ≥ 0 then '+' else '-') :: zeroPadded 2 irpt.natAbs
  if n28a ≤ 2 || n28b ≤ 2 then pure none
  else
    let c1 ← checkedUnpack28H n28a ht
    let c2 ← checkedUnpack28H n28b ht
    let call ← ht.checkedLookup10 (UInt32.ofNat n10)
    pure (some (.DxPedition c1 c2 (bracketed call) crpt))

def checkedUnpackFieldDay (msg : List UInt8) (ht : CallsignHashTable) (n3 : Nat) :
    Option (Option Wsjt77Fields) := do
  let n28a ← checkedReadBits msg 0 28
  let n28b ← checkedReadBits msg 28 28
  if n28a ≤ 2 || n28b ≤ 2 then pure none
  else
    let ir ← checkedBit msg 56
    let intx ← checkedReadBits msg 57 4
    let nclass ← checkedReadBits msg 61 3
    let isec ← checkedReadBits msg 64 7
    if isec < 1 || isec > ARRL_SECTIONS.length then pure none
    else
      let code ← checkedSub isec 1
      let sec ← ARRL_SECTIONS[code]?
      let ntx ← checkedWidth 32 (intx + 1 + (if n3 = 4 then 16 else 0))
      let klass ← checkedChar 'A' nclass
      let c1 ← checkedUnpack28H n28a ht
      let c2 ← checkedUnpack28H n28b ht
      pure (some (.FieldDay c1 c2 (ir == 1) ntx klass sec))

def checkedUnpackTelemetry (msg : List UInt8) : Option Wsjt77Fields := do
  let a ← checkedReadBits msg 0 23
  let b ← checkedReadBits msg 23 24
  let c ← checkedReadBits msg 47 24
  let hex := zeroPaddedHex 6 a ++ zeroPaddedHex 6 b ++ zeroPaddedHex 6 c
  pure (.Telemetry (hex.dropWhile (· == '0')))

/-- `i3 = 0, n3 = 6`, type 1. -/
def checkedUnpackWspr1 (msg : List UInt8) (ht : CallsignHashTable) : Option (Option Wsjt77Fields) := do
  let n28 ← checkedReadBits msg 0 28
  let igrid4 ← checkedReadBits msg 28 15
  let raw ← checkedReadBits msg 43 5
  match ← checkedWsprDbm raw with
  | none => pure none
  | some idbm =>
    match ← checkedToGrid4 igrid4 with
    | none => pure none
    | some grid =>
      let call ← checkedUnpack28H n28 ht
      pure (some (.Wspr call (grid ++ ' ' :: decimal idbm)))

/-- `i3 = 0, n3 = 6`, type 2. -/
def checkedUnpackWspr2 (msg : List UInt8) (ht : CallsignHashTable) : Option (Option Wsjt77Fields) := do
  let n28 ← checkedReadBits msg 0 28
  let npfx ← checkedReadBits msg 28 16
  let raw ← checkedReadBits msg 44 5
  match ← checkedWsprDbm raw with
  | none => pure none
  | some idbm =>
    let call ← checkedUnpack28H n28 ht
    let composed ← checkedWsprPrefixSuffix npfx call
    pure (composed.map fun composed => .Wspr composed (decimal idbm))

/-- `i3 = 0, n3 = 6`, type 3. -/
def checkedUnpackWspr3 (msg : List UInt8) (ht : CallsignHashTable) : Option (Option Wsjt77Fields) := do
  let n22 ← checkedReadBits msg 0 22
  let igrid6 ← checkedReadBits msg 22 25
  match ← checkedToGrid igrid6 with
  | none => pure none
  | some grid =>
    let n28 ← checkedWidth 32 (n22 + NTOKENS)
    let call ← checkedUnpack28H n28 ht
    pure (some (.Wspr call grid))

def checkedUnpackWspr (msg : List UInt8) (ht : CallsignHashTable) : Option (Option Wsjt77Fields) := do
  let j48 ← checkedBit msg 47
  let j49 ← checkedBit msg 48
  let j50 ← checkedBit msg 49
  if j50 = 1 then checkedUnpackWspr2 msg ht
  else if j49 = 0 then checkedUnpackWspr1 msg ht
  else if j48 = 0 then checkedUnpackWspr3 msg ht
  else pure none

def checkedStandardExchange (isCq : Bool) (ir igrid : Nat) : Option (Option Str) :=
  if igrid ≤ MAX_GRID4 then
    if isCq && ir == 1 then some none
    else do
      let grid ← checkedToGrid4 igrid
      pure (grid.map fun grid => if ir = 0 then grid else "R ".toList ++ grid)
  else do
    let irpt ← checkedSub igrid MAX_GRID4
    pure (if isCq && irpt ≥ 2 then none
      else if irpt = 1 then some []
      else if irpt = 2 then some "RRR".toList
      else if irpt = 3 then some "RR73".toList
      else if irpt = 4 then some "73".toList
      else
        let isnr := (irpt : Int) - 35
        let isnr := if isnr > 50 then isnr - 101 else isnr
        some (fmtReport isnr ir))

def checkedUnpackStandard (msg : List UInt8) (ht : CallsignHashTable) (i3 : Nat) :
    Option (Option Wsjt77Fields) := do
  let n28a ← checkedReadBits msg 0 28
  let ipa ← checkedBit msg 28
  let n28b ← checkedReadBits msg 29 28
  let ipb ← checkedBit msg 57
  let ir ← checkedBit msg 58
  let igrid ← checkedReadBits msg 59 15
  let suffix := if i3 = 1 then "/R".toList else "/P".toList
  let c1 ← checkedUnpack28H n28a ht
  let c2 ← checkedUnpack28H n28b ht
  let c1 := if ipa == 1 && !(['<'].isPrefixOf c1) && !("CQ".toList.isPrefixOf c1) then c1 ++ suffix
    else c1
  let c2 := if ipb == 1 && !(['<'].isPrefixOf c2) then c2 ++ suffix else c2
  let report ← checkedStandardExchange (isCq c1) ir igrid
  pure (report.map fun report => .Standard c1 c2 report)

/-- A state behind 8000, a serial number below it. -/
def checkedRttyExchange (nexch : Nat) : Option (Option Str) := do
  let isState ← if nexch > 8000 then (checkedSub nexch 8000).map fun code => decide (code ≤ RTTY_STATES.length)
    else some false
  if isState then
    let code ← checkedSub nexch 8000
    let i ← checkedSub code 1
    let state ← RTTY_STATES[i]?
    pure (some state)
  else if 1 ≤ nexch && nexch ≤ 7999 then pure (some (zeroPadded 4 nexch))
  else pure none

def checkedUnpackRttyRoundup (msg : List UInt8) (ht : CallsignHashTable) : Option (Option Wsjt77Fields) := do
  let itu ← checkedBit msg 0
  let n28a ← checkedReadBits msg 1 28
  let n28b ← checkedReadBits msg 29 28
  let ir ← checkedBit msg 57
  let irpt ← checkedReadBits msg 58 3
  let nexch ← checkedReadBits msg 61 13
  let c1 ← checkedUnpack28H n28a ht
  let c2 ← checkedUnpack28H n28b ht
  let strength ← checkedWidth 8 (irpt + 2)
  let rst := '5' :: decimal strength ++ ['9']
  let exch ← checkedRttyExchange nexch
  pure (exch.map fun exch => .RttyRoundup (itu == 1) c1 c2 (ir == 1) rst exch)

def checkedUnpackNonstandard (msg : List UInt8) (ht : CallsignHashTable) : Option (Option Wsjt77Fields) := do
  let n12 ← checkedReadBits msg 0 12
  let n58 ← checkedReadBits msg 12 58
  let iflip ← checkedBit msg 70
  let nrpt ← checkedReadBits msg 71 2
  let icq ← checkedBit msg 73
  let buf ← checkedFillDigits C38 38 11 n58
  let nonstd := trim ((fromUtf8 buf).getD [])
  if icq = 1 then pure (some (.Nonstandard "CQ".toList (some nonstd) []))
  else
    let hashed ← checkedResolveHash12 n12 ht
    let exchange := if nrpt = 0 then some [] else if nrpt = 1 then some "RRR".toList
      else if nrpt = 2 then some "RR73".toList else if nrpt = 3 then some "73".toList else none
    pure (exchange.map fun exchange =>
      if iflip = 0 then .Nonstandard hashed (some nonstd) exchange
      else .Nonstandard nonstd (some hashed) exchange)

def checkedUnpackEuVhfContest (msg : List UInt8) (ht : CallsignHashTable) : Option (Option Wsjt77Fields) := do
  let n12 ← checkedReadBits msg 0 12
  let n22 ← checkedReadBits msg 12 22
  let ir ← checkedBit msg 34
  let irpt ← checkedReadBits msg 35 3
  let iserial ← checkedReadBits msg 38 11
  let igrid6 ← checkedReadBits msg 49 25
  match ← checkedToGrid6 igrid6 with
  | none => pure none
  | some grid =>
    let c1 ← checkedResolveHash12 n12 ht
    let c2 ← checkedResolveHash22 n22 ht
    let nrs ← checkedWidth 32 (52 + irpt)
    pure (some (.EuVhfContest c1 c2 (ir == 1) (zeroPadded 2 nrs ++ zeroPadded 4 iserial) grid))

def checkedUnpack77Dispatch (msg : List UInt8) (ht : CallsignHashTable) (i3 n3 : Nat) :
    Option (Option Wsjt77Fields) :=
  match i3 with
  | 0 =>
    match n3 with
    | 0 => do
      let text ← checkedUnpackFreeText msg
      pure (if text.isEmpty then none else some (.FreeText text))
    | 1 => checkedUnpackDxPedition msg ht
    | 5 => (checkedUnpackTelemetry msg).map some
    | 6 => checkedUnpackWspr msg ht
    | 3 | 4 => checkedUnpackFieldDay msg ht n3
    | _ => some none
  | 1 | 2 => checkedUnpackStandard msg ht i3
  | 3 => checkedUnpackRttyRoundup msg ht
  | 5 => checkedUnpackEuVhfContest msg ht
  | 4 => checkedUnpackNonstandard msg ht
  | _ => some none

def checkedUnpack77Fields (msg : List UInt8) (ht : CallsignHashTable) : Option (Option Wsjt77Fields) := do
  let n3 ← checkedReadBits msg 71 3
  let i3 ← checkedReadBits msg 74 3
  let decoded ← checkedUnpack77Dispatch msg ht i3 n3
  pure (decoded.bind fun decoded => if cqFromHash decoded then none else some decoded)

def checkedUnpack77WithHash (msg : List UInt8) (ht : CallsignHashTable) : Option (Option Str) := do
  let decoded ← checkedUnpack77Fields msg ht
  pure (decoded.map Wsjt77Fields.render)

def checkedLearnStd (n28 : Nat) (ht : CallsignHashTable) : Option CallsignHashTable := do
  let call ← checkedUnpack28 n28
  let standard ← checkedIsStandardCallsign call
  if standard then ht.checkedInsert call else pure ht

/-- Two 28-bit fields, the first one first. -/
def checkedLearnPair (msg : List UInt8) (a b : Nat) (ht : CallsignHashTable) : Option CallsignHashTable := do
  let n28a ← checkedReadBits msg a 28
  let ht ← checkedLearnStd n28a ht
  let n28b ← checkedReadBits msg b 28
  checkedLearnStd n28b ht

def checkedLearnNonstd (msg : List UInt8) (ht : CallsignHashTable) : Option CallsignHashTable := do
  let n58 ← checkedReadBits msg 12 58
  let buf ← checkedFillDigits C38 38 11 n58
  match fromUtf8 buf with
  | some s =>
    let call := trim s
    if byteLen call ≥ 2 then ht.checkedInsert call else pure ht
  | none => pure ht

def checkedRegisterCallsigns (msg : List UInt8) (ht : CallsignHashTable) : Option CallsignHashTable :=
  if msg.length ≠ 77 then some ht
  else do
    let n3 ← checkedReadBits msg 71 3
    let i3 ← checkedReadBits msg 74 3
    match i3 with
    | 0 =>
      match n3 with
      | 1 | 3 | 4 => checkedLearnPair msg 0 28 ht
      | _ => pure ht
    | 1 | 2 => checkedLearnPair msg 0 29 ht
    | 3 => checkedLearnPair msg 1 29 ht
    | 4 => checkedLearnNonstd msg ht
    | _ => pure ht

def checkedUnpack77Learn (msg : List UInt8) (ht : CallsignHashTable) : Option (Option Str × CallsignHashTable) := do
  let text ← checkedUnpack77WithHash msg ht
  let ht ← checkedRegisterCallsigns msg ht
  pure (text,ht)

section Layouts
variable {msg : List UInt8} {ht : CallsignHashTable} {hist : List Str}

private theorem read77 (h : msg.length = 77) {start len : Nat} (hl : start + len ≤ 77) :
    checkedReadBits msg start len = some (readBits msg start len) := checkedReadBits_eq (h ▸ hl)

private theorem bit77 (h : msg.length = 77) {i : Nat} (hi : i < 77) : checkedBit msg i = some (bit msg i) :=
  checkedBit_eq (h ▸ hi)

theorem checkedUnpackDxPedition_eq (h : msg.length = 77) (ht_holds : ht.Holds hist) :
    checkedUnpackDxPedition msg ht = some (unpackDxPedition msg ht) := by
  rw [checkedUnpackDxPedition,unpackDxPedition,read77 h (by decide : 0 + 28 ≤ 77),read77 h (by decide : 28 + 28 ≤ 77),
    read77 h (by decide : 56 + 10 ≤ 77),read77 h (by decide : 66 + 5 ≤ 77)]
  simp only [Option.bind_eq_bind,Option.bind_some,Option.pure_def,checkedUnpack28H_eq ht_holds,
    CallsignHashTable.checkedLookup10,CallsignHashTable.checkedLookupSlot_eq]
  exact (apply_ite some _ _ _).symm

theorem checkedUnpackFieldDay_eq (h : msg.length = 77) (ht_holds : ht.Holds hist) (n3 : Nat) :
    checkedUnpackFieldDay msg ht n3 = some (unpackFieldDay msg ht n3) := by
  have hintx := readBits_lt msg 57 4
  have hclass := readBits_lt msg 61 3
  have hwidth : checkedWidth 32 (readBits msg 57 4 + 1 + (if n3 = 4 then 16 else 0)) = some _ :=
    checkedWidth_eq (by split <;> omega)
  rw [checkedUnpackFieldDay,unpackFieldDay,read77 h (by decide : 0 + 28 ≤ 77),read77 h (by decide : 28 + 28 ≤ 77),
    bit77 h (by decide : 56 < 77),read77 h (by decide : 57 + 4 ≤ 77),read77 h (by decide : 61 + 3 ≤ 77),
    read77 h (by decide : 64 + 7 ≤ 77)]
  simp only [Option.bind_eq_bind,Option.bind_some,Option.pure_def,checkedUnpack28H_eq ht_holds,hwidth,
    checkedLetter_eq (by omega : readBits msg 61 3 ≤ 25)]
  by_cases hcalls : (readBits msg 0 28 ≤ 2 || readBits msg 28 28 ≤ 2) = true
  · rw [if_pos hcalls,if_pos hcalls]
  rw [if_neg hcalls,if_neg hcalls]
  by_cases hsec : (readBits msg 64 7 < 1 || readBits msg 64 7 > ARRL_SECTIONS.length) = true
  · rw [if_pos hsec,if_pos hsec]
  have hin := hsec
  simp only [Bool.or_eq_true,decide_eq_true_eq,not_or,Nat.not_lt] at hin
  rw [if_neg hsec,if_neg hsec,checkedSub_eq hin.1,Option.bind_some,
    getElem?_eq_some_getD (by omega : readBits msg 64 7 - 1 < ARRL_SECTIONS.length) [],Option.bind_some]

theorem checkedUnpackTelemetry_eq (h : msg.length = 77) : checkedUnpackTelemetry msg = some (unpackTelemetry msg) := by
  rw [checkedUnpackTelemetry,read77 h (by decide : 0 + 23 ≤ 77),read77 h (by decide : 23 + 24 ≤ 77),
    read77 h (by decide : 47 + 24 ≤ 77)]
  rfl

theorem checkedUnpackWspr_eq (h : msg.length = 77) (ht_holds : ht.Holds hist) :
    checkedUnpackWspr msg ht = some (unpackWspr msg ht) := by
  have hraw1 := readBits_lt msg 43 5
  have hraw2 := readBits_lt msg 44 5
  have hn22 := readBits_lt msg 0 22
  have hwidth : checkedWidth 32 (readBits msg 0 22 + NTOKENS) = some _ :=
    checkedWidth_eq (by have hN : NTOKENS = 2063592 := rfl; omega)
  rw [checkedUnpackWspr,unpackWspr,bit77 h (by decide : 47 < 77),bit77 h (by decide : 48 < 77),bit77 h (by decide : 49 < 77)]
  simp only [Option.bind_eq_bind,Option.bind_some,Option.pure_def]
  by_cases h50 : bit msg 49 = 1
  · rw [if_pos h50,if_pos h50,checkedUnpackWspr2,read77 h (by decide : 0 + 28 ≤ 77),read77 h (by decide : 28 + 16 ≤ 77),
      read77 h (by decide : 44 + 5 ≤ 77)]
    simp only [Option.bind_eq_bind,Option.bind_some,Option.pure_def,checkedWsprDbm_eq hraw2,
      checkedUnpack28H_eq ht_holds,checkedWsprPrefixSuffix_eq]
    cases wsprDbm (readBits msg 44 5) with
    | none => rfl
    | some idbm => rfl
  rw [if_neg h50,if_neg h50]
  by_cases h49 : bit msg 48 = 0
  · rw [if_pos h49,if_pos h49,checkedUnpackWspr1,read77 h (by decide : 0 + 28 ≤ 77),read77 h (by decide : 28 + 15 ≤ 77),
      read77 h (by decide : 43 + 5 ≤ 77)]
    simp only [Option.bind_eq_bind,Option.bind_some,Option.pure_def,checkedWsprDbm_eq hraw1,checkedToGrid4_eq,
      checkedUnpack28H_eq ht_holds]
    cases wsprDbm (readBits msg 43 5) with
    | none => rfl
    | some idbm =>
      cases toGrid4 (readBits msg 28 15) with
      | none => rfl
      | some grid => rfl
  rw [if_neg h49,if_neg h49]
  by_cases h48 : bit msg 47 = 0
  · rw [if_pos h48,if_pos h48,checkedUnpackWspr3,read77 h (by decide : 0 + 22 ≤ 77),read77 h (by decide : 22 + 25 ≤ 77)]
    simp only [Option.bind_eq_bind,Option.bind_some,Option.pure_def,checkedToGrid_eq,hwidth,checkedUnpack28H_eq ht_holds]
    cases toGrid (readBits msg 22 25) with
    | none => rfl
    | some grid => rfl
  · rw [if_neg h48,if_neg h48]

theorem checkedStandardExchange_eq (isCq : Bool) (ir igrid : Nat) :
    checkedStandardExchange isCq ir igrid = some (standardExchange isCq ir igrid) := by
  rw [checkedStandardExchange,standardExchange]
  by_cases hgrid : igrid ≤ MAX_GRID4
  · rw [if_pos hgrid,if_pos hgrid,checkedToGrid4_eq,Option.bind_eq_bind,Option.bind_some,Option.pure_def]
    exact (apply_ite some _ _ _).symm
  · rw [if_neg hgrid,if_neg hgrid,checkedSub_eq (Nat.le_of_not_le hgrid),Option.bind_eq_bind,Option.bind_some,
      Option.pure_def]

theorem checkedUnpackStandard_eq (h : msg.length = 77) (ht_holds : ht.Holds hist) (i3 : Nat) :
    checkedUnpackStandard msg ht i3 = some (unpackStandard msg ht i3) := by
  rw [checkedUnpackStandard,unpackStandard,read77 h (by decide : 0 + 28 ≤ 77),bit77 h (by decide : 28 < 77),
    read77 h (by decide : 29 + 28 ≤ 77),bit77 h (by decide : 57 < 77),bit77 h (by decide : 58 < 77),
    read77 h (by decide : 59 + 15 ≤ 77)]
  simp only [Option.bind_eq_bind,Option.bind_some,Option.pure_def,checkedUnpack28H_eq ht_holds,checkedStandardExchange_eq]

theorem checkedRttyExchange_eq (nexch : Nat) : checkedRttyExchange nexch = some
    (if nexch > 8000 && nexch - 8000 ≤ RTTY_STATES.length then some (RTTY_STATES.getD (nexch - 8000 - 1) [])
    else if 1 ≤ nexch && nexch ≤ 7999 then some (zeroPadded 4 nexch) else none) := by
  rw [checkedRttyExchange]
  by_cases hstate : nexch > 8000
  · obtain ⟨d,rfl⟩ := Nat.exists_eq_add_of_lt hstate
    have hsub : 8000 + d + 1 - 8000 = d + 1 := by omega
    rw [if_pos hstate,decide_eq_true hstate,Bool.true_and,checkedSub_eq hstate.le,hsub]
    simp only [Option.map_some,Option.bind_eq_bind,Option.bind_some,Option.pure_def]
    by_cases hcode : d + 1 ≤ RTTY_STATES.length
    · rw [decide_eq_true hcode,if_pos rfl,if_pos rfl,checkedSub_eq (Nat.succ_pos d),Option.bind_some,
        getElem?_eq_some_getD (by omega : d + 1 - 1 < RTTY_STATES.length) [],Option.bind_some]
    · rw [decide_eq_false hcode,if_neg Bool.false_ne_true,if_neg Bool.false_ne_true]
      exact (apply_ite some _ _ _).symm
  · simp only [if_neg hstate,decide_eq_false hstate,Bool.false_and,Option.bind_eq_bind,Option.bind_some,Option.pure_def,
      if_neg Bool.false_ne_true]
    exact (apply_ite some _ _ _).symm

theorem checkedUnpackRttyRoundup_eq (h : msg.length = 77) (ht_holds : ht.Holds hist) :
    checkedUnpackRttyRoundup msg ht = some (unpackRttyRoundup msg ht) := by
  have hirpt := readBits_lt msg 58 3
  rw [checkedUnpackRttyRoundup,unpackRttyRoundup,bit77 h (by decide : 0 < 77),read77 h (by decide : 1 + 28 ≤ 77),
    read77 h (by decide : 29 + 28 ≤ 77),bit77 h (by decide : 57 < 77),read77 h (by decide : 58 + 3 ≤ 77),
    read77 h (by decide : 61 + 13 ≤ 77)]
  simp only [Option.bind_eq_bind,Option.bind_some,Option.pure_def,checkedUnpack28H_eq ht_holds,
    checkedWidth_eq (by omega : readBits msg 58 3 + 2 < 2^8),checkedRttyExchange_eq]

private theorem length_C38 : C38.length = 38 := by decide

theorem checkedUnpackNonstandard_eq (h : msg.length = 77) :
    checkedUnpackNonstandard msg ht = some (unpackNonstandard msg ht) := by
  rw [checkedUnpackNonstandard,unpackNonstandard,read77 h (by decide : 0 + 12 ≤ 77),read77 h (by decide : 12 + 58 ≤ 77),
    bit77 h (by decide : 70 < 77),read77 h (by decide : 71 + 2 ≤ 77),bit77 h (by decide : 73 < 77)]
  simp only [Option.bind_eq_bind,Option.bind_some,Option.pure_def,checkedFillDigits_eq length_C38 (by decide),
    checkedResolveHash12_eq]
  exact (apply_ite some _ _ _).symm

theorem checkedUnpackEuVhfContest_eq (h : msg.length = 77) (ht_holds : ht.Holds hist) :
    checkedUnpackEuVhfContest msg ht = some (unpackEuVhfContest msg ht) := by
  have hirpt := readBits_lt msg 35 3
  rw [checkedUnpackEuVhfContest,unpackEuVhfContest,read77 h (by decide : 0 + 12 ≤ 77),read77 h (by decide : 12 + 22 ≤ 77),
    bit77 h (by decide : 34 < 77),read77 h (by decide : 35 + 3 ≤ 77),read77 h (by decide : 38 + 11 ≤ 77),
    read77 h (by decide : 49 + 25 ≤ 77)]
  simp only [Option.bind_eq_bind,Option.bind_some,Option.pure_def,checkedToGrid6_eq,checkedResolveHash12_eq,
    checkedResolveHash22_eq ht_holds,checkedWidth_eq (by omega : 52 + readBits msg 35 3 < 2^32)]
  cases toGrid6 (readBits msg 49 25) with
  | none => rfl
  | some grid => rfl

theorem checkedUnpackFreeText_eq (h : msg.length = 77) : checkedUnpackFreeText msg = some (unpackFreeText msg) := by
  rw [checkedUnpackFreeText,read77 h (by decide : 0 + 71 ≤ 77)]
  simp only [Option.bind_eq_bind,Option.bind_some,Option.pure_def,
    checkedFillDigits_eq (by decide : FREE_TEXT.length = 42) (by decide)]
  rfl

theorem checkedUnpack77Dispatch_eq (h : msg.length = 77) (ht_holds : ht.Holds hist) (i3 n3 : Nat) :
    checkedUnpack77Dispatch msg ht i3 n3 = some (unpack77Dispatch msg ht i3 n3) := by
  match i3, n3 with
  | 0, 0 =>
    rw [checkedUnpack77Dispatch,checkedUnpackFreeText_eq h]
    rfl
  | 0, 1 => exact checkedUnpackDxPedition_eq h ht_holds
  | 0, 2 => rfl
  | 0, 3 => exact checkedUnpackFieldDay_eq h ht_holds 3
  | 0, 4 => exact checkedUnpackFieldDay_eq h ht_holds 4
  | 0, 5 =>
    rw [checkedUnpack77Dispatch,checkedUnpackTelemetry_eq h]
    rfl
  | 0, 6 => exact checkedUnpackWspr_eq h ht_holds
  | 0, _ + 7 => rfl
  | 1, _ => exact checkedUnpackStandard_eq h ht_holds 1
  | 2, _ => exact checkedUnpackStandard_eq h ht_holds 2
  | 3, _ => exact checkedUnpackRttyRoundup_eq h ht_holds
  | 4, _ => exact checkedUnpackNonstandard_eq h
  | 5, _ => exact checkedUnpackEuVhfContest_eq h ht_holds
  | _ + 6, _ => rfl

theorem checkedUnpack77WithHash_eq (h : msg.length = 77) (ht_holds : ht.Holds hist) :
    checkedUnpack77WithHash msg ht = some (unpack77WithHash msg ht) := by
  rw [checkedUnpack77WithHash,checkedUnpack77Fields,read77 h (by decide : 71 + 3 ≤ 77),
    read77 h (by decide : 74 + 3 ≤ 77)]
  simp only [Option.bind_eq_bind,Option.bind_some,Option.pure_def,checkedUnpack77Dispatch_eq h ht_holds]
  rfl

theorem checkedLearnStd_eq (ht_holds : ht.Holds hist) (n28 : Nat) :
    checkedLearnStd n28 ht = some (learnStd n28 ht) := by
  rw [checkedLearnStd,checkedUnpack28_eq]
  simp only [Option.bind_eq_bind,Option.bind_some,Option.pure_def,checkedIsStandardCallsign_eq,
    CallsignHashTable.checkedInsert_eq ht_holds]
  exact (apply_ite some _ _ _).symm

/-- Learning keeps the table one that inserts can build. -/
theorem learnStd_holds (ht_holds : ht.Holds hist) (n28 : Nat) : ∃ hist', (learnStd n28 ht).Holds hist' := by
  rw [learnStd]
  split
  · exact ⟨_,CallsignHashTable.apply_holds (.insert (unpack28 n28)) ht_holds⟩
  · exact ⟨hist,ht_holds⟩

theorem checkedLearnPair_eq (h : msg.length = 77) (ht_holds : ht.Holds hist) {a b : Nat} (ha : a + 28 ≤ 77)
    (hb : b + 28 ≤ 77) : checkedLearnPair msg a b ht =
      some (learnStd (readBits msg b 28) (learnStd (readBits msg a 28) ht)) := by
  obtain ⟨hist',hnext⟩ := learnStd_holds ht_holds (readBits msg a 28)
  rw [checkedLearnPair,read77 h ha,read77 h hb]
  simp only [Option.bind_eq_bind,Option.bind_some,checkedLearnStd_eq ht_holds,checkedLearnStd_eq hnext]

theorem checkedLearnNonstd_eq (h : msg.length = 77) (ht_holds : ht.Holds hist) :
    checkedLearnNonstd msg ht = some (learnNonstd msg ht) := by
  rw [checkedLearnNonstd,learnNonstd,read77 h (by decide : 12 + 58 ≤ 77)]
  simp only [Option.bind_eq_bind,Option.bind_some,Option.pure_def,checkedFillDigits_eq length_C38 (by decide),
    CallsignHashTable.checkedInsert_eq ht_holds]
  cases fromUtf8 (fillDigits C38 38 11 (readBits msg 12 58)) with
  | none => rfl
  | some s => exact (apply_ite some _ _ _).symm

theorem checkedRegisterCallsigns_eq (h : msg.length = 77) (ht_holds : ht.Holds hist) :
    checkedRegisterCallsigns msg ht = some (registerCallsigns msg ht) := by
  rw [checkedRegisterCallsigns,registerCallsigns,if_neg (not_not.2 h),if_neg (not_not.2 h),
    read77 h (by decide : 71 + 3 ≤ 77),read77 h (by decide : 74 + 3 ≤ 77)]
  simp only [Option.bind_eq_bind,Option.bind_some,Option.pure_def]
  rcases readBits msg 74 3 with _ | _ | _ | _ | _ | _
  · rcases readBits msg 71 3 with _ | _ | _ | _ | _ | _
    · rfl
    · exact checkedLearnPair_eq h ht_holds (by decide) (by decide)
    · rfl
    · exact checkedLearnPair_eq h ht_holds (by decide) (by decide)
    · exact checkedLearnPair_eq h ht_holds (by decide) (by decide)
    · rfl
  · exact checkedLearnPair_eq h ht_holds (by decide) (by decide)
  · exact checkedLearnPair_eq h ht_holds (by decide) (by decide)
  · exact checkedLearnPair_eq h ht_holds (by decide) (by decide)
  · exact checkedLearnNonstd_eq h ht_holds
  · rfl

end Layouts

/-- On 77 bytes of any values and a table built by inserts and clears, unpacking, rendering and
learning complete with every index in range, no subtraction below zero and only ASCII codes. -/
theorem unpack77Learn_never_panics (msg : List UInt8) (hmsg : msg.length = 77) (ops : List TableOp) :
    checkedUnpack77Learn msg (run CallsignHashTable.apply .new ops) =
      some (unpack77Learn msg (run CallsignHashTable.apply .new ops)) := by
  have hholds := CallsignHashTable.run_holds ops (.inl ⟨rfl,rfl⟩ : CallsignHashTable.new.Holds [])
  rw [checkedUnpack77Learn,checkedUnpack77WithHash_eq hmsg hholds,checkedRegisterCallsigns_eq hmsg hholds]
  rfl

/-- The closing of a contact, whose two calls are learned, behind a table that knows one of them. -/
theorem unpack77Learn_never_panics_standard :
    let msg := (pack77 "JA1ABC".toList "3Y0Z".toList "RR73".toList).getD []
    let ht := run CallsignHashTable.apply .new [.insert "JA1ABC".toList]
    checkedUnpack77Learn msg ht = some (unpack77Learn msg ht) ∧
      (unpack77Learn msg ht).1 = some "JA1ABC 3Y0Z RR73".toList :=
  ⟨unpack77Learn_never_panics _ (by decide +kernel) [.insert "JA1ABC".toList],by decide +kernel⟩

end MfskCore.Msg
