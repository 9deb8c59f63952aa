import MfskCore.Msg.Wsjt77Pack

/-! The callsign validators of `msg/wsjt77.rs` and the plausibility verdict on decoded fields.
They work on bytes, as the source does; a compound call is split at its slashes. -/
namespace MfskCore.Msg
open Rust

/-- `u8::is_ascii_alphabetic`. -/
def isAlphaByte (b : UInt8) : Bool := isUpperByte b || (97 ≤ b && b ≤ 122)

/-- `u8::is_ascii_alphanumeric`. -/
def isAlnumByte (b : UInt8) : Bool := isAlphaByte b || isDigitByte b

/-- The call without a trailing `/R` or `/P`. -/
def stripRp (call : Str) : Str :=
  if "/R".toList.isSuffixOf call || "/P".toList.isSuffixOf call then call.take (call.length - 2) else call

/-- The rightmost digit with nothing but upper-case letters behind it. -/
def splitDigit (b : List UInt8) : Option Nat :=
  (List.range b.length).reverse.find? fun i =>
    isDigitByte (b.getD i 0) && (b.drop (i + 1)).all isUpperByte

/-- The prefix of a standard callsign: up to two letters, or a letter and a digit in either order. -/
def standardPrefix (part1 : List UInt8) : Bool :=
  match part1 with
  | [] => true
  | [a] => isUpperByte a || isDigitByte a
  | [a,b] => (isUpperByte a && isUpperByte b) || (isUpperByte a && isDigitByte b) ||
      (isDigitByte a && isUpperByte b)
  | _ => false

def isStandardCallsign (call : Str) : Bool :=
  let b := asBytes (stripRp (trim call))
  if b.isEmpty || b.length > 6 then false
  else
    match splitDigit b with
    | none => false
    | some split =>
      let part2 := b.drop split
      if part2.isEmpty || !isDigitByte (part2.getD 0 0) then false
      else if part2.length > 4 then false
      else if !part2.tail.all isUpperByte then false
      else standardPrefix (b.take split)

/-- Prefix, separating digit and a suffix of one to four letters. -/
def isBaseCallsign (s : Str) : Bool :=
  let b := asBytes s
  if b.length < 2 || b.length > 7 then false
  else
    match splitDigit b with
    | none => false
    | some split =>
      if ¬split + 1 < b.length then false
      else
        let pre := b.take split
        let suffix := b.drop (split + 1)
        if pre.isEmpty || pre.length > 3 then false
        else if !pre.all isAlnumByte then false
        else if !pre.any isAlphaByte then false
        else suffix.length ≤ 4 && suffix.all isUpperByte

/-- One to three letters or digits beside a slash. -/
def isModifier (a : Str) : Bool := !a.isEmpty && byteLen a ≤ 3 && (asBytes a).all isAlnumByte

def isValidCallsign (call : Str) : Bool :=
  if isStandardCallsign call then true
  else
    match call.splitOn '/' with
    | [a] => isBaseCallsign a
    | [a,b] =>
      (isBaseCallsign a && isModifier b) || (isModifier a && isBaseCallsign b) ||
        (isBaseCallsign a && isBaseCallsign b)
    | _ => false

/-- The letter and digit prefixes that are allocated; the source's table is sorted and searched
by bisection. -/
def VALID_LETTER_DIGIT_PREFIXES : List (List UInt8) :=
  ["A2","A3","A4","A5","A6","A7","A8","A9","B0","B1","B2","B3","B4","B5","B6","B7","B8","B9","C2",
   "C3","C4","C5","C6","C7","C8","C9","D2","D3","D4","D6","D7","D8","D9","E2","E3","E4","E5","E6",
   "E7","H2","H4","H6","H7","H8","H9","J2","J3","J5","J6","J7","J8","P2","P3","P4","P5","P6","P7",
   "P8","P9","S0","S2","S5","S7","S9","T2","T3","T4","T5","T6","T7","T8","V2","V3","V4","V5","V6",
   "V7","V8","Z2","Z3","Z6","Z8"].map fun s => asBytes s.toList

def isKnownLetterDigitPrefix (pre : List UInt8) : Bool :=
  pre.length == 2 && VALID_LETTER_DIGIT_PREFIXES.contains pre

def hasPlausiblePrefix (s : Str) : Bool :=
  let b := asBytes s
  if b.length < 2 || b.length > 7 then true
  else
    let last := b.getD (b.length - 1) 0
    let b := if b.getD (b.length - 2) 0 == 47 && (last == 82 || last == 80) then b.take (b.length - 2) else b
    match splitDigit b with
    | none => true
    | some split =>
      match b.take split with
      | [a] => if isUpperByte a then [70,71,73,75,77,78,82,87].contains a else true
      | [a,d] => if isUpperByte a && isDigitByte d then isKnownLetterDigitPrefix [a,d] else true
      | _ => true

def isPlausibleCallsign (call : Str) : Bool :=
  if !isValidCallsign call then false
  else
    match call.splitOn '/' with
    | [a] => hasPlausiblePrefix a
    | [a,b] => (isBaseCallsign a && hasPlausiblePrefix a) || (isBaseCallsign b && hasPlausiblePrefix b)
    | _ => false

/-- A token, a hash in brackets, or a callsign with an allocated prefix. -/
def isPlausibleCall (field : Str) : Bool :=
  if field == "CQ".toList || field == "DE".toList || field == "QRZ".toList ||
      "CQ ".toList.isPrefixOf field then true
  else if ['<'].isPrefixOf field && ['>'].isSuffixOf field then true
  else isPlausibleCallsign field

/-- Two hashes and no callsign are believed only when one of them is known. -/
def Wsjt77Fields.isPlausible : Wsjt77Fields → Bool
  | .FreeText _ | .Telemetry _ => true
  | .EuVhfContest call1 call2 .. => call1 != UNRESOLVED_HASH || call2 != UNRESOLVED_HASH
  | fields => fields.callsigns.all isPlausibleCall

def isPlausiblePayloadWithHash (msg : List UInt8) (ht : CallsignHashTable) : Bool :=
  (unpack77Fields msg ht).any Wsjt77Fields.isPlausible

def isPlausiblePayload (msg : List UInt8) : Bool := isPlausiblePayloadWithHash msg .new

end MfskCore.Msg
