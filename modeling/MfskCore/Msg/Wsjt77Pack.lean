import MfskCore.Msg.Wsjt77

/-! The standard-message packer of `msg/wsjt77.rs`: two callsigns and a grid or report into
77 bytes of one bit each. -/
namespace MfskCore.Msg
open Rust

/-- `u8::is_ascii_digit`. -/
def isDigitByte (b : UInt8) : Bool := 48 ≤ b && b ≤ 57

/-- `u8::is_ascii_uppercase`. -/
def isUpperByte (b : UInt8) : Bool := 65 ≤ b && b ≤ 90

/-- `u8::to_ascii_uppercase`. -/
def upperByte (b : UInt8) : UInt8 := if 97 ≤ b && b ≤ 122 then b - 32 else b

/-- Write `len` bits of `val`, most significant first. -/
def writeBits (msg : List UInt8) (start len val : Nat) : List UInt8 :=
  (List.range len).foldl
    (fun m i => m.set (start + i) (UInt8.ofNat ((val >>> (len - 1 - i)) &&& 1))) msg

/-- `CQ NNN` and `CQ XXXX`, from the text behind `CQ `. -/
def packDirectedCq (suffix : Str) : Option Nat :=
  match (parseU32 suffix).filter (· ≤ 999) with
  | some n => some (3 + n)
  | none =>
    let sb := asBytes suffix
    if sb.length ≤ 4 && sb.all isUpperByte then
      let buf := sb ++ List.replicate (4 - sb.length) 32
      (C4.idxOf? (buf.getD 0 0)).bind fun i1 =>
      (C4.idxOf? (buf.getD 1 0)).bind fun i2 =>
      (C4.idxOf? (buf.getD 2 0)).bind fun i3 =>
      (C4.idxOf? (buf.getD 3 0)).bind fun i4 =>
      some (1003 + ((i1 * 27 + i2) * 27 + i3) * 27 + i4)
    else none

/-- The six-byte buffer of a standard callsign, with the digit in third place: left-aligned, or
shifted right by one, where a sixth byte has no room. -/
def alignCall (bytes : List UInt8) : Option (List UInt8) :=
  let upper := bytes.map upperByte
  if bytes.length ≥ 3 && isDigitByte (bytes.getD 2 0) then
    some (upper ++ List.replicate (6 - upper.length) 32)
  else if bytes.length ≥ 2 && isDigitByte (bytes.getD 1 0) then
    some (32 :: upper.take 5 ++ List.replicate (5 - upper.length) 32)
  else none

/-- The mixed-radix number of a standard callsign, past the token and hash ranges. -/
def packStandardCall (bytes : List UInt8) : Option Nat :=
  if bytes.isEmpty || bytes.length > 6 then none
  else (alignCall bytes).bind fun buf =>
    if !isDigitByte (buf.getD 2 0) then none
    else
      (C1.idxOf? (buf.getD 0 0)).bind fun i1 =>
      (C2.idxOf? (buf.getD 1 0)).bind fun i2 =>
      (C3.idxOf? (buf.getD 2 0)).bind fun i3 =>
      (C4.idxOf? (buf.getD 3 0)).bind fun i4 =>
      (C4.idxOf? (buf.getD 4 0)).bind fun i5 =>
      (C4.idxOf? (buf.getD 5 0)).bind fun i6 =>
      some (NTOKENS + MAX22 + (((((i1 * 36 + i2) * 10 + i3) * 27 + i4) * 27 + i5) * 27 + i6))

def pack28 (call : Str) : Option Nat :=
  let call := trim call
  if call = "DE".toList then some 0
  else if call = "QRZ".toList then some 1
  else if call = "CQ".toList then some 2
  else
    match ((stripPrefix "CQ ".toList call).map trim).filter (fun suffix => !suffix.isEmpty) with
    | some suffix => packDirectedCq suffix
    | none => packStandardCall (asBytes call)

/-- A four-character locator: two letters of either case, two digits. -/
def packGrid4 (grid : Str) : Option Nat :=
  let g := asBytes grid
  if g.length ≠ 4 then none
  else
    let j1 := (upperByte (g.getD 0 0) - 65).toNat
    let j2 := (upperByte (g.getD 1 0) - 65).toNat
    let j3 := (g.getD 2 0 - 48).toNat
    let j4 := (g.getD 3 0 - 48).toNat
    if j1 > 17 || j2 > 17 || j3 > 9 || j4 > 9 then none
    else some (((j1 * 18 + j2) * 10 + j3) * 10 + j4)

/-- The base of a callsign, whether it carries a suffix, and whether that suffix is `/P`. -/
def splitRpSuffix (call : Str) : Str × Bool × Bool :=
  let c := trim call
  if byteLen c ≥ 5 then
    match stripSuffix "/P".toList c with
    | some base => (base,true,true)
    | none =>
      match stripSuffix "/R".toList c with
      | some base => (base,true,false)
      | none => (c,false,false)
  else (c,false,false)

/-- The numeric report: whether an `R` stands in front, and its value. -/
def parseReport (report : Str) : Option (Nat × Int) :=
  match stripPrefix ['R'] report with
  | some s => (parseI32 s).map fun snr => (1,snr)
  | none => (parseI32 report).map fun snr => (0,snr)

/-- The 15-bit field and the acknowledgement flag of a trimmed report. -/
def packReport (report : Str) : Option (Nat × Nat) :=
  if report.isEmpty then some (MAX_GRID4 + 1,0)
  else if report = "RRR".toList then some (MAX_GRID4 + 2,0)
  else if report = "RR73".toList then some (MAX_GRID4 + 3,0)
  else if report = "73".toList then some (MAX_GRID4 + 4,0)
  else
    match (if byteLen report = 4 then packGrid4 report else none) with
    | some igrid => some (igrid,0)
    | none =>
      (parseReport report).bind fun (ir,snr) =>
        if ¬(-50 ≤ snr ∧ snr ≤ 49) then none
        else
          let isnr := snr + 35
          let isnr := if isnr < 0 then isnr + 101 else isnr
          some (MAX_GRID4 + isnr.toNat,ir)

/-- The payload of a standard message from its fields. -/
def layout77 (n28a : Nat) (ipa : Bool) (n28b : Nat) (ipb : Bool) (ir igrid i3 : Nat) : List UInt8 :=
  let msg := List.replicate 77 0
  let msg := writeBits msg 0 28 n28a
  let msg := msg.set 28 ipa.toUInt8
  let msg := writeBits msg 29 28 n28b
  let msg := msg.set 57 ipb.toUInt8
  let msg := msg.set 58 (UInt8.ofNat ir)
  let msg := writeBits msg 59 15 igrid
  writeBits msg 74 3 i3

def pack77 (call1 call2 report : Str) : Option (List UInt8) :=
  let (base1,ipa,p1) := splitRpSuffix call1
  let (base2,ipb,p2) := splitRpSuffix call2
  (pack28 base1).bind fun n28a =>
  (pack28 base2).bind fun n28b =>
  let i3 := if p1 || p2 then 2 else 1
  (packReport (trim report)).map fun (igrid,ir) => layout77 n28a ipa n28b ipb ir igrid i3

/-- The base-38 number of the nonstandard call, padded with blanks in front. -/
def packNonstandard (nb : List UInt8) : Option Nat :=
  (List.replicate (11 - nb.length) 32 ++ nb).foldlM (fun n ch => (C38.idxOf? ch).map fun idx => n * 38 + idx) 0

/-- One call spelled out and the hash of another, or a CQ from the one spelled out. -/
def pack77Type4 (nonstd stdCall report : Str) (isCq : Bool) : Option (List UInt8) :=
  let nb := asBytes ((trim nonstd).map Char.toUpper)
  if nb.isEmpty || nb.length > 11 then none
  else if !nb.all (C38.contains ·) then none
  else
    (packNonstandard nb).bind fun n58 =>
    let n12 := if isCq then 0 else (ihashcall stdCall 12).toNat
    let report := trim report
    let nrpt := if report = [] then some 0 else if report = "RRR".toList then some 1
      else if report = "RR73".toList then some 2 else if report = "73".toList then some 3 else none
    nrpt.map fun nrpt =>
    let iflip := if isCq || (pack28 stdCall).isSome then 0 else 1
    let msg := List.replicate 77 0
    let msg := writeBits msg 0 12 n12
    let msg := writeBits msg 12 58 n58
    let msg := msg.set 70 (UInt8.ofNat iflip)
    let msg := writeBits msg 71 2 nrpt
    let msg := msg.set 73 isCq.toUInt8
    writeBits msg 74 3 4

/-- The base-42 number of a free text, padded with blanks behind. -/
def packFreeText (bytes : List UInt8) : Option Nat :=
  (bytes ++ List.replicate (13 - bytes.length) 32).foldlM (fun n ch =>
    (FREE_TEXT.idxOf? ch).map fun idx => n * 42 + idx) 0

/-- Up to thirteen characters of the free-text alphabet; the type bits stay clear. -/
def pack77FreeText (text : Str) : Option (List UInt8) :=
  let bytes := asBytes (text.map Char.toUpper)
  if bytes.isEmpty || bytes.length > 13 then none
  else (packFreeText bytes).map fun n => writeBits (List.replicate 77 0) 0 71 n

end MfskCore.Msg
