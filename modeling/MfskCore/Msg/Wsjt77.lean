import MfskCore.Msg.HashTable
import MfskCore.Rust.Int32

/-! The 77-bit message unpacker (`msg/wsjt77.rs`): from one bit per byte to fields, and from
fields to the text an operator reads. Unsigned fields are natural numbers, since none of them
reaches the width of its machine word; a payload is read as the source reads a slice of at
least 77 bytes. -/
namespace MfskCore.Msg
open Rust

def C1 : List UInt8 := asBytes " 0123456789ABCDEFGHIJKLMNOPQRSTUVWXYZ/".toList
def C2 : List UInt8 := asBytes "0123456789ABCDEFGHIJKLMNOPQRSTUVWXYZ".toList
def C3 : List UInt8 := asBytes "0123456789".toList
def C4 : List UInt8 := asBytes " ABCDEFGHIJKLMNOPQRSTUVWXYZ".toList
def C38 : List UInt8 := asBytes " 0123456789ABCDEFGHIJKLMNOPQRSTUVWXYZ/".toList
def FREE_TEXT : List UInt8 := asBytes " 0123456789ABCDEFGHIJKLMNOPQRSTUVWXYZ+-./?".toList

def RTTY_STATES : List Str :=
  ["AL","AK","AZ","AR","CA","CO","CT","DE","FL","GA","HI","ID","IL","IN","IA","KS","KY","LA","ME",
   "MD","MA","MI","MN","MS","MO","MT","NE","NV","NH","NJ","NM","NY","NC","ND","OH","OK","OR","PA",
   "RI","SC","SD","TN","TX","UT","VT","VA","WA","WV","WI","WY","NB","NS","QC","ON","MB","SK","AB",
   "BC","NWT","NF","LB","NU","YT","PEI","DC","DR","FR","GD","GR","OV","ZH","ZL","X01","X02","X03",
   "X04","X05","X06","X07","X08","X09","X10","X11","X12","X13","X14","X15","X16","X17","X18","X19",
   "X20","X21","X22","X23","X24","X25","X26","X27","X28","X29","X30","X31","X32","X33","X34","X35",
   "X36","X37","X38","X39","X40","X41","X42","X43","X44","X45","X46","X47","X48","X49","X50","X51",
   "X52","X53","X54","X55","X56","X57","X58","X59","X60","X61","X62","X63","X64","X65","X66","X67",
   "X68","X69","X70","X71","X72","X73","X74","X75","X76","X77","X78","X79","X80","X81","X82","X83",
   "X84","X85","X86","X87","X88","X89","X90","X91","X92","X93","X94","X95","X96","X97","X98",
   "X99"].map String.toList

def ARRL_SECTIONS : List Str :=
  ["AB","AK","AL","AR","AZ","BC","CO","CT","DE","EB","EMA","ENY","EPA","EWA","GA","GH","IA","ID",
   "IL","IN","KS","KY","LA","LAX","NS","MB","MDC","ME","MI","MN","MO","MS","MT","NC","ND","NE",
   "NFL","NH","NL","NLI","NM","NNJ","NNY","TER","NTX","NV","OH","OK","ONE","ONN","ONS","OR","ORG",
   "PAC","PR","QC","RI","SB","SC","SCV","SD","SDG","SF","SFL","SJV","SK","SNJ","STX","SV","TN","UT",
   "VA","VI","VT","WCF","WI","WMA","WNY","WPA","WTX","WV","WWA","WY","DX","PE",
   "NB"].map String.toList

def NTOKENS : Nat := 2063592
def MAX22 : Nat := 4194304
def MAX_GRID4 : Nat := 32400

/-- `b as char`. -/
def asChar (b : UInt8) : Char := Char.ofNat b.toNat

/-- The bit a payload byte carries. -/
def bit (msg : List UInt8) (i : Nat) : Nat := (msg.getD i 0 &&& 1).toNat

/-- `read_bits` and `read_bits_u64`: the most significant bit comes first. -/
def readBits (msg : List UInt8) (start len : Nat) : Nat :=
  (List.range' start len).foldl (fun n i => 2 * n + bit msg i) 0

/-- Big-endian digits of `n`, the first `count` of them from the right, in an alphabet. -/
def fillDigits (alphabet : List UInt8) (base : Nat) : Nat → Nat → List UInt8
  | 0, _ => []
  | count + 1, n => fillDigits alphabet base count (n / base) ++ [alphabet.getD (n % base) 32]

/-- Upper-case hexadecimal, zero-padded. -/
def zeroPaddedHex (w n : Nat) : Str :=
  let d := (Nat.toDigits 16 n).map Char.toUpper
  List.replicate (w - d.length) '0' ++ d

/-- A number as `{}` prints it. -/
def decimal (n : Nat) : Str := Nat.toDigits 10 n

/-- A report has a sign and at least two digits, and an `R` in front when it acknowledges. -/
def fmtReport (isnr : Int) (ir : Nat) : Str :=
  let sign := if isnr ≥ 0 then '+' else '-'
  let ack := if ir = 1 then ['R'] else []
  ack ++ sign :: zeroPadded 2 isnr.natAbs

/-- The text of four or six alphabet bytes. -/
def alphabetText (bytes : List UInt8) : Str := bytes.map asChar

/-- The four letters of a directed CQ, or the placeholder for a code past the alphabet. -/
def directedCq (n : Nat) : Str :=
  let i1 := n / (27 * 27 * 27)
  let n := n % (27 * 27 * 27)
  let i2 := n / (27 * 27)
  let n := n % (27 * 27)
  let i3 := n / 27
  let i4 := n % 27
  if i1 ≥ C4.length || i2 ≥ C4.length || i3 ≥ C4.length || i4 ≥ C4.length then "<?>".toList
  else "CQ ".toList ++ trim (alphabetText
    [C4.getD i1 0, C4.getD i2 0, C4.getD i3 0, C4.getD i4 0])

/-- The six characters of a standard callsign, from their mixed-radix number. -/
def standardCall (n : Nat) : Str :=
  let i1 := n / (36 * 10 * 27 * 27 * 27)
  let n := n % (36 * 10 * 27 * 27 * 27)
  let i2 := n / (10 * 27 * 27 * 27)
  let n := n % (10 * 27 * 27 * 27)
  let i3 := n / (27 * 27 * 27)
  let n := n % (27 * 27 * 27)
  let i4 := n / (27 * 27)
  let n := n % (27 * 27)
  let i5 := n / 27
  let i6 := n % 27
  if i1 ≥ C1.length || i2 ≥ C2.length || i3 ≥ C3.length || i4 ≥ C4.length || i5 ≥ C4.length ||
      i6 ≥ C4.length then "?????".toList
  else trim (alphabetText [C1.getD i1 0, C2.getD i2 0, C3.getD i3 0, C4.getD i4 0, C4.getD i5 0,
    C4.getD i6 0])

/-- A 28-bit callsign token: a word, a hash nobody resolves here, or a standard callsign. -/
def unpack28 (n28 : Nat) : Str :=
  if n28 < NTOKENS then
    if n28 = 0 then "DE".toList
    else if n28 = 1 then "QRZ".toList
    else if n28 = 2 then "CQ".toList
    else if n28 ≤ 1002 then "CQ ".toList ++ zeroPadded 3 (n28 - 3)
    else directedCq (n28 - 1003)
  else if n28 - NTOKENS < MAX22 then "<...>".toList
  else standardCall (n28 - NTOKENS - MAX22)

def UNRESOLVED_HASH : Str := "<...>".toList

/-- A hash is shown as the callsign the table knows for it, in brackets. -/
def bracketed (call : Option Str) : Str :=
  match call with
  | some call => '<' :: call ++ ['>']
  | none => UNRESOLVED_HASH

def unpack28H (n28 : Nat) (ht : CallsignHashTable) : Str :=
  if n28 ≥ NTOKENS && n28 - NTOKENS < MAX22 then bracketed (ht.lookup22 (UInt32.ofNat (n28 - NTOKENS)))
  else unpack28 n28

def resolveHash12 (n12 : Nat) (ht : CallsignHashTable) : Str :=
  bracketed (ht.lookup12 (UInt32.ofNat n12))

def resolveHash22 (n22 : Nat) (ht : CallsignHashTable) : Str :=
  bracketed (ht.lookup22 (UInt32.ofNat n22))

/-- `raw * 10 / 3` rounded to the nearest integer, refused above 60 dBm. -/
def wsprDbm (raw : Nat) : Option Nat :=
  let dbm := (20 * raw + 3) / 6
  if dbm > 60 then none else some dbm

/-- The prefix loop of `wspr_prefix_suffix`: digits from the right until nothing is left. -/
def fillPrefix : Nat → Nat → List UInt8 → List UInt8
  | 0, _, cpfx => cpfx
  | i + 1, n, cpfx =>
    let cpfx := cpfx.set i (C2.getD (n % 36) 0)
    if n / 36 = 0 then cpfx else fillPrefix i (n / 36) cpfx

/-- The 16-bit add-on of a WSPR type-2 message: a prefix below `36^3`, a suffix above it. -/
def wsprPrefixSuffix (npfx : Nat) (call : Str) : Option Str :=
  let nzzz := 46656
  if npfx < nzzz then
    (fromUtf8 (fillPrefix 3 npfx (List.replicate 3 32))).map fun pfx => trim pfx ++ '/' :: call
  else
    let n := npfx - nzzz
    let sfx :=
      if n ≤ 35 then some [C2.getD n 0]
      else if n ≤ 1295 then some [C2.getD (n / 36) 0, C2.getD (n % 36) 0]
      else if n ≤ 12959 then
        some [C2.getD (n / 360) 0, C2.getD (n / 10 % 36) 0, C2.getD (n % 10) 0]
      else none
    sfx.bind fun sfx => (fromUtf8 sfx).map fun sfx => call ++ '/' :: sfx

/-- The `j`-th letter after `A`. -/
def letter (j : Nat) : Char := Char.ofNat ('A'.toNat + j)

/-- The `j`-th digit after `0`. -/
def digit (j : Nat) : Char := Char.ofNat ('0'.toNat + j)

/-- The grid of a WSPR type-3 message; both subsquare digits at 24 stand for a short grid. -/
def toGrid (n : Nat) : Option Str :=
  let j1 := n / (18 * 10 * 10 * 25 * 25)
  if j1 > 17 then none else
  let n := n - j1 * (18 * 10 * 10 * 25 * 25)
  let j2 := n / (10 * 10 * 25 * 25)
  if j2 > 17 then none else
  let n := n - j2 * (10 * 10 * 25 * 25)
  let j3 := n / (10 * 25 * 25)
  if j3 > 9 then none else
  let n := n - j3 * (10 * 25 * 25)
  let j4 := n / (25 * 25)
  if j4 > 9 then none else
  let n := n - j4 * (25 * 25)
  let j5 := n / 25
  let j6 := n - j5 * 25
  if j5 > 24 || j6 > 24 then none
  else
    let g := [letter j1, letter j2, digit j3, digit j4]
    some (if j5 ≠ 24 ∨ j6 ≠ 24 then g ++ [letter j5, letter j6] else g)

/-- The strictly six-character grid of the EU VHF contest message. -/
def toGrid6 (n : Nat) : Option Str :=
  let j1 := n / (18 * 10 * 10 * 24 * 24)
  if j1 > 17 then none else
  let n := n - j1 * (18 * 10 * 10 * 24 * 24)
  let j2 := n / (10 * 10 * 24 * 24)
  if j2 > 17 then none else
  let n := n - j2 * (10 * 10 * 24 * 24)
  let j3 := n / (10 * 24 * 24)
  if j3 > 9 then none else
  let n := n - j3 * (10 * 24 * 24)
  let j4 := n / (24 * 24)
  if j4 > 9 then none else
  let n := n - j4 * (24 * 24)
  let j5 := n / 24
  let j6 := n - j5 * 24
  if j5 > 23 || j6 > 23 then none
  else some [letter j1, letter j2, digit j3, digit j4, letter j5, letter j6]

def toGrid4 (n : Nat) : Option Str :=
  if n > MAX_GRID4 then none else
  let j1 := n / (18 * 10 * 10)
  let n := n % (18 * 10 * 10)
  let j2 := n / (10 * 10)
  let n := n % (10 * 10)
  let j3 := n / 10
  let j4 := n % 10
  if j1 > 17 || j2 > 17 then none
  else some [letter j1, letter j2, digit j3, digit j4]

/-- Thirteen characters of a 42-letter alphabet from 71 bits. -/
def unpackFreeText (msg : List UInt8) : Str :=
  trim ((fromUtf8 (fillDigits FREE_TEXT 42 13 (readBits msg 0 71))).getD [])

/-- A decoded message, field by field. -/
inductive Wsjt77Fields where
  | FreeText (text : Str)
  | DxPedition (call1 call2 call3 report : Str)
  | FieldDay (call1 call2 : Str) (ack : Bool) (transmitters : Nat) (klass : Char) (section_ : Str)
  | Telemetry (hex : Str)
  | Wspr (call tail : Str)
  | Standard (call1 call2 exchange : Str)
  | RttyRoundup (thankYou : Bool) (call1 call2 : Str) (ack : Bool) (rst exchange : Str)
  | Nonstandard (call1 : Str) (call2 : Option Str) (exchange : Str)
  | EuVhfContest (call1 call2 : Str) (ack : Bool) (exchange grid6 : Str)
  deriving DecidableEq

namespace Wsjt77Fields

/-- The callsign fields, in the order they are rendered. -/
def callsigns : Wsjt77Fields → List Str
  | FreeText _ | Telemetry _ => []
  | DxPedition call1 call2 call3 _ => [call1, call2, call3]
  | FieldDay call1 call2 .. | Standard call1 call2 _ | RttyRoundup _ call1 call2 ..
  | EuVhfContest call1 call2 .. => [call1, call2]
  | Wspr call _ => [call]
  | Nonstandard call1 call2 _ => call1 :: call2.toList

/-- `Display`: the fields separated by single blanks. -/
def render : Wsjt77Fields → Str
  | FreeText t | Telemetry t => t
  | DxPedition call1 call2 call3 report =>
    call1 ++ " RR73; ".toList ++ call2 ++ ' ' :: call3 ++ ' ' :: report
  | FieldDay call1 call2 ack transmitters klass section_ =>
    call1 ++ ' ' :: call2 ++ ' ' :: (if ack then "R ".toList else []) ++ decimal transmitters ++
      klass :: ' ' :: section_
  | Wspr call tail => call ++ ' ' :: tail
  | Standard call1 call2 exchange =>
    if exchange.isEmpty then call1 ++ ' ' :: call2 else call1 ++ ' ' :: call2 ++ ' ' :: exchange
  | RttyRoundup thankYou call1 call2 ack rst exchange =>
    (if thankYou then "TU; ".toList else []) ++ call1 ++ ' ' :: call2 ++ ' ' ::
      (if ack then "R ".toList else []) ++ rst ++ ' ' :: exchange
  | Nonstandard call1 none _ => call1
  | Nonstandard call1 (some call2) exchange =>
    if exchange.isEmpty then call1 ++ ' ' :: call2 else call1 ++ ' ' :: call2 ++ ' ' :: exchange
  | EuVhfContest call1 call2 ack exchange grid6 =>
    call1 ++ ' ' :: call2 ++ ' ' :: (if ack then "R ".toList else []) ++ exchange ++ ' ' :: grid6

end Wsjt77Fields

/-- A directed or plain CQ token. -/
def isCq (call : Str) : Bool := call == "CQ".toList || "CQ ".toList.isPrefixOf call

/-- `i3 = 0, n3 = 1`: a roger for one station and a report for another. -/
def unpackDxPedition (msg : List UInt8) (ht : CallsignHashTable) : Option Wsjt77Fields :=
  let n28a := readBits msg 0 28
  let n28b := readBits msg 28 28
  let n10 := readBits msg 56 10
  let irpt : Int := 2 * (readBits msg 66 5 : Int) - 30
  let crpt := (if irpt ≥ 0 then '+' else '-') :: zeroPadded 2 irpt.natAbs
  if n28a ≤ 2 || n28b ≤ 2 then none
  else some (.DxPedition (unpack28H n28a ht) (unpack28H n28b ht)
    (bracketed (ht.lookup10 (UInt32.ofNat n10))) crpt)

/-- `i3 = 0, n3 = 3 | 4`: ARRL Field Day, refused when the section code names none. -/
def unpackFieldDay (msg : List UInt8) (ht : CallsignHashTable) (n3 : Nat) : Option Wsjt77Fields :=
  let n28a := readBits msg 0 28
  let n28b := readBits msg 28 28
  if n28a ≤ 2 || n28b ≤ 2 then none
  else
    let ir := bit msg 56
    let intx := readBits msg 57 4
    let nclass := readBits msg 61 3
    let isec := readBits msg 64 7
    if isec < 1 || isec > ARRL_SECTIONS.length then none
    else some (.FieldDay (unpack28H n28a ht) (unpack28H n28b ht) (ir == 1)
      (intx + 1 + (if n3 = 4 then 16 else 0)) (letter nclass) (ARRL_SECTIONS.getD (isec - 1) []))

/-- `i3 = 0, n3 = 5`: 71 bits in hexadecimal without leading zeros. -/
def unpackTelemetry (msg : List UInt8) : Wsjt77Fields :=
  let hex := zeroPaddedHex 6 (readBits msg 0 23) ++ zeroPaddedHex 6 (readBits msg 23 24) ++
    zeroPaddedHex 6 (readBits msg 47 24)
  .Telemetry (hex.dropWhile (· == '0'))

/-- `i3 = 0, n3 = 6`: the three WSPR types. -/
def unpackWspr (msg : List UInt8) (ht : CallsignHashTable) : Option Wsjt77Fields :=
  let j48 := bit msg 47
  let j49 := bit msg 48
  let j50 := bit msg 49
  if j50 = 1 then
    (wsprDbm (readBits msg 44 5)).bind fun idbm =>
      (wsprPrefixSuffix (readBits msg 28 16) (unpack28H (readBits msg 0 28) ht)).map fun composed =>
        .Wspr composed (decimal idbm)
  else if j49 = 0 then
    (wsprDbm (readBits msg 43 5)).bind fun idbm =>
      (toGrid4 (readBits msg 28 15)).map fun grid =>
        .Wspr (unpack28H (readBits msg 0 28) ht) (grid ++ ' ' :: decimal idbm)
  else if j48 = 0 then
    (toGrid (readBits msg 22 25)).map fun grid =>
      .Wspr (unpack28H (readBits msg 0 22 + NTOKENS) ht) grid
  else none

/-- The exchange of a standard message; a CQ neither acknowledges nor carries a report. -/
def standardExchange (isCq : Bool) (ir igrid : Nat) : Option Str :=
  if igrid ≤ MAX_GRID4 then
    if isCq && ir == 1 then none
    else (toGrid4 igrid).map fun grid => if ir = 0 then grid else "R ".toList ++ grid
  else
    let irpt := igrid - MAX_GRID4
    if isCq && irpt ≥ 2 then none
    else if irpt = 1 then some []
    else if irpt = 2 then some "RRR".toList
    else if irpt = 3 then some "RR73".toList
    else if irpt = 4 then some "73".toList
    else
      let isnr := (irpt : Int) - 35
      let isnr := if isnr > 50 then isnr - 101 else isnr
      some (fmtReport isnr ir)

/-- `i3 = 1 | 2`: the standard message. A suffix flag reads `/R` under type 1, `/P` under type 2,
and is not shown behind a hash nor, on the first call, behind `CQ`. -/
def unpackStandard (msg : List UInt8) (ht : CallsignHashTable) (i3 : Nat) : Option Wsjt77Fields :=
  let n28a := readBits msg 0 28
  let ipa := bit msg 28
  let n28b := readBits msg 29 28
  let ipb := bit msg 57
  let ir := bit msg 58
  let igrid := readBits msg 59 15
  let suffix := if i3 = 1 then "/R".toList else "/P".toList
  let c1 := unpack28H n28a ht
  let c2 := unpack28H n28b ht
  let c1 := if ipa == 1 && !(['<'].isPrefixOf c1) && !("CQ".toList.isPrefixOf c1) then c1 ++ suffix
    else c1
  let c2 := if ipb == 1 && !(['<'].isPrefixOf c2) then c2 ++ suffix else c2
  (standardExchange (isCq c1) ir igrid).map fun report => .Standard c1 c2 report

/-- `i3 = 3`: ARRL RTTY Roundup, with a state or a serial number. -/
def unpackRttyRoundup (msg : List UInt8) (ht : CallsignHashTable) : Option Wsjt77Fields :=
  let itu := bit msg 0
  let n28a := readBits msg 1 28
  let n28b := readBits msg 29 28
  let ir := bit msg 57
  let irpt := readBits msg 58 3
  let nexch := readBits msg 61 13
  let rst := '5' :: decimal (irpt + 2) ++ ['9']
  let exch :=
    if nexch > 8000 && nexch - 8000 ≤ RTTY_STATES.length then
      some (RTTY_STATES.getD (nexch - 8000 - 1) [])
    else if 1 ≤ nexch && nexch ≤ 7999 then some (zeroPadded 4 nexch)
    else none
  exch.map fun exch =>
    .RttyRoundup (itu == 1) (unpack28H n28a ht) (unpack28H n28b ht) (ir == 1) rst exch

/-- `i3 = 4`: one callsign spelled out and one hashed, or a CQ from the one spelled out. -/
def unpackNonstandard (msg : List UInt8) (ht : CallsignHashTable) : Option Wsjt77Fields :=
  let n12 := readBits msg 0 12
  let n58 := readBits msg 12 58
  let iflip := bit msg 70
  let nrpt := readBits msg 71 2
  let icq := bit msg 73
  let nonstd := trim ((fromUtf8 (fillDigits C38 38 11 n58)).getD [])
  if icq = 1 then some (.Nonstandard "CQ".toList (some nonstd) [])
  else
    let hashed := resolveHash12 n12 ht
    let exchange := if nrpt = 0 then some [] else if nrpt = 1 then some "RRR".toList
      else if nrpt = 2 then some "RR73".toList else if nrpt = 3 then some "73".toList else none
    exchange.map fun exchange =>
      if iflip = 0 then .Nonstandard hashed (some nonstd) exchange
      else .Nonstandard nonstd (some hashed) exchange

/-- `i3 = 5`: EU VHF contest, both callsigns hashed. -/
def unpackEuVhfContest (msg : List UInt8) (ht : CallsignHashTable) : Option Wsjt77Fields :=
  let n12 := readBits msg 0 12
  let n22 := readBits msg 12 22
  let ir := bit msg 34
  let irpt := readBits msg 35 3
  let iserial := readBits msg 38 11
  let igrid6 := readBits msg 49 25
  (toGrid6 igrid6).map fun grid =>
    .EuVhfContest (resolveHash12 n12 ht) (resolveHash22 n22 ht) (ir == 1)
      (zeroPadded 2 (52 + irpt) ++ zeroPadded 4 iserial) grid

def unpack77Dispatch (msg : List UInt8) (ht : CallsignHashTable) (i3 n3 : Nat) : Option Wsjt77Fields :=
  match i3 with
  | 0 =>
    match n3 with
    | 0 =>
      let text := unpackFreeText msg
      if text.isEmpty then none else some (.FreeText text)
    | 1 => unpackDxPedition msg ht
    | 5 => some (unpackTelemetry msg)
    | 6 => unpackWspr msg ht
    | 3 | 4 => unpackFieldDay msg ht n3
    | _ => none
  | 1 | 2 => unpackStandard msg ht i3
  | 3 => unpackRttyRoundup msg ht
  | 5 => unpackEuVhfContest msg ht
  | 4 => unpackNonstandard msg ht
  | _ => none

/-- A CQ whose station is a hash was introduced by nobody. -/
def cqFromHash (decoded : Wsjt77Fields) : Bool :=
  match decoded.callsigns with
  | a :: b :: _ => isCq a && ['<'].isPrefixOf b
  | _ => false

/-- The one decode, from bits to fields. -/
def unpack77Fields (msg : List UInt8) (ht : CallsignHashTable) : Option Wsjt77Fields :=
  let n3 := readBits msg 71 3
  let i3 := readBits msg 74 3
  (unpack77Dispatch msg ht i3 n3).bind fun decoded =>
    if cqFromHash decoded then none else some decoded

def unpack77WithHash (msg : List UInt8) (ht : CallsignHashTable) : Option Str :=
  (unpack77Fields msg ht).map Wsjt77Fields.render

def unpack77 (msg : List UInt8) : Option Str := unpack77WithHash msg .new

end MfskCore.Msg
