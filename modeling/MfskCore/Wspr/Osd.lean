import MfskCore.Fec.Fano
import MfskCore.Fec.SoftDecode
import MfskCore.Library.RowMajor
import MfskCore.Library.WordRow

/-! Ordered-statistics decoding of the WSPR convolutional code (`wspr/osd.rs`), with a byte for each bit of the
generator and with its rows packed into 32-bit words. The sort and the Fano decoder that reads the information
bits off the codeword are parameters. -/
namespace MfskCore.Wspr
open Rust Library

def N : Nat := 162

def K : Nat := 50

/-- `ConvFano::NBITS`. -/
def NBITS : Nat := 81

/-- The information bits, the first of a byte in front, and the zero tail. -/
def packMsgWithTail (info : List UInt8) : List UInt8 :=
  (List.range info.length).foldl (fun packed i =>
    if info.getD i 0 &&& 1 ≠ 0 then packed.modify (i / 8) fun b => b ||| 1 <<< (7 - i % 8).toUInt8 else packed)
    (List.replicate 11 0)

/-- `ConvFano::encode`. -/
def convFanoEncode (info : List UInt8) : List UInt8 := Fec.convEncode (packMsgWithTail info) NBITS

/-- The codewords of the unit vectors. -/
def genMatrix : List (List UInt8) := (List.range K).map fun i => convFanoEncode ((List.replicate K 0).set i 1)

section Received
variable {F : Type} [F32 F] (sorter : SortStable) (llrs : Vector F N)

def hard : List UInt8 := llrs.toList.map fun llr => if llr < 0.0 then 1 else 0

def absllr : List F := llrs.toList.map F32.abs

/-- The positions, the most reliable first. -/
def indices : List Nat :=
  sorter.sortBy (fun a b => partialCmp ((absllr llrs).getD b 0.0) ((absllr llrs).getD a 0.0)) (List.range N)

end Received

/-- The generator, row by row, and what is permuted along with its columns. -/
structure Permuted (Row F : Type) where
  g : List Row
  hardPerm : List UInt8
  absPerm : List F
  perm : List Nat

section Elimination
variable {Row F : Type} [F32 F]

/-- The rows given, and the rest in the same order of columns. -/
def Permuted.ofOrder (llrs : Vector F N) (indices : List Nat) (g : List Row) : Permuted Row F where
  g := g
  hardPerm := indices.map fun src => (hard llrs).getD src 0
  absPerm := indices.map fun src => (absllr llrs).getD src 0.0
  perm := indices

/-- The first column from `id` with a one, not far beyond the basis. -/
def pivotCol (id : Nat) (bit : Nat → UInt8) : Option Nat :=
  (List.range' id (min (K + 20) N - id)).find? fun icol => bit icol == 1

/-- Exchange columns `id` and `icol`, in the rows by `swapRow`. -/
def Permuted.swapColumns (s : Permuted Row F) (id icol : Nat) (swapRow : Row → Row) : Permuted Row F where
  g := s.g.map swapRow
  hardPerm := swapCells 0 s.hardPerm id icol
  absPerm := swapCells 0.0 s.absPerm id icol
  perm := swapCells 0 s.perm id icol

/-- One step of the elimination; without a pivot the decoder gives up. -/
def eliminateColumn (s : Permuted (List UInt8) F) (id : Nat) : Option (Permuted (List UInt8) F) :=
  (pivotCol id fun icol => (s.g.getD id []).getD icol 0).map fun icol =>
    let s := if icol ≠ id then s.swapColumns id icol fun row => swapCells 0 row id icol else s
    let pivotRow := s.g.getD id []
    { s with g := s.g.mapIdx fun row r =>
        if row ≠ id ∧ r.getD id 0 = 1 then List.zipWith (fun x y => x ^^^ y) r pivotRow else r }

end Elimination

section Search
variable {F : Type} [F32 F]

/-- `me[n] ^= 1`. -/
def flipBit (me : List UInt8) (n : Nat) : List UInt8 := me.modify n fun b => b ^^^ 1

/-- The messages tried after `m0`: one bit flipped, then two. -/
def trials (m0 : List UInt8) : List (List UInt8) :=
  (List.range K).map (flipBit m0) ++ (List.range K).flatMap fun n1 =>
    (List.range' (n1 + 1) (K - (n1 + 1))).map fun n2 => flipBit (flipBit m0 n1) n2

/-- Keep a codeword that is strictly nearer than the best. -/
def keepNearer {Word : Type} (encode : List UInt8 → Word) (distance : Word → F) (best : F × Word)
    (me : List UInt8) : F × Word :=
  let cw := encode me
  let d := distance cw
  if d < best.1 then (d,cw) else best

/-- The codeword found by the search around `m0`. -/
def bestCw {Word : Type} (encode : List UInt8 → Word) (distance : Word → F) (m0 : List UInt8) : Word :=
  ((trials m0).foldl (keepNearer encode distance) (distance (encode m0),encode m0)).2

/-- The basis columns are those of the message, the others a sum of rows. -/
def encode (g : List (List UInt8)) (me : List UInt8) : List UInt8 :=
  (List.range K).foldl (fun cw i =>
    if me.getD i 0 = 1 then cw.mapIdx fun c x => if K ≤ c then x ^^^ (g.getD i []).getD c 0 else x else cw)
    (me ++ List.replicate (N - K) 0)

/-- The sum of the reliabilities where a word differs from the hard decisions. -/
def distance (hardPerm : List UInt8) (absPerm : List F) (cw : List UInt8) : F :=
  (List.range N).foldl (fun d i => if cw.getD i 0 ≠ hardPerm.getD i 0 then d + absPerm.getD i 0.0 else d) 0.0

/-- The codeword in the natural order. -/
def cwNatural (perm : List Nat) (bit : Nat → UInt8) : List UInt8 :=
  scatterTo perm.length (fun i => perm.getD i 0) bit (List.replicate N 0)

/-- The information bits read off a codeword that decodes without an error, and the number of positions where
it differs from the hard decisions. -/
def recoverInfo (decodeSoft : List F → Option Fec.FecResult) (hard cw : List UInt8) : Option (List UInt8 × Nat) :=
  (decodeSoft (cw.map fun b => if b = 0 then 127.0 else -127.0)).bind fun res =>
    if res.hardErrors > 0 then none
    else some (res.info,(List.range N).countP fun i => cw.getD i 0 != hard.getD i 0)

end Search

section Plain
variable {F : Type} [F32 F] (sorter : SortStable) (decodeSoft : List F → Option Fec.FecResult)

/-- The generator with its columns in the order of reliability. -/
def permuteColumns (indices : List Nat) : List (List UInt8) :=
  genMatrix.map fun row => indices.map fun src => row.getD src 0

def osdDecode (llrs : Vector F N) : Option (List UInt8 × Nat) :=
  let order := indices sorter llrs
  ((List.range K).foldlM eliminateColumn (.ofOrder llrs order (permuteColumns order))).bind fun s =>
    let best := bestCw (encode s.g) (distance s.hardPerm s.absPerm) (s.hardPerm.take K)
    recoverInfo decodeSoft (hard llrs) (cwNatural s.perm fun i => best.getD i 0)

end Plain

section Packed

/-- `N.div_ceil(32)`. -/
def PACKED_WORDS : Nat := (N + 31) / 32

abbrev Packed : Type := WordRow 32

def getBit (row : Packed) (i : Nat) : UInt8 := ((row.getD (i / 32) 0#32 >>> (i % 32)) &&& 1#32).toNat.toUInt8

def setBit (row : Packed) (i : Nat) (v : UInt8) : Packed := row.write i (v == 1)

def pack (bits : List UInt8) : Packed := WordRow.pack 32 PACKED_WORDS bits.length fun i => bits.getD i 0 == 1

/-- The bits of a column, taken and set in turn. -/
def swapBits (row : Packed) (id icol : Nat) : Packed :=
  let a := getBit row id
  let b := getBit row icol
  setBit (setBit row id b) icol a

/-- The permuted generator, packed as it is permuted. -/
def packColumns (indices : List Nat) : List Packed :=
  genMatrix.map fun row =>
    WordRow.pack 32 PACKED_WORDS indices.length fun out => row.getD (indices.getD out 0) 0 == 1

variable {F : Type} [F32 F]

def eliminateColumnPacked (s : Permuted Packed F) (id : Nat) : Option (Permuted Packed F) :=
  (pivotCol id fun icol => getBit (s.g.getD id []) icol).map fun icol =>
    let s := if icol ≠ id then s.swapColumns id icol fun row => swapBits row id icol else s
    let pivotRow := s.g.getD id []
    { s with g := s.g.mapIdx fun row r => if row ≠ id ∧ getBit r id = 1 then r.xor pivotRow else r }

/-- All columns are sums of rows. -/
def encodePacked (g : List Packed) (me : List UInt8) : Packed :=
  (List.range K).foldl (fun cw i => if me.getD i 0 = 1 then cw.xor (g.getD i []) else cw)
    (WordRow.zero 32 PACKED_WORDS)

/-- The sum over the set bits of the difference, word by word and the lowest first. -/
def distancePacked (hardPermPacked : Packed) (absPerm : List F) (cw : Packed) : F :=
  (List.range PACKED_WORDS).foldl (fun d w =>
    foldSetBits (fun d bit => if w * 32 + bit < N then d + absPerm.getD (w * 32 + bit) 0.0 else d) d
      (cw.getD w 0#32 ^^^ hardPermPacked.getD w 0#32)) 0.0

variable (sorter : SortStable) (decodeSoft : List F → Option Fec.FecResult)

def osdDecodePacked (llrs : Vector F N) : Option (List UInt8 × Nat) :=
  let order := indices sorter llrs
  ((List.range K).foldlM eliminateColumnPacked (.ofOrder llrs order (packColumns order))).bind fun s =>
    let best := bestCw (encodePacked s.g) (distancePacked (pack s.hardPerm) s.absPerm) (s.hardPerm.take K)
    recoverInfo decodeSoft (hard llrs) (cwNatural s.perm fun i => getBit best i)

end Packed

end MfskCore.Wspr
