import MfskCore.Fec.Bp
import MfskCore.Library.BitRow
import MfskCore.Rust.Sort

/-! Ordered-statistics decoding (`fec/ldpc/osd.rs`): the most reliable basis, the search around it, and the
pruned searches of WSJT-X. A byte that holds one bit is a `Bool` until it is returned. -/
namespace MfskCore.Fec
open Rust Library

structure OsdResult where
  message77 : List UInt8
  info : List UInt8
  codeword : List UInt8
  hardErrors : Nat
  deriving DecidableEq

/-- A bit of the generator: the information bits, then the parity bits. -/
def LdpcParams.generator (P : LdpcParams) (row j : Nat) : Bool :=
  if j < P.K then row = j else P.genParity (j - P.K) row = 1

section Elimination

/-- The rows during the elimination, and the pivot columns found. -/
structure Elimination where
  rows : List BitRow
  pivotCol : List Nat

/-- Exchange two rows. -/
def swapRows (rows : List BitRow) (a b : Nat) : List BitRow :=
  (rows.set a (rows.getD b [])).set b (rows.getD a [])

/-- Clear a column in every row but the pivot's. -/
def clearColumn (rows : List BitRow) (pivotRow col : Nat) : List BitRow :=
  let pivot := rows.getD pivotRow []
  rows.mapIdx fun r2 row => if r2 ≠ pivotRow ∧ row.bit col then row.xor pivot else row

/-- One column: the first row with the bit becomes the next pivot row. With all rows in use the loop has
ended. -/
def eliminateColumn (k : Nat) (s : Elimination) (col : Nat) : Elimination :=
  let pivotRow := s.pivotCol.length
  if pivotRow ≥ k then s
  else
    match (List.range' pivotRow (k - pivotRow)).find? fun r => (s.rows.getD r []).bit col with
    | none => s
    | some r => ⟨clearColumn (swapRows s.rows r pivotRow) pivotRow col,s.pivotCol ++ [col]⟩

end Elimination

/-- The order of the columns, the reduced generator in it, row by row, and the column of each pivot. -/
structure OsdBasis where
  perm : List Nat
  g : List Bool
  pivotCol : List Nat

/-- The best candidate so far. -/
structure BestCandidate (F : Type) where
  wd : F
  codeword : List UInt8
  decoded : List UInt8

section Search
variable {F : Type} [F32 F] (P : LdpcParams) (sorter : SortUnstable) (llr : List F)

/-- The positions, the most reliable first. -/
def reliabilityOrder : List Nat :=
  sorter.sortBy (fun a b => partialCmp (F32.abs (llr.getD b 0.0)) (F32.abs (llr.getD a 0.0))) (List.range P.N)

/-- The generator with its columns in the given order, in packed rows. -/
def packedGenerator (perm : List Nat) : List BitRow :=
  (List.range P.K).map fun row =>
    BitRow.pack ((P.N + 63) / 64) P.N fun col => P.generator row (perm.getD col 0)

def eliminate (perm : List Nat) : Elimination :=
  (List.range P.N).foldl (eliminateColumn P.K) ⟨packedGenerator P perm,[]⟩

def osdSetupGenericPacked : Option OsdBasis :=
  let perm := reliabilityOrder P sorter llr
  let s := eliminate P perm
  if s.pivotCol.length < P.K then none
  else some
    { perm := perm
      g := (List.range (P.K * P.N)).map fun i => (s.rows.getD (i / P.N) []).bit (i % P.N)
      pivotCol := s.pivotCol }

def hard (i : Nat) : Bool := llr.getD i 0.0 > 0.0

/-- `OSD_MAX_N` bits. -/
def OSD_WORDS : Nat := 4

namespace OsdBasis
variable (b : OsdBasis)

/-- The hard decision at the pivot of a row. -/
def mrb (r : Nat) : Bool := hard llr (b.perm.getD (b.pivotCol.getD r 0) 0)

/-- A row of the reduced generator, packed again. -/
def gPacked (r : Nat) : BitRow := BitRow.pack OSD_WORDS P.N fun col => b.g.getD (r * P.N + col) false

/-- The word with the hard decisions at the pivots. -/
def orderZero : BitRow :=
  (List.range P.K).foldl (fun c r => if b.mrb llr r then c.xor (b.gPacked P r) else c) (BitRow.zero OSD_WORDS)

def hdecPerm (col : Nat) : Bool := hard llr (b.perm.getD col 0)

def absrxPerm (col : Nat) : F := F32.abs (llr.getD (b.perm.getD col 0) 0.0)

/-- The column of each position. -/
def invPerm : List Nat :=
  scatterTo b.perm.length (fun col => b.perm.getD col 0) (fun col => col) (List.replicate P.N 0)

/-- The information bits of a candidate. -/
def decoded (cp : BitRow) : List UInt8 :=
  (List.range P.K).map fun i => (cp.bit ((b.invPerm P).getD i 0)).toUInt8

/-- A candidate with its bits put back in their positions. -/
def scatter (cp : BitRow) : List UInt8 :=
  scatterTo P.N (fun col => b.perm.getD col 0) (fun col => (cp.bit col).toUInt8) (List.replicate P.N 0)

/-- The sum of the reliabilities where a word differs from the hard decisions. -/
def weightedDistance (word : Nat → Bool) : F :=
  (List.range P.N).foldl (fun wd col =>
    if word col ≠ b.hdecPerm llr col then wd + b.absrxPerm llr col else wd) 0.0

/-- Keep a candidate that passes and is strictly nearer than the best. -/
def tryAndUpdate (verify : Option (List UInt8 → Bool)) (best : Option (BestCandidate F)) (cp : BitRow) :
    Option (BestCandidate F) :=
  if verify.all fun f => f (b.decoded P cp) then
    let wd := b.weightedDistance P llr cp.bit
    if best.all fun best => wd < best.wd then some ⟨wd,b.scatter P cp,b.decoded P cp⟩ else best
  else best

end OsdBasis

/-- The result for the best candidate; its errors are counted against the same observations. -/
def BestCandidate.result (best : BestCandidate F) : OsdResult where
  message77 := best.decoded.take 77
  info := best.decoded
  codeword := best.codeword
  hardErrors := (List.range P.N).countP fun i => (best.codeword.getD i 0 == 1) != hard llr i

/-- The candidates of the nested loops, from the parent's word at each level. -/
def osdCandidates (g : Nat → BitRow) (c : BitRow) (k ndeep k4Limit : Nat) (k4Tail : Bool) : List BitRow :=
  let after (r : Nat) : List Nat := List.range' (r + 1) (k - (r + 1))
  c :: (List.range k).flatMap fun k1 =>
    let c1 := c.xor (g k1)
    c1 :: if ndeep < 2 then [] else (after k1).flatMap fun k2 =>
      let c2 := c1.xor (g k2)
      c2 :: if ndeep < 3 then [] else (after k2).flatMap fun k3 =>
        let c3 := c2.xor (g k3)
        let gate := if k4Tail then decide (k1 ≥ k - k4Limit) else decide (k3 + 1 < k4Limit)
        let k4End := if k4Tail then k else min k4Limit k
        c3 :: if ndeep ≥ 4 ∧ gate then
            (List.range' (k3 + 1) (k4End - (k3 + 1))).map fun k4 => c3.xor (g k4)
          else []

def osdDecodeGeneric (ndeep k4Limit : Nat) (verify : Option (List UInt8 → Bool)) (k4Tail : Bool) :
    Option OsdResult := do
  let b ← osdSetupGenericPacked P sorter llr
  let candidates := osdCandidates (b.gPacked P) (b.orderZero P llr) P.K ndeep k4Limit k4Tail
  let best ← candidates.foldl (b.tryAndUpdate P llr verify) none
  return best.result P llr

end Search

/-- `NPRE1_PARITY_WINDOW`. -/
def NPRE1_PARITY_WINDOW : Nat := 40

/-- The pairs of rows under each key, the last inserted first: what following a bucket's chain gives. -/
abbrev OsdNpre2Table : Type := List (Nat × Nat × Nat)

def OsdNpre2Table.insert (t : OsdNpre2Table) (key i1 i2 : Nat) : OsdNpre2Table := (key, i1, i2) :: t

def OsdNpre2Table.iterPairs (t : OsdNpre2Table) (key : Nat) : List (Nat × Nat) :=
  (t.filter fun entry => entry.1 = key).map fun entry => entry.2

/-- The key of the first `ntau` parity bits, the first in the highest place. -/
def npreKey (ntau : Nat) (parity : Nat → Bool) : Nat :=
  (List.range ntau).foldl (fun key j => if parity j then key ||| 1 <<< (ntau - 1 - j) else key) 0

/-- Every pair of rows, under the sum of their keys. -/
def buildNpre2Table (k ntau : Nat) (parity : Nat → Nat → Bool) : OsdNpre2Table :=
  (List.range k).foldl (fun t i1 =>
    (List.range i1).foldl (fun t i2 => t.insert (npreKey ntau (parity i1) ^^^ npreKey ntau (parity i2)) i1 i2) t)
    []

/-- The pairs of rows looked up for a pattern of parity errors: its own key, then with each bit flipped. -/
def npre2Pairs (t : OsdNpre2Table) (ntau : Nat) (errors : Nat → Bool) (iflag : Nat) : List (Nat × Nat) :=
  let baseKey := npreKey ntau errors
  ((List.range (ntau + 1)).flatMap fun i2 =>
    t.iterPairs (if i2 = 0 then baseKey else baseKey ^^^ 1 <<< (ntau - i2))).filter fun (in1, in2) =>
      !(iflag = in1 || iflag = in2 || in1 = in2)

section Npre
variable {F : Type} [F32 F] (P : LdpcParams) (sorter : SortUnstable) (llr : List F)

/-- The number of parity errors in the window. -/
def parityErr (errors : Nat → Bool) : Nat := (List.range (min NPRE1_PARITY_WINDOW (P.N - P.K))).countP errors

/-- The candidates of the first pass that pass the gate. -/
def npre1Candidates (b : OsdBasis) (ntheta : Nat) : List BitRow :=
  (List.range P.K).reverse.flatMap fun iflag =>
    let ce := (b.orderZero P llr).xor (b.gPacked P iflag)
    let e2sub (j : Nat) : Bool := ce.bit (P.K + j) ^^ b.hdecPerm llr (P.K + j)
    (if parityErr P e2sub < ntheta then [ce] else []) ++
      (List.range iflag).reverse.flatMap fun n1 =>
        let e2 (j : Nat) : Bool := e2sub j ^^ (b.gPacked P n1).bit (P.K + j)
        if parityErr P e2 + 2 > ntheta then [] else [ce.xor (b.gPacked P n1)]

/-- The candidates of the second pass. -/
def npre2Candidates (b : OsdBasis) (ntau : Nat) : List BitRow :=
  let table := buildNpre2Table P.K ntau fun i j => (b.gPacked P i).bit (P.K + j)
  (List.range P.K).reverse.flatMap fun iflag =>
    let ce := (b.orderZero P llr).xor (b.gPacked P iflag)
    (npre2Pairs table ntau (fun j => ce.bit (P.K + j) ^^ b.hdecPerm llr (P.K + j)) iflag).map
      fun (in1, in2) => (ce.xor (b.gPacked P in1)).xor (b.gPacked P in2)

def osdDecodeNpreGeneric (ntheta ntau : Nat) (runNpre2 : Bool) (verify : Option (List UInt8 → Bool)) :
    Option OsdResult := do
  let b ← osdSetupGenericPacked P sorter llr
  let candidates := b.orderZero P llr :: npre1Candidates P llr b ntheta ++
    if runNpre2 then npre2Candidates P llr b ntau else []
  let best ← candidates.foldl (b.tryAndUpdate P llr verify) none
  return best.result P llr

end Npre

end MfskCore.Fec
