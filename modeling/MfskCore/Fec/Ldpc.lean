import Mathlib.Data.List.Basic

/-! The WSJT family of LDPC codes (`fec/ldpc/params.rs`, `fec/ldpc/osd.rs`): the parameters a code is
described by, its systematic encoder, and the parity checks of its sparse tables. -/
namespace MfskCore.Fec

/-- The parameters and tables of one code. A row of `GEN_PARITY` is written as the binary number
whose digits are its entries, the first column in front. -/
structure LdpcParams where
  N : Nat
  K : Nat
  M : Nat
  MAX_ROW : Nat
  MN : List (List Nat)
  NM : List (List Nat)
  NRW : List Nat
  GEN_PARITY : List Nat

namespace LdpcParams
variable (P : LdpcParams)

/-- The checks a bit takes part in. -/
def mn (bit : Nat) : List Nat := P.MN.getD bit []

/-- The bit at one slot of a check. -/
def nm (check slot : Nat) : Nat := (P.NM.getD check []).getD slot 0

/-- The number of slots of a check that are in use. -/
def nrw (check : Nat) : Nat := P.NRW.getD check 0

def genParity (row col : Nat) : UInt8 := if (P.GEN_PARITY.getD row 0).testBit (P.K - 1 - col) then 1 else 0

/-- One parity bit of the systematic encoder. -/
def encodeParity (info : List UInt8) (j : Nat) : UInt8 :=
  (List.range P.K).foldl (fun p k => p ^^^ (P.genParity j k &&& info.getD k 0)) 0

/-- The information bits, then the parity bits. -/
def ldpcEncodeGeneric (info : List UInt8) : List UInt8 :=
  info ++ (List.range P.M).map (P.encodeParity info)

/-- The sum of the bits of one check. -/
def checkParity (cw : List UInt8) (i : Nat) : UInt8 :=
  (List.range (P.nrw i)).foldl (fun parity s => parity ^^^ cw.getD (P.nm i s) 0) 0

/-- The number of checks the word violates. -/
def ncheck (cw : List UInt8) : Nat := (List.range P.M).countP fun i => P.checkParity cw i ≠ 0

end LdpcParams

end MfskCore.Fec
