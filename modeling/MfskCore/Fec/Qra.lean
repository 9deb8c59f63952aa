import Mathlib.Data.List.Basic

/-! Q-ary repeat-accumulate codes (`fec/qra/code.rs`, `fec/qra/pdmath.rs`): the encoder, the graph
the decoder passes messages on, and the permutations it applies to them. Symbols and the tables
without a sentinel are natural numbers; `-1` marks an unused entry of an index table. -/
namespace MfskCore.Fec

inductive QraCodeType where
  | Normal
  | Crc
  | CrcPunctured
  | CrcPunctured2
  deriving DecidableEq

/-- The parameters and tables of one code. -/
structure QraCode where
  K : Nat
  N : Nat
  m : Nat
  M : Nat
  a : Nat
  NC : Nat
  V : Nat
  C : Nat
  NMSG : Nat
  MAXVDEG : Nat
  MAXCDEG : Nat
  codeType : QraCodeType
  accInputIdx : List Int
  accInputWlog : List Nat
  gflog : List Int
  gfexp : List Nat
  msgw : List Nat
  vdeg : List Nat
  cdeg : List Nat
  v2cmidx : List Int
  c2vmidx : List Int
  gfpmat : List Nat

namespace QraCode
variable (code : QraCode)

/-- One weighted input into the accumulator. -/
def accumulate (x : List Nat) (chk jj : Nat) : Nat :=
  let t := x.getD (code.accInputIdx.getD jj 0).toNat 0
  if t ≠ 0 then
    let lg := (code.gflog.getD t 0 + (code.accInputWlog.getD jj 0 : Int)) % ((code.M - 1 : Nat) : Int)
    chk ^^^ code.gfexp.getD lg.toNat 0
  else chk

/-- The accumulator over check `k`: one input, or a group with the unused entries skipped. -/
def accumulateCheck (x : List Nat) (chk k : Nat) : Nat :=
  if code.a = 1 then code.accumulate x chk k
  else
    (List.range code.a).foldl (fun chk j =>
      let jj := code.a * k + j
      if code.accInputIdx.getD jj 0 < 0 then chk else code.accumulate x chk jj) chk

/-- The information symbols, then the accumulator after each check. -/
def encode (x : List Nat) : List Nat :=
  ((List.range code.NC).foldl (fun (chk, y) k =>
    let chk := code.accumulateCheck x chk k
    (chk,y ++ [chk])) (0,x)).2

/-- The messages of a variable node: the used entries of its row. -/
def variableEdges (v : Nat) : List Int := (code.v2cmidx.drop (v * code.MAXVDEG)).take (code.vdeg.getD v 0)

/-- The messages of a factor node. -/
def factorEdges (c : Nat) : List Int := (code.c2vmidx.drop (c * code.MAXCDEG)).take (code.cdeg.getD c 0)

/-- The variable a message belongs to: the row of the table that lists it. -/
def edgeVariable (e : Int) : Nat := code.v2cmidx.idxOf e / code.MAXVDEG

/-- The variables of a factor node, each with the logarithm of its weight. -/
def factorTerms (c : Nat) : List (Nat × Nat) :=
  (code.factorEdges c).map fun e => (code.edgeVariable e,code.msgw.getD e.toNat 0)

/-- `gfpmat[logw * M .. (logw + 1) * M]`. -/
def gfpmatRow (logw : Nat) : List Nat := (code.gfpmat.drop (logw * code.M)).take code.M

end QraCode

section Permutation
variable {β : Type} [Inhabited β]

/-- `dst[k] = src[perm[k]]`. -/
def fwdperm (src : List β) (perm : List Nat) : List β := perm.map fun p => src.getD p default

/-- `dst[perm[k]] = src[k]`. -/
def bwdperm (dst src : List β) (perm : List Nat) : List β :=
  src.zipIdx.foldl (fun dst (s, k) => dst.set (perm.getD k 0) s) dst

end Permutation

end MfskCore.Fec
