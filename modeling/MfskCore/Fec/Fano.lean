import MfskCore.Rust.Int32
import Mathlib.Data.List.Basic

/-! The Fano sequential decoder of the rate-1/2, K=32 convolutional code (`fec/conv/fano.rs`),
with the node buffer its pooled form carries from call to call. Path metrics are integers: a path
has at most `nbits` branches of `i32` size, so its `i64` never wraps. -/
namespace MfskCore.Fec
open Rust

def POLY1 : UInt32 := 0xf2d05351
def POLY2 : UInt32 := 0xe4613c47
def K_CONSTRAINT : Nat := 32

/-- `u32::count_ones`. -/
def countOnes (t : UInt32) : Nat := (List.range 32).countP (fun i => t.toNat.testBit i)

/-- Parity of the state masked by one polynomial, folded to a byte first. -/
def polyParity (poly encstate : UInt32) : Nat :=
  let t := encstate &&& poly
  let t := t ^^^ (t >>> 16)
  let t := t ^^^ (t >>> 8)
  countOnes (t &&& 0xff) % 2

/-- The two output bits of an encoder state, the first polynomial's in front. -/
def encodeStep (encstate : UInt32) : Nat := 2 * polyParity POLY1 encstate + polyParity POLY2 encstate

/-- The data bit at `i`, the first bit of a byte in front. -/
def dataBit (data : List UInt8) (i : Nat) : UInt8 := (data.getD (i / 8) 0 >>> (7 - i % 8).toUInt8) &&& 1

/-- One data bit shifted in, and the two bits it sends. -/
def convStep (data : List UInt8) (s : UInt32 × List UInt8) (i : Nat) : UInt32 × List UInt8 :=
  let encstate := s.1 <<< 1 ||| (dataBit data i).toUInt32
  let sym := encodeStep encstate
  (encstate,s.2 ++ [(sym / 2 % 2).toUInt8,(sym % 2).toUInt8])

/-- `conv_encode`, of data that has the bits asked for. -/
def convEncode (data : List UInt8) (nbits : Nat) : List UInt8 :=
  ((List.range nbits).foldl (convStep data) (0,[])).2

structure Node where
  encstate : UInt32
  gamma : Int
  metrics : List Int
  tm : Int × Int
  i : Nat
  deriving DecidableEq

def Node.default : Node := ⟨0,0,[0,0,0,0],(0,0),0⟩

structure FanoDecodeResult where
  data : List UInt8
  metric : Int
  cycles : Nat
  maxNp : Nat
  converged : Bool
  deriving DecidableEq

structure FanoScratch where
  nodes : List Node
  deriving DecidableEq

def FanoScratch.new : FanoScratch := ⟨[]⟩

/-- `nodes[k]`. -/
def node (nodes : List Node) (k : Nat) : Node := nodes.getD k Node.default

/-- The branch metric the node is currently exploring, `tm[i]`. -/
def Node.branch (n : Node) : Int := if n.i = 0 then n.tm.1 else n.tm.2

/-- The four branch-metric sums of every position but the last node. -/
def precompute (nbits : Nat) (bm : List (Int × Int)) (nodes : List Node) : List Node :=
  nodes.mapIdx fun k node =>
    if k < nbits then
      let a := bm.getD (2 * k) (0,0)
      let b := bm.getD (2 * k + 1) (0,0)
      { node with metrics := [wrapI32 (a.1 + b.1),wrapI32 (a.1 + b.2),wrapI32 (a.2 + b.1),
          wrapI32 (a.2 + b.2)] }
    else node

def lastIdx (nbits : Nat) : Nat := nbits - 1
def tailIdx (nbits : Nat) : Nat := nbits - (K_CONSTRAINT - 1)

/-- Order the two branches of a node by metric; the encoder state follows the better one. -/
def Node.orderBranches (n : Node) (lsym : Nat) : Node :=
  let m0 := n.metrics.getD lsym 0
  let m1 := n.metrics.getD (3 ^^^ lsym) 0
  if m0 > m1 then { n with tm := (m0,m1) }
  else { n with tm := (m1,m0),encstate := n.encstate ||| 1 }

/-- The root's branches; its encoder state is the one it came with. -/
def bootstrap (nodes : List Node) : List Node :=
  nodes.modify 0 fun n => { n.orderBranches (encodeStep 0) with i := 0,gamma := 0 }

structure Search where
  nodes : List Node
  np : Nat
  t : Int
  maxNp : Nat
  cycles : Nat
  converged : Bool
  deriving DecidableEq

/-- `while ngamma >= t + delta { t += delta }`. The threshold has `2^32` values, so with that much
fuel `none` is a loop that does not end. -/
def tighten (delta ngamma : Int) : Nat → Int → Option Int
  | 0, _ => none
  | fuel + 1, t => if ngamma ≥ t + delta then tighten delta ngamma fuel (wrapI32 (t + delta)) else some t

/-- The branches of a node entered from below; in the tail only the 0-branch is valid. -/
def Node.enter (n : Node) (inTail : Bool) : Node :=
  let lsym := encodeStep n.encstate
  if inTail then { n with tm := (n.metrics.getD lsym 0,(-2^31 : Int).tdiv 2),i := 0 }
  else { n.orderBranches lsym with i := 0 }

/-- One step forward to node `np + 1`. -/
def forward (nbits : Nat) (s : Search) (ngamma t : Int) : Search :=
  let np := s.np + 1
  let newState := (node s.nodes s.np).encstate <<< 1
  let nodes := s.nodes.modify np fun n => { n with gamma := ngamma,encstate := newState }
  if np > lastIdx nbits then { s with nodes := nodes,np := np,t := t,converged := true }
  else { s with nodes := nodes.modify np (fun n => n.enter (tailIdx nbits ≤ np)),np := np,t := t }

/-- Can't back up: relax the threshold and stay on the best branch. -/
def relax (delta : Int) (s : Search) : Search :=
  { s with
    t := wrapI32 (s.t - delta)
    nodes := s.nodes.modify s.np fun n =>
      if n.i ≠ 0 then { n with i := 0,encstate := n.encstate ^^^ 1 } else n }

/-- Look backward from node `np` for a node whose other branch is still to be tried. -/
def backward (nbits : Nat) (delta : Int) (s : Search) : Nat → Search
  | 0 => relax delta { s with np := 0 }
  | np + 1 =>
    if (node s.nodes np).gamma < s.t then relax delta { s with np := np + 1 }
    else if np < tailIdx nbits ∧ (node s.nodes np).i = 0 then
      { s with
        np := np
        nodes := s.nodes.modify np fun n => { n with i := 1,encstate := n.encstate ^^^ 1 } }
    else backward nbits delta s np

/-- One cycle of the search. -/
def cycle (nbits : Nat) (delta : Int) (s : Search) : Option Search :=
  let s := { s with cycles := s.cycles + 1,maxNp := max s.maxNp s.np }
  let n := node s.nodes s.np
  let ngamma := n.gamma + n.branch
  if ngamma ≥ s.t then
    if n.gamma < s.t + delta then
      (tighten delta ngamma (2^32) s.t).map fun t => forward nbits s ngamma t
    else some (forward nbits s ngamma s.t)
  else some (backward nbits delta s s.np)

/-- The search, as long as cycles are left. -/
def search (nbits : Nat) (delta : Int) : Nat → Search → Option Search
  | 0, s => some s
  | left + 1, s => (cycle nbits delta s).bind fun s =>
    if s.converged then some s else search nbits delta left s

/-- The buffer a call works on: the pooled one if it has the right size. -/
def prepare (scratch : FanoScratch) (bm : List (Int × Int)) (nbits : Nat) : List Node :=
  let nodes := if scratch.nodes.length ≠ nbits + 1 then List.replicate (nbits + 1) Node.default
    else scratch.nodes
  bootstrap (precompute nbits bm nodes)

def result (nbits : Nat) (s : Search) : FanoDecodeResult :=
  { data := (List.range (nbits / 8)).map fun i => (node s.nodes (8 * i + 7)).encstate.toUInt8
    metric := (node s.nodes (min s.np nbits)).gamma
    cycles := s.cycles
    maxNp := s.maxNp
    converged := s.converged }

/-- `none` when the call panics on the length of its input or does not return. -/
def fanoDecodeWithScratch (scratch : FanoScratch) (bm : List (Int × Int)) (nbits : Nat) (delta : Int)
    (maxCyclesPerBit : Nat) : Option (FanoDecodeResult × FanoScratch) :=
  if bm.length ≠ 2 * nbits then none
  else
    let maxCycles := maxCyclesPerBit * nbits % 2^64
    (search nbits delta maxCycles ⟨prepare scratch bm nbits,0,0,0,0,false⟩).map fun s =>
      (result nbits s,⟨s.nodes⟩)

def fanoDecode (bm : List (Int × Int)) (nbits : Nat) (delta : Int) (maxCyclesPerBit : Nat) :
    Option FanoDecodeResult :=
  (fanoDecodeWithScratch .new bm nbits delta maxCyclesPerBit).map Prod.fst

end MfskCore.Fec
