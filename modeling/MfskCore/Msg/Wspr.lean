import MfskCore.Library.Positional
import MfskCore.Msg.Callsign28

/-! The WSPR 50-bit message (`msg/wspr.rs`). Bytes and `u32` values are naturals; the one place where
a `u32` can wrap, the subtraction in the grid packer, does. The `f32` divisions of the grid
unpacker are of small multiples of their divisors, so they are exact. -/
namespace MfskCore.Msg
open Rust

def POWERS : List Int := [0, 3, 7, 10, 13, 17, 20, 23, 27, 30, 33, 37, 40, 43, 47, 50, 53, 57, 60]

inductive WsprMessage where
  | Type1 (callsign grid : Str) (powerDbm : Int)
  | Type2 (callsign : Str) (powerDbm : Int)
  | Type3 (callsignHash : Nat) (grid6 : Str) (powerDbm : Int)
  deriving DecidableEq

namespace Wspr

def CHAR37 : List Char := "0123456789ABCDEFGHIJKLMNOPQRSTUVWXYZ ".toList

def callsignCharCode (ch : UInt8) : Option Nat :=
  if 48 ≤ ch ∧ ch ≤ 57 then some (ch.toNat - 48)
  else if 65 ≤ ch ∧ ch ≤ 90 then some (ch.toNat - 65 + 10)
  else if ch = 32 then some 36
  else none

def locatorCharCode (ch : UInt8) : Option Nat :=
  if 48 ≤ ch ∧ ch ≤ 57 then some (ch.toNat - 48)
  else if 65 ≤ ch ∧ ch ≤ 82 then some (ch.toNat - 65)
  else if ch = 32 then some 36
  else none

/-- The two fields across seven bytes. -/
def pack50 (n1 n2 : Nat) : List Nat :=
  [(n1 >>> 20) &&& 0xff,(n1 >>> 12) &&& 0xff,(n1 >>> 4) &&& 0xff,
    ((n1 &&& 0x0f) <<< 4) ||| ((n2 >>> 18) &&& 0x0f),(n2 >>> 10) &&& 0xff,(n2 >>> 2) &&& 0xff,
    ((n2 &&& 0x03) <<< 6) &&& 0xff]

def unpack50 (data : List Nat) : Nat × Nat :=
  let d := fun i => data.getD i 0
  ((d 0 <<< 20) ||| (d 1 <<< 12) ||| (d 2 <<< 4) ||| ((d 3 >>> 4) &&& 0x0f),
    ((d 3 &&& 0x0f) <<< 18) ||| (d 4 <<< 10) ||| (d 5 <<< 2) ||| ((d 6 >>> 6) &&& 0x03))

def packCall (callsign : Str) : Option Nat := packCall28 callsign callsignCharCode

def unpackCall (ncall : Nat) : Option Str := unpackCall28 ncall

/-- `u32` subtraction, which wraps below zero. -/
def subU32 (a b : Nat) : Nat := (a + 2^32 - b) % 2^32

def packGrid4Power (grid : Str) (powerDbm : Int) : Option Nat :=
  match asBytes grid with
  | [b0,b1,b2,b3] =>
    (locatorCharCode b0).bind fun g0 =>
    (locatorCharCode b1).bind fun g1 =>
    (locatorCharCode b2).bind fun g2 =>
    (locatorCharCode b3).map fun g3 =>
      let m := (subU32 (subU32 179 (10 * g0)) g2 * 180 + 10 * g1 + g3) % 2^32
      (m * 128 + (powerDbm % 2^32).toNat + 64) % 2^32
  | _ => none

/-- The packer's subtractions stay at or above zero. -/
def NoUnderflow (grid : Str) : Prop :=
  ∀ g0 ∈ (asBytes grid)[0]?.bind locatorCharCode, ∀ g2 ∈ (asBytes grid)[2]?.bind locatorCharCode,
    10 * g0 ≤ 179 ∧ g2 ≤ 179 - 10 * g0

/-- The grid and the type number of the second field. -/
def unpackGrid (ngridFull : Nat) : Option (Str × Int) :=
  let ntype : Int := (ngridFull &&& 127 : Nat) - 64
  let ngrid := ngridFull >>> 7
  if ngrid ≥ 32400 then none
  else
    let dlat : Int := (ngrid % 180 : Nat) - 90
    let dlong : Int := (ngrid / 180 : Nat) * 2 - 180 + 2
    let dlong := if dlong < -180 then dlong + 360 else dlong
    let dlong := if dlong > 180 then dlong + 360 else dlong
    let nlong := 60 * (180 - dlong) / 5
    let ln1 := nlong / 240
    let ln2 := (nlong - 240 * ln1) / 24
    let nlat := 60 * (dlat + 90) * 2 / 5
    let la1 := nlat / 240
    let la2 := (nlat - 240 * la1) / 24
    let char := fun i : Int => CHAR37.getD i.toNat ' '
    some ([char (10 + ln1),char (10 + la1),char ln2,char la2],ntype)

/-- The bytes as fifty bits, most significant first. -/
def wordBits (bytes : List Nat) : List Nat :=
  (List.range 50).map fun i => (bytes.getD (i / 8) 0 >>> (7 - i % 8)) &&& 1

def packType1 (callsign grid : Str) (powerDbm : Int) : Option (List Nat) :=
  if powerDbm ∈ POWERS then
    (packCall callsign).bind fun n1 =>
    (packGrid4Power grid powerDbm).map fun n2 => wordBits (pack50 n1 n2)
  else none

/-- The base call with the prefix or suffix the number names. -/
def applyPrefix ( nprefix : Nat) (baseCall : Str) : Option Str :=
  if nprefix < 60000 then
    let pfx := [ nprefix / 37 / 37 % 37, nprefix / 37 % 37, nprefix % 37].map fun nc => CHAR37.getD nc ' '
    let shown := pfx.dropWhile (· = ' ')
    if shown.isEmpty then none else some (shown ++ '/' :: baseCall)
  else
    let nc := nprefix - 60000
    if nc ≤ 9 then some (baseCall ++ ['/',Char.ofNat (48 + nc)])
    else if nc ≤ 35 then some (baseCall ++ ['/',Char.ofNat (65 + (nc - 10))])
    else if nc ≤ 125 then
      some (baseCall ++ ['/',Char.ofNat (48 + (nc - 26) / 10),Char.ofNat (48 + (nc - 26) % 10)])
    else none

/-- The bytes of the bits; the last one has two. -/
def wordBytes (bits : List Nat) : List Nat :=
  (List.range 7).map fun k =>
    (List.range (min 8 (50 - 8 * k))).foldl (fun byte j =>
      if bits.getD (8 * k + j) 0 &&& 1 ≠ 0 then byte ||| (1 <<< (7 - j)) else byte) 0

/-- The locator of a Type-3 message, whose first character travels last. -/
def rotatedGrid (pseudoCall : Str) : Str :=
  if pseudoCall.length = 6 then pseudoCall.drop 5 ++ pseudoCall.take 5 else []

/-- The message of the two fields. Without a grid there is no type number either. -/
def unpackFields (n1 n2 : Nat) : Option WsprMessage :=
  (unpackGrid n2).bind fun (grid, ntype) =>
    if ntype < 0 then some (.Type3 (n2 >>> 7) (rotatedGrid ((unpackCall n1).getD [])) (-(ntype + 1)))
    else if 0 ≤ ntype ∧ ntype ≤ 62 then
      let nu := ntype % 10
      if nu = 0 ∨ nu = 3 ∨ nu = 7 then (unpackCall n1).map fun callsign => .Type1 callsign grid ntype
      else
        let nadd := if nu > 7 then nu - 7 else if nu > 3 then nu - 3 else nu
        let n3 := (n2 >>> 7) + 32768 * (nadd.toNat - 1)
        (unpackCall n1).bind fun baseCall =>
        (applyPrefix n3 baseCall).bind fun fullCall =>
          let powerDbm := ntype - nadd
          let pu := powerDbm % 10
          if pu ≠ 0 ∧ pu ≠ 3 ∧ pu ≠ 7 then none else some (.Type2 fullCall powerDbm)
    else none

def unpack (bits : List Nat) : Option WsprMessage :=
  let (n1, n2) := unpack50 (wordBytes bits)
  unpackFields n1 n2

end Wspr
end MfskCore.Msg
