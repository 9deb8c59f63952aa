import MfskCore.Library.Machine
import MfskCore.Library.Recency
import MfskCore.Rust.Text

/-! The callsign hash table that resolves `<...>` placeholders (`msg/hash_table.rs`), default
build: two tables indexed by the hash itself and a 22-bit LRU kept in two parallel arrays. -/
namespace MfskCore.Msg
open Rust Library

def c38 : List UInt8 := asBytes " 0123456789ABCDEFGHIJKLMNOPQRSTUVWXYZ/".toList

def hashMagic : UInt64 := 47055833459

/-- The top `m` bits of a multiplicative hash of the first eleven bytes, read in base 38. -/
def ihashcall (call : Str) (m : Nat) : UInt32 :=
  let bytes := asBytes (call.map Char.toUpper)
  let n64 := (List.range 11).foldl (fun (n64 : UInt64) i =>
    let c := bytes.getD i 32
    n64 * 38 + UInt64.ofNat ((c38.idxOf? c).getD 0)) 0
  ((n64 * hashMagic) >>> UInt64.ofNat (64 - m)).toUInt32

/-- One stored callsign, thirteen bytes in place. -/
structure Call13 where
  bytes : List UInt8
  size : bytes.length = 13
  deriving DecidableEq

namespace Call13

def EMPTY : Call13 := ⟨List.replicate 13 0,rfl⟩

def fromStr (s : Str) : Call13 :=
  let b := asBytes s
  let n := min b.length 13
  ⟨b.take n ++ List.replicate (13 - n) 0,by simp; omega⟩

def isEmpty (c : Call13) : Bool := c.bytes.headD 0 == 0

def asStr (c : Call13) : Str :=
  (fromUtf8 (c.bytes.take ((c.bytes.findIdx? (· == 0)).getD 13))).getD []

end Call13

def MAX_HASH22 : Nat := 1000
def N_HASH10 : Nat := 1024
def N_HASH12 : Nat := 4096

structure CallsignHashTable where
  calls10 : Option (List Call13)
  calls12 : Option (List Call13)
  calls22 : Option (List Call13)
  hash22 : Option (List UInt32)
  n22 : Nat
  deriving DecidableEq

/-- The text `insert` learns: trimmed, without brackets and without `/R` or `/P`. -/
def baseCall (call : Str) : Str :=
  let call := trim call
  let call := (stripPrefix ['<'] call).getD call
  let call := (stripSuffix ['>'] call).getD call
  if "/R".toList.isSuffixOf call || "/P".toList.isSuffixOf call then
    call.take (call.length - 2)
  else call

/-- The texts `insert` passes over. -/
def skipsBase (base : Str) : Bool :=
  byteLen base < 2 || base == "...".toList || "CQ".toList.isPrefixOf base

/-- `l[..k].rotate_right(1)`. -/
def rotatePrefix {α : Type} (k : Nat) (l : List α) : List α := (l.take k).rotateRight 1 ++ l.drop k

namespace CallsignHashTable

def new : CallsignHashTable := ⟨none,none,none,none,0⟩

/-- The blocks appear on the first insert and are kept from then on. -/
def allocate (t : CallsignHashTable) : CallsignHashTable :=
  if t.calls10.isNone then
    { t with
      calls10 := some (List.replicate N_HASH10 .EMPTY)
      calls12 := some (List.replicate N_HASH12 .EMPTY)
      calls22 := some (List.replicate MAX_HASH22 .EMPTY)
      hash22 := some (List.replicate MAX_HASH22 0) }
  else t

/-- The 22-bit LRU: refresh in place, or push everything down and take the front. -/
def insert22 (t : CallsignHashTable) (n22 : UInt32) (entry : Call13) : CallsignHashTable :=
  match t.hash22, t.calls22 with
  | some hashes, some calls =>
    match (hashes.take t.n22).findIdx? (· == n22) with
    | some pos =>
      { t with
        hash22 := some (rotatePrefix (pos + 1) hashes)
        calls22 := some (rotatePrefix (pos + 1) (calls.set pos entry)) }
    | none =>
      let live := if t.n22 < MAX_HASH22 then t.n22 + 1 else t.n22
      { t with
        hash22 := some ((rotatePrefix live hashes).set 0 n22)
        calls22 := some ((rotatePrefix live calls).set 0 entry)
        n22 := live }
  | _, _ => t

/-- The tables indexed by the hash take the text, whatever stood in the slot. -/
def setSlot (calls : Option (List Call13)) (n : UInt32) (entry : Call13) : Option (List Call13) :=
  calls.map fun t => t.set n.toNat entry

def insert (t : CallsignHashTable) (call : Str) : CallsignHashTable :=
  let base := baseCall call
  if skipsBase base then t
  else
    let entry := Call13.fromStr base
    let t := t.allocate
    let t := { t with
      calls10 := setSlot t.calls10 (ihashcall base 10) entry
      calls12 := setSlot t.calls12 (ihashcall base 12) entry }
    insert22 t (ihashcall base 22) entry

/-- A slot of a table indexed by the hash itself. -/
def lookupSlot (calls : Option (List Call13)) (n : UInt32) : Option Str :=
  calls.bind fun t => (t[n.toNat]?).bind fun e => if e.isEmpty then none else some e.asStr

def lookup10 (t : CallsignHashTable) (n10 : UInt32) : Option Str := lookupSlot t.calls10 n10

def lookup12 (t : CallsignHashTable) (n12 : UInt32) : Option Str := lookupSlot t.calls12 n12

def lookup22 (t : CallsignHashTable) (n22 : UInt32) : Option Str :=
  t.hash22.bind fun hashes =>
    ((hashes.take t.n22).findIdx? (· == n22)).bind fun pos =>
      t.calls22.bind fun calls => (calls[pos]?).map Call13.asStr

/-- `clear` blanks the texts and forgets the count; the 22-bit hashes stay where they are. -/
def clear (t : CallsignHashTable) : CallsignHashTable :=
  { t with
    calls10 := t.calls10.map (·.map fun _ => .EMPTY)
    calls12 := t.calls12.map (·.map fun _ => .EMPTY)
    calls22 := t.calls22.map (·.map fun _ => .EMPTY)
    n22 := 0 }

def len22 (t : CallsignHashTable) : Nat := t.n22

end CallsignHashTable
end MfskCore.Msg
