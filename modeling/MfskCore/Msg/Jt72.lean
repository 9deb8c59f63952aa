import MfskCore.Library.Positional
import MfskCore.Msg.Callsign28
import Mathlib.Data.Bool.AllAny
import Mathlib.Data.List.GetD

/-! The 72-bit message of JT65 and JT9 (`msg/jt72.rs`): two calls and a grid, report or token in
twelve six-bit words. Bytes and `u32` values are naturals; none of them overflows. -/
namespace MfskCore.Msg
open Rust Library
namespace Jt72

def NGBASE : Nat := 180 * 180

inductive Jt72Message where
  | Standard (call1 call2 gridOrReport : Str)
  | Unsupported (nc1 nc2 ng : Nat)
  deriving DecidableEq

def nchar (c : UInt8) : Option Nat :=
  if 48 ≤ c ∧ c ≤ 57 then some (c.toNat - 48)
  else if 65 ≤ c ∧ c ≤ 90 then some (c.toNat - 65 + 10)
  else if 97 ≤ c ∧ c ≤ 122 then some (c.toNat - 97 + 10)
  else if c = 32 then some 36
  else none

def packCall (call : Str) : Option Nat :=
  if call = "CQ".toList then some (NBASE + 1)
  else if call = "QRZ".toList then some (NBASE + 2)
  else if call = "DE".toList then some 267796945
  else packCall28 call nchar

def unpackCall (ncall : Nat) : Option Str :=
  if ncall = NBASE + 1 then some "CQ".toList
  else if ncall = NBASE + 2 then some "QRZ".toList
  else if ncall = 267796945 then some "DE".toList
  else unpackCall28 ncall

/-- A byte of a range, counted from its start. -/
def inRange (lo hi b : UInt8) : Option Int := if lo ≤ b ∧ b ≤ hi then some ((b.toNat : Int) - lo.toNat) else none

def packGrid4Plain (grid : Str) : Option Nat :=
  match asBytes grid with
  | [b0,b1,b2,b3] =>
    (inRange 65 82 b0).bind fun fl =>
    (inRange 65 82 b1).bind fun fla =>
    (inRange 48 57 b2).bind fun sl =>
    (inRange 48 57 b3).map fun sla =>
      let ngLongPart := 179 - 10 * fl - sl
      let latInt := 10 * fla + sla
      (ngLongPart * 180 + latInt).toNat
  | _ => none

/-- The number behind a sign, when it is a report. -/
def reportNumber (rest : Option Str) : Option Nat :=
  ((rest.bind parseI32).filter fun n => 1 ≤ n ∧ n ≤ 30).map Int.toNat

def packGridOrReport (s : Str) : Option Nat :=
  let other := trimEnd s
  if other = [] then some (NGBASE + 1)
  else if other = "RO".toList then some (NGBASE + 62)
  else if other = "RRR".toList then some (NGBASE + 63)
  else if other = "73".toList then some (NGBASE + 64)
  else match reportNumber (stripPrefix "-".toList other) with
    | some n => some (NGBASE + 1 + n)
    | none => match reportNumber (stripPrefix "R-".toList other) with
      | some n => some (NGBASE + 31 + n)
      | none => packGrid4Plain other

def unpackGrid (ng : Nat) : Str :=
  if ng = NGBASE + 1 then []
  else if ng = NGBASE + 62 then "RO".toList
  else if ng = NGBASE + 63 then "RRR".toList
  else if ng = NGBASE + 64 then "73".toList
  else if ng > NGBASE ∧ ng ≤ NGBASE + 30 + 1 then "-".toList ++ zeroPadded 2 (ng - NGBASE - 1)
  else if ng > NGBASE + 31 ∧ ng ≤ NGBASE + 61 then "R-".toList ++ zeroPadded 2 (ng - NGBASE - 31)
  else if ng < NGBASE then
    let longPart := ng / 180
    let lat := ng % 180
    let flSl := 179 - longPart
    [Char.ofNat (65 + flSl / 10),Char.ofNat (65 + lat / 10),Char.ofNat (48 + flSl % 10),
      Char.ofNat (48 + lat % 10)]
  else "?".toList

def packWords (nc1 nc2 ng : Nat) : List Nat :=
  [(nc1 >>> 22) &&& 0x3f,(nc1 >>> 16) &&& 0x3f,(nc1 >>> 10) &&& 0x3f,(nc1 >>> 4) &&& 0x3f,
    ((nc1 &&& 0xf) <<< 2) ||| ((nc2 >>> 26) &&& 0x3),(nc2 >>> 20) &&& 0x3f,(nc2 >>> 14) &&& 0x3f,
    (nc2 >>> 8) &&& 0x3f,(nc2 >>> 2) &&& 0x3f,((nc2 &&& 0x3) <<< 4) ||| ((ng >>> 12) &&& 0xf),
    (ng >>> 6) &&& 0x3f,ng &&& 0x3f]

def unpackWords (words : List Nat) : Nat × Nat × Nat :=
  let d := fun i => words.getD i 0
  ((d 0 <<< 22) ||| (d 1 <<< 16) ||| (d 2 <<< 10) ||| (d 3 <<< 4) ||| ((d 4 >>> 2) &&& 0xf),
    ((d 4 &&& 0x3) <<< 26) ||| (d 5 <<< 20) ||| (d 6 <<< 14) ||| (d 7 <<< 8) ||| (d 8 <<< 2) |||
      ((d 9 >>> 4) &&& 0x3),
    ((d 9 &&& 0xf) <<< 12) ||| (d 10 <<< 6) ||| d 11)

def packStandard (call1 call2 gridOrReport : Str) : Option (List Nat) :=
  (packCall call1).bind fun nc1 =>
  (packCall call2).bind fun nc2 =>
  (packGridOrReport gridOrReport).map fun ng => packWords nc1 nc2 ng

def unpack (words : List Nat) : Jt72Message :=
  let (nc1, nc2, ng) := unpackWords words
  if ng ≥ 32768 then .Unsupported nc1 nc2 ng
  else match unpackCall nc1, unpackCall nc2 with
    | some call1, some call2 => .Standard call1 call2 (unpackGrid ng)
    | _, _ => .Unsupported nc1 nc2 ng

/-- The fields of a message that the codec reads. -/
structure MessageFields where
  call1 : Option Str
  call2 : Option Str
  grid : Option Str
  freeText : Option Str

namespace Codec

/-- Each word's six bits, most significant first. -/
def wordBits (words : List Nat) : List Nat :=
  words.flatMap fun w => (List.range 6).map fun b => (w >>> (5 - b)) &&& 1

/-- `MessageCodec::pack`. -/
def pack (fields : MessageFields) : Option (List Nat) :=
  fields.call1.bind fun c1 =>
  fields.call2.bind fun c2 =>
    let rep := (fields.grid.or fields.freeText).getD []
    (packStandard c1 c2 rep).map wordBits

/-- The words of the bits. -/
def bitWords (payload : List Nat) : List Nat :=
  (List.range 12).map fun i =>
    (List.range 6).foldl (fun w b => (w <<< 1) ||| (payload.getD (6 * i + b) 0 &&& 1)) 0

/-- `MessageCodec::unpack`. -/
def unpack (payload : List Nat) : Option Jt72Message :=
  if payload.length ≠ 72 then none else some (Jt72.unpack (bitWords payload))

end Codec

section Words

private theorem and_63 (x : Nat) : x &&& 0x3f = x % 64 := Nat.and_two_pow_sub_one_eq_mod x 6

private theorem and_f (x : Nat) : x &&& 0xf = x % 16 := Nat.and_two_pow_sub_one_eq_mod x 4

private theorem and_three (x : Nat) : x &&& 0x3 = x % 4 := Nat.and_two_pow_sub_one_eq_mod x 2

private theorem packWords_eq (nc1 nc2 ng : Nat) :
    packWords nc1 nc2 ng = [nc1 / 2^22 % 64,nc1 / 2^16 % 64,nc1 / 2^10 % 64,nc1 / 2^4 % 64,
      nc1 % 16 * 4 + nc2 / 2^26 % 4,nc2 / 2^20 % 64,nc2 / 2^14 % 64,nc2 / 2^8 % 64,nc2 / 2^2 % 64,
      nc2 % 4 * 16 + ng / 2^12 % 16,ng / 2^6 % 64,ng % 64] := by
  have h4 : (nc1 % 16) <<< 2 ||| (nc2 / 2^26 % 4) = nc1 % 16 * 4 + nc2 / 2^26 % 4 := by
    rw [Nat.shiftLeft_eq]
    exact or_eq_add 2 ⟨nc1 % 16,by omega⟩ (by omega)
  have h9 : (nc2 % 4) <<< 4 ||| (ng / 2^12 % 16) = nc2 % 4 * 16 + ng / 2^12 % 16 := by
    rw [Nat.shiftLeft_eq]
    exact or_eq_add 4 ⟨nc2 % 4,by omega⟩ (by omega)
  simp only [packWords,and_63,and_f,and_three,Nat.shiftRight_eq_div_pow,h4,h9]

private theorem unpackWords_eq {d0 d1 d2 d3 d4 d5 d6 d7 d8 d9 d10 d11 : Nat}
    (h : ∀ d ∈ [d0,d1,d2,d3,d4,d5,d6,d7,d8,d9,d10,d11], d < 64) :
    unpackWords [d0,d1,d2,d3,d4,d5,d6,d7,d8,d9,d10,d11] =
      (d0 * 2^22 + d1 * 2^16 + d2 * 2^10 + d3 * 2^4 + d4 / 2^2,
        d4 % 4 * 2^26 + d5 * 2^20 + d6 * 2^14 + d7 * 2^8 + d8 * 2^2 + d9 / 2^4,
        d9 % 16 * 2^12 + d10 * 2^6 + d11) := by
  simp only [List.mem_cons,List.not_mem_nil,or_false,forall_eq_or_imp,forall_eq] at h
  have e4 : d4 / 2^2 % 16 = d4 / 2^2 := by omega
  have e9 : d9 / 2^4 % 4 = d9 / 2^4 := by omega
  simp only [unpackWords,List.getD_cons_zero,List.getD_cons_succ,and_f,and_three,Nat.shiftRight_eq_div_pow,
    Nat.shiftLeft_eq,e4,e9]
  refine Prod.ext ?_ (Prod.ext ?_ ?_)
  · dsimp only
    rw [or_eq_add (a := _ * _) 22 (by omega) (by omega),or_eq_add (a := _ + _) 16 (by omega) (by omega),
      or_eq_add (a := _ + _) 10 (by omega) (by omega),or_eq_add (a := _ + _) 4 (by omega) (by omega)]
  · dsimp only
    rw [or_eq_add (a := _ * _) 26 (by omega) (by omega),or_eq_add (a := _ + _) 20 (by omega) (by omega),
      or_eq_add (a := _ + _) 14 (by omega) (by omega),or_eq_add (a := _ + _) 8 (by omega) (by omega),
      or_eq_add (a := _ + _) 2 (by omega) (by omega)]
  · dsimp only
    rw [or_eq_add (a := _ * _) 12 (by omega) (by omega),or_eq_add (a := _ + _) 6 (by omega) (by omega)]

theorem packWords_lt (nc1 nc2 ng : Nat) : ∀ d ∈ packWords nc1 nc2 ng, d < 64 := by
  rw [packWords_eq]
  intro d hd
  simp only [List.mem_cons,List.not_mem_nil,or_false] at hd
  omega

/-- Fields in range are read back from their words. -/
theorem unpackWords_packWords {nc1 nc2 ng : Nat} (h1 : nc1 < 2^28) (h2 : nc2 < 2^28) (hg : ng < 2^16) :
    unpackWords (packWords nc1 nc2 ng) = (nc1,nc2,ng) := by
  have hlt := packWords_lt nc1 nc2 ng
  rw [packWords_eq] at hlt ⊢
  rw [unpackWords_eq hlt]
  refine Prod.ext ?_ (Prod.ext ?_ ?_)
  · dsimp only
    omega
  · dsimp only
    omega
  · dsimp only
    omega

/-- Six-bit words are the words of their fields. -/
theorem packWords_unpackWords {words : List Nat} (hlen : words.length = 12) (h : ∀ d ∈ words, d < 64) :
    packWords (unpackWords words).1 (unpackWords words).2.1 (unpackWords words).2.2 = words := by
  match words, hlen with
  | [d0,d1,d2,d3,d4,d5,d6,d7,d8,d9,d10,d11], _ =>
    rw [unpackWords_eq h,packWords_eq]
    simp only [List.mem_cons,List.not_mem_nil,or_false,forall_eq_or_imp,forall_eq] at h
    simp only [List.cons.injEq,and_true]
    refine ⟨?_,?_,?_,?_,?_,?_,?_,?_,?_,?_,?_,?_⟩ <;> omega

private theorem word_of_bits : ∀ w < 64, (List.range 6).foldl (fun x b =>
    (x <<< 1) ||| (((w >>> (5 - b)) &&& 1) &&& 1)) 0 = w := by
  decide

private theorem length_wordBits (words : List Nat) : (Codec.wordBits words).length = 6 * words.length := by
  induction words with
  | nil => rfl
  | cons w words ih =>
    rw [Codec.wordBits,List.flatMap_cons,List.length_append,← Codec.wordBits,ih]
    simp
    omega

private theorem getD_wordBits (words : List Nat) {i b : Nat} (hi : i < words.length) (hb : b < 6) :
    (Codec.wordBits words).getD (6 * i + b) 0 = (words.getD i 0 >>> (5 - b)) &&& 1 := by
  induction words generalizing i with
  | nil => cases hi
  | cons w words ih =>
    have hlen : ((List.range 6).map fun b => (w >>> (5 - b)) &&& 1).length = 6 := by simp
    rw [Codec.wordBits,List.flatMap_cons,← Codec.wordBits]
    cases i with
    | zero =>
      rw [List.getD_append _ _ _ _ (by omega),List.getD_eq_getElem _ _ (by omega)]
      simp
    | succ i =>
      rw [List.getD_append_right _ _ _ _ (by omega),hlen,List.getD_cons_succ,
        ← ih (Nat.lt_of_succ_lt_succ hi)]
      congr 1
      omega

/-- The codec's bits carry the words. -/
theorem bitWords_wordBits {words : List Nat} (hlen : words.length = 12) (h : ∀ d ∈ words, d < 64) :
    Codec.bitWords (Codec.wordBits words) = words := by
  apply List.ext_getElem
  · simp [Codec.bitWords,hlen]
  · intro i hi hi'
    have hget : words.getD i 0 = words[i] := List.getD_eq_getElem _ _ hi'
    simp only [Codec.bitWords,List.getElem_map,List.getElem_range]
    rw [← word_of_bits words[i] (h _ (List.getElem_mem hi'))]
    apply List.foldl_ext
    intro w b hb
    rw [getD_wordBits words hi' (List.mem_range.mp hb),hget]

end Words

section Calls

private theorem nchar_reads : ∀ n < 256, ∀ v, nchar (UInt8.ofNat n) = some v →
    n < 128 ∧ v < 37 ∧ callChar v = (Char.ofNat n).toUpper := by
  have h : ∀ n < 256, (nchar (UInt8.ofNat n)).all (fun v => decide (n < 128 ∧ v < 37 ∧
      callChar v = (Char.ofNat n).toUpper)) = true := by decide +kernel
  intro n hn v hv
  have hv' := h n hn
  rw [hv] at hv'
  exact of_decide_eq_true hv'

theorem readsAlphabet_nchar : ReadsAlphabet nchar := by
  intro b v h
  obtain ⟨hb,hv⟩ := nchar_reads b.toNat b.toNat_lt v (by rwa [UInt8.ofNat_toNat])
  exact ⟨UInt8.lt_iff_toNat_lt.mpr hb,hv⟩

/-- The form in which a call is shown: trimmed, in capitals. -/
def canonicalCall (call : Str) : Str := (trim call).map Char.toUpper

/-- A call or token that packs is unpacked in its canonical form. -/
theorem unpackCall_packCall {call : Str} {nc : Nat} (h : packCall call = some nc) :
    nc < 2^28 ∧ unpackCall nc = some (canonicalCall call) := by
  unfold packCall at h
  split at h
  · rename_i hc
    obtain rfl := Option.some.inj h
    subst hc
    decide
  · split at h
    · rename_i hc
      obtain rfl := Option.some.inj h
      subst hc
      decide
    · split at h
      · rename_i hc
        obtain rfl := Option.some.inj h
        subst hc
        decide
      · obtain ⟨hlt,hunpack⟩ := unpackCall28_packCall28 readsAlphabet_nchar h
        unfold NBASE at hlt
        refine ⟨by omega,?_⟩
        unfold unpackCall
        rw [if_neg (by unfold NBASE; omega),if_neg (by unfold NBASE; omega),if_neg (by omega),hunpack]
        rfl

end Calls

section Report

/-- The form in which a grid, report or token is shown: reports in two digits. -/
def canonicalReport (s : Str) : Str :=
  match reportNumber (stripPrefix "-".toList (trimEnd s)) with
  | some n => "-".toList ++ zeroPadded 2 n
  | none => match reportNumber (stripPrefix "R-".toList (trimEnd s)) with
    | some n => "R-".toList ++ zeroPadded 2 n
    | none => trimEnd s

private theorem reportNumber_bounds {rest : Option Str} {n : Nat} (h : reportNumber rest = some n) :
    1 ≤ n ∧ n ≤ 30 := by
  obtain ⟨m,hm,rfl⟩ := Option.map_eq_some_iff.mp h
  have hbounds := (Option.filter_eq_some_iff.mp hm).2
  rw [decide_eq_true_eq] at hbounds
  omega

private theorem inRange_some {lo hi b : UInt8} {v : Int} (h : inRange lo hi b = some v) :
    lo.toNat ≤ b.toNat ∧ b.toNat ≤ hi.toNat ∧ v = b.toNat - lo.toNat := by
  unfold inRange at h
  split at h
  · rename_i hb
    exact ⟨hb.1,hb.2,(Option.some.inj h).symm⟩
  · cases h

/-- A locator that packs is its cell's. -/
private theorem unpackGrid_plain {grid : Str} {ng : Nat} (h : packGrid4Plain grid = some ng) :
    ng < NGBASE ∧ unpackGrid ng = grid := by
  unfold packGrid4Plain at h
  split at h
  · rename_i b0 b1 b2 b3 hbytes
    obtain ⟨fl,hfl,h⟩ := Option.bind_eq_some_iff.mp h
    obtain ⟨fla,hfla,h⟩ := Option.bind_eq_some_iff.mp h
    obtain ⟨sl,hsl,h⟩ := Option.bind_eq_some_iff.mp h
    obtain ⟨sla,hsla,h⟩ := Option.map_eq_some_iff.mp h
    obtain ⟨l0,u0,rfl⟩ := inRange_some hfl
    obtain ⟨l1,u1,rfl⟩ := inRange_some hfla
    obtain ⟨l2,u2,rfl⟩ := inRange_some hsl
    obtain ⟨l3,u3,rfl⟩ := inRange_some hsla
    simp only [UInt8.reduceToNat] at l0 u0 l1 u1 l2 u2 l3 u3 h
    have hback := fromUtf8_ascii (b := asBytes grid) (by
      rw [hbytes]
      intro x hx
      simp only [List.mem_cons,List.not_mem_nil,or_false] at hx
      rw [UInt8.lt_iff_toNat_lt]
      rcases hx with rfl | rfl | rfl | rfl
      · exact Nat.lt_of_le_of_lt u0 (by decide)
      · exact Nat.lt_of_le_of_lt u1 (by decide)
      · exact Nat.lt_of_le_of_lt u2 (by decide)
      · exact Nat.lt_of_le_of_lt u3 (by decide))
    rw [fromUtf8_asBytes,hbytes] at hback
    have hgrid := Option.some.inj hback
    have hng : ng = (179 - 10 * (b0.toNat - 65) - (b2.toNat - 48)) * 180 +
        (10 * (b1.toNat - 65) + (b3.toNat - 48)) := by omega
    have hlt : ng < NGBASE := by
      unfold NGBASE
      omega
    have hq : 179 - ng / 180 = 10 * (b0.toNat - 65) + (b2.toNat - 48) := by omega
    have hlat : ng % 180 = 10 * (b1.toNat - 65) + (b3.toNat - 48) := by omega
    have e0 : 65 + (10 * (b0.toNat - 65) + (b2.toNat - 48)) / 10 = b0.toNat := by omega
    have e1 : 65 + (10 * (b1.toNat - 65) + (b3.toNat - 48)) / 10 = b1.toNat := by omega
    have e2 : 48 + (10 * (b0.toNat - 65) + (b2.toNat - 48)) % 10 = b2.toNat := by omega
    have e3 : 48 + (10 * (b1.toNat - 65) + (b3.toNat - 48)) % 10 = b3.toNat := by omega
    refine ⟨hlt,?_⟩
    unfold unpackGrid
    rw [if_neg (by omega),if_neg (by omega),if_neg (by omega),if_neg (by omega),if_neg (by omega),
      if_neg (by omega),if_pos hlt]
    simp only [hq,hlat,e0,e1,e2,e3]
    exact hgrid.symm
  · cases h

/-- The third field is below the free-text bit and is unpacked in its canonical form. -/
theorem unpackGrid_packGridOrReport {s : Str} {ng : Nat} (h : packGridOrReport s = some ng) :
    ng < 32768 ∧ unpackGrid ng = canonicalReport s := by
  unfold packGridOrReport at h
  unfold canonicalReport
  generalize trimEnd s = t at h ⊢
  dsimp only at h
  split at h
  · rename_i ht
    obtain rfl := Option.some.inj h
    subst ht
    decide
  · split at h
    · rename_i ht
      obtain rfl := Option.some.inj h
      subst ht
      decide
    · split at h
      · rename_i ht
        obtain rfl := Option.some.inj h
        subst ht
        decide
      · split at h
        · rename_i ht
          obtain rfl := Option.some.inj h
          subst ht
          decide
        · have hbase : NGBASE = 32400 := rfl
          split at h
          · rename_i n hn
            obtain rfl := Option.some.inj h
            obtain ⟨hlo,hhi⟩ := reportNumber_bounds hn
            have hsub : NGBASE + 1 + n - NGBASE - 1 = n := by omega
            refine ⟨by omega,?_⟩
            unfold unpackGrid
            rw [if_neg (by omega),if_neg (by omega),if_neg (by omega),if_neg (by omega),if_pos (by omega),hsub]
          · split at h
            · rename_i n hr
              obtain rfl := Option.some.inj h
              obtain ⟨hlo,hhi⟩ := reportNumber_bounds hr
              have hsub : NGBASE + 31 + n - NGBASE - 31 = n := by omega
              refine ⟨by omega,?_⟩
              unfold unpackGrid
              rw [if_neg (by omega),if_neg (by omega),if_neg (by omega),if_neg (by omega),
                if_neg (by omega),if_pos (by omega),hsub]
            · obtain ⟨hlt,hgrid⟩ := unpackGrid_plain h
              exact ⟨by omega,hgrid⟩

end Report

section Message

/-- The message that three accepted fields stand for. -/
def canonical (call1 call2 gridOrReport : Str) : Jt72Message :=
  .Standard (canonicalCall call1) (canonicalCall call2) (canonicalReport gridOrReport)

/-- An accepted message: its words have six bits and are unpacked in canonical form. -/
theorem unpack_packStandard {call1 call2 gridOrReport : Str} {words : List Nat}
    (h : packStandard call1 call2 gridOrReport = some words) :
    words.length = 12 ∧ (∀ d ∈ words, d < 64) ∧ unpack words = canonical call1 call2 gridOrReport := by
  obtain ⟨nc1,h1,h⟩ := Option.bind_eq_some_iff.mp h
  obtain ⟨nc2,h2,h⟩ := Option.bind_eq_some_iff.mp h
  obtain ⟨ng,hg,rfl⟩ := Option.map_eq_some_iff.mp h
  obtain ⟨hlt1,hcall1⟩ := unpackCall_packCall h1
  obtain ⟨hlt2,hcall2⟩ := unpackCall_packCall h2
  obtain ⟨hltg,hgrid⟩ := unpackGrid_packGridOrReport hg
  refine ⟨rfl,packWords_lt nc1 nc2 ng,?_⟩
  rw [unpack,unpackWords_packWords hlt1 hlt2 (by omega)]
  dsimp only
  rw [if_neg (by omega),hcall1,hcall2,hgrid]
  rfl

theorem codec_unpack_pack {fields : MessageFields} {call1 call2 : Str} {bits : List Nat}
    (h1 : fields.call1 = some call1) (h2 : fields.call2 = some call2) (h : Codec.pack fields = some bits) :
    Codec.unpack bits = some (canonical call1 call2 ((fields.grid.or fields.freeText).getD [])) := by
  unfold Codec.pack at h
  rw [h1,h2] at h
  obtain ⟨words,hwords,rfl⟩ := Option.map_eq_some_iff.mp h
  obtain ⟨hlen,hlt,hunpack⟩ := unpack_packStandard hwords
  have h72 : (Codec.wordBits words).length = 72 := by rw [length_wordBits,hlen]
  rw [Codec.unpack,if_neg (not_not_intro h72),bitWords_wordBits hlen hlt,hunpack]

/-- The round trip of the 72-bit message: through the words and through the bits of the codec; the word
layout is a bijection; and equal words stand for equal messages. -/
theorem jt72_round_trip :
    (∀ call1 call2 gridOrReport words, packStandard call1 call2 gridOrReport = some words →
      unpack words = canonical call1 call2 gridOrReport) ∧
    (∀ fields call1 call2 bits, fields.call1 = some call1 → fields.call2 = some call2 →
      Codec.pack fields = some bits →
      Codec.unpack bits = some (canonical call1 call2 ((fields.grid.or fields.freeText).getD []))) ∧
    (∀ nc1 < 2^28, ∀ nc2 < 2^28, ∀ ng < 2^16, unpackWords (packWords nc1 nc2 ng) = (nc1,nc2,ng)) ∧
    (∀ words : List Nat, words.length = 12 → (∀ d ∈ words, d < 64) →
      packWords (unpackWords words).1 (unpackWords words).2.1 (unpackWords words).2.2 = words) ∧
    ∀ call1 call2 r call1' call2' r' words, packStandard call1 call2 r = some words →
      packStandard call1' call2' r' = some words → canonical call1 call2 r = canonical call1' call2' r' := by
  refine ⟨fun _ _ _ _ h => (unpack_packStandard h).2.2,fun _ _ _ _ h1 h2 h => codec_unpack_pack h1 h2 h,
    fun _ h1 _ h2 _ hg => unpackWords_packWords h1 h2 hg,fun _ hlen h => packWords_unpackWords hlen h,?_⟩
  intro call1 call2 r call1' call2' r' words h h'
  exact (unpack_packStandard h).2.2.symm.trans (unpack_packStandard h').2.2

/-- A report in one digit and a lower-case call are shown in canonical form. -/
theorem jt72_round_trip_report :
    ∃ words bits, packStandard "CQ".toList "k9an".toList "R-5 ".toList = some words ∧
      unpack words = .Standard "CQ".toList "K9AN".toList "R-05".toList ∧
      Codec.pack ⟨some "K1ABC".toList,some "JA1ABC".toList,some "PM95".toList,none⟩ = some bits ∧
      Codec.unpack bits = some (.Standard "K1ABC".toList "JA1ABC".toList "PM95".toList) ∧
      packWords (unpackWords words).1 (unpackWords words).2.1 (unpackWords words).2.2 = words := by
  obtain ⟨words,hwords⟩ := Option.isSome_iff_exists.mp
    (show (packStandard "CQ".toList "k9an".toList "R-5 ".toList).isSome = true by decide)
  obtain ⟨bits,hbits⟩ := Option.isSome_iff_exists.mp (show (Codec.pack
    ⟨some "K1ABC".toList,some "JA1ABC".toList,some "PM95".toList,none⟩).isSome = true by decide)
  have hcanon : canonical "CQ".toList "k9an".toList "R-5 ".toList =
      .Standard "CQ".toList "K9AN".toList "R-05".toList := by decide
  have hcanon' : canonical "K1ABC".toList "JA1ABC".toList "PM95".toList =
      .Standard "K1ABC".toList "JA1ABC".toList "PM95".toList := by decide
  obtain ⟨hlen,hlt,_⟩ := unpack_packStandard hwords
  refine ⟨words,bits,hwords,(jt72_round_trip.1 _ _ _ _ hwords).trans hcanon,hbits,?_,
    jt72_round_trip.2.2.2.1 words hlen hlt⟩
  rw [jt72_round_trip.2.1 _ _ _ _ rfl rfl hbits]
  exact congrArg some hcanon'

end Message

end Jt72
end MfskCore.Msg
