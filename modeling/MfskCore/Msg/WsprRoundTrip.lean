import MfskCore.Msg.Wspr
import Mathlib.Data.Bool.AllAny
import Mathlib.Data.List.GetD

/-! What the receiver makes of a WSPR word. The two fields survive the fifty bits, so everything is
said of the fields; the grid unpacker refuses the top of the range of the number it shares with
hashes and compound calls. -/
namespace MfskCore.Msg
open Rust Library
namespace Wspr

section Word

private theorem and_255 (x : Nat) : x &&& 0xff = x % 256 := Nat.and_two_pow_sub_one_eq_mod x 8

private theorem and_15 (x : Nat) : x &&& 0x0f = x % 16 := Nat.and_two_pow_sub_one_eq_mod x 4

private theorem and_3 (x : Nat) : x &&& 0x03 = x % 4 := Nat.and_two_pow_sub_one_eq_mod x 2

/-- The bytes of the two fields, as arithmetic. -/
private theorem pack50_eq (n1 n2 : Nat) :
    pack50 n1 n2 = [n1 / 2^20 % 256,n1 / 2^12 % 256,n1 / 2^4 % 256,n1 % 16 * 16 + n2 / 2^18 % 16,
      n2 / 2^10 % 256,n2 / 2^2 % 256,n2 % 4 * 64] := by
  have hor : (n1 % 16) <<< 4 ||| (n2 / 2^18 % 16) = n1 % 16 * 16 + n2 / 2^18 % 16 := by
    rw [Nat.shiftLeft_eq]
    exact or_eq_add 4 ⟨n1 % 16,by omega⟩ (by omega)
  have hlast : (n2 % 4) <<< 6 % 256 = n2 % 4 * 64 := by
    rw [Nat.shiftLeft_eq]
    omega
  simp only [pack50,and_255,and_15,and_3,Nat.shiftRight_eq_div_pow,hor,hlast]

private theorem unpack50_pack50 {n1 n2 : Nat} (h1 : n1 < 2^28) (h2 : n2 < 2^22) :
    unpack50 (pack50 n1 n2) = (n1,n2) := by
  rw [pack50_eq]
  simp only [unpack50,List.getD_cons_zero,List.getD_cons_succ,and_15,and_3,Nat.shiftRight_eq_div_pow,
    Nat.shiftLeft_eq]
  refine Prod.ext ?_ ?_
  · dsimp only
    rw [or_eq_add (a := _ * _) 20 (by omega) (by omega),or_eq_add (a := _ + _) 12 (by omega) (by omega),
      or_eq_add (a := _ + _) 4 (by omega) (by omega)]
    omega
  · dsimp only
    rw [or_eq_add (a := _ * _) 18 (by omega) (by omega),or_eq_add (a := _ + _) 10 (by omega) (by omega),
      or_eq_add (a := _ + _) 2 (by omega) (by omega)]
    omega

/-- A byte is put together from its bits. -/
private theorem byte_of_bits : ∀ b < 256, (List.range 8).foldl (fun byte j =>
    if ((b >>> (7 - j)) &&& 1) &&& 1 ≠ 0 then byte ||| (1 <<< (7 - j)) else byte) 0 = b := by
  decide +kernel

private theorem last_byte_of_bits : ∀ b < 256, b % 64 = 0 → (List.range 2).foldl (fun byte j =>
    if ((b >>> (7 - j)) &&& 1) &&& 1 ≠ 0 then byte ||| (1 <<< (7 - j)) else byte) 0 = b := by
  decide +kernel

private theorem getD_wordBits (bytes : List Nat) {i : Nat} (hi : i < 50) :
    (wordBits bytes).getD i 0 = (bytes.getD (i / 8) 0 >>> (7 - i % 8)) &&& 1 := by
  rw [wordBits,List.getD_eq_getElem _ _ (by simpa using hi)]
  simp

/-- One byte read back from the bits. -/
private theorem wordByte (bytes : List Nat) (k len : Nat) (hlen : 8 * k + len ≤ 50) (hlen8 : len ≤ 8) :
    (List.range len).foldl (fun byte j =>
      if (wordBits bytes).getD (8 * k + j) 0 &&& 1 ≠ 0 then byte ||| (1 <<< (7 - j)) else byte) 0 =
    (List.range len).foldl (fun byte j =>
      if ((bytes.getD k 0 >>> (7 - j)) &&& 1) &&& 1 ≠ 0 then byte ||| (1 <<< (7 - j)) else byte) 0 := by
  apply List.foldl_ext
  intro byte j hj
  have hj := List.mem_range.mp hj
  have hdiv : (8 * k + j) / 8 = k := by omega
  have hmod : (8 * k + j) % 8 = j := by omega
  rw [getD_wordBits bytes (by omega),hdiv,hmod]

private theorem wordBytes_wordBits {b0 b1 b2 b3 b4 b5 b6 : Nat}
    (h : ∀ b ∈ [b0,b1,b2,b3,b4,b5,b6], b < 256) (h6 : b6 % 64 = 0) :
    wordBytes (wordBits [b0,b1,b2,b3,b4,b5,b6]) = [b0,b1,b2,b3,b4,b5,b6] := by
  have hfull (k : Nat) (hk : k < 6) := wordByte [b0,b1,b2,b3,b4,b5,b6] k 8 (by omega) le_rfl
  have hlast := wordByte [b0,b1,b2,b3,b4,b5,b6] 6 2 (by omega) (by omega)
  have hrange : List.range 7 = [0,1,2,3,4,5,6] := by decide
  simp only [List.mem_cons,List.not_mem_nil,or_false,forall_eq_or_imp,forall_eq] at h
  obtain ⟨h0,h1,h2,h3,h4,h5,hb6⟩ := h
  simp only [wordBytes,hrange,List.map_cons,List.map_nil]
  have e (k : Nat) (hk : k < 6) : min 8 (50 - 8 * k) = 8 := by omega
  rw [e 0 (by omega),e 1 (by omega),e 2 (by omega),e 3 (by omega),e 4 (by omega),e 5 (by omega),
    show min 8 (50 - 8 * 6) = 2 from rfl,hfull 0 (by omega),hfull 1 (by omega),hfull 2 (by omega),
    hfull 3 (by omega),hfull 4 (by omega),hfull 5 (by omega),hlast]
  simp only [List.getD_cons_zero,List.getD_cons_succ]
  rw [byte_of_bits b0 h0,byte_of_bits b1 h1,byte_of_bits b2 h2,byte_of_bits b3 h3,byte_of_bits b4 h4,
    byte_of_bits b5 h5,last_byte_of_bits b6 hb6 h6]

/-- The word of two fields in range is read as these fields. -/
theorem unpack_word {n1 n2 : Nat} (h1 : n1 < 2^28) (h2 : n2 < 2^22) :
    unpack (wordBits (pack50 n1 n2)) = unpackFields n1 n2 := by
  have hback := unpack50_pack50 h1 h2
  rw [pack50_eq] at hback ⊢
  unfold unpack
  rw [wordBytes_wordBits _ (by omega),hback]
  intro b hb
  simp only [List.mem_cons,List.not_mem_nil,or_false] at hb
  omega

end Word

section Call

/-- What the table reads is a slot value shown as the same character, which is its own capital. -/
private theorem callsignCharCode_reads : ∀ n < 256, ∀ v, callsignCharCode (UInt8.ofNat n) = some v →
    n < 128 ∧ v < 37 ∧ callChar v = Char.ofNat n ∧ (Char.ofNat n).toUpper = Char.ofNat n := by
  have h : ∀ n < 256, (callsignCharCode (UInt8.ofNat n)).all (fun v => decide (n < 128 ∧ v < 37 ∧
      callChar v = Char.ofNat n ∧ (Char.ofNat n).toUpper = Char.ofNat n)) = true := by decide +kernel
  intro n hn v hv
  have hv' := h n hn
  rw [hv] at hv'
  exact of_decide_eq_true hv'

private theorem callsignCharCode_byte {b : UInt8} {v : Nat} (h : callsignCharCode b = some v) :
    b < 128 ∧ v < 37 ∧ callChar v = Char.ofNat b.toNat ∧
      (Char.ofNat b.toNat).toUpper = Char.ofNat b.toNat := by
  have hb := callsignCharCode_reads b.toNat b.toNat_lt v (by rwa [UInt8.ofNat_toNat])
  exact ⟨UInt8.lt_iff_toNat_lt.mpr hb.1,hb.2⟩

theorem readsAlphabet_callsignCharCode : ReadsAlphabet callsignCharCode := by
  intro b v h
  obtain ⟨hb,hv,hchar,hupper⟩ := callsignCharCode_byte h
  exact ⟨hb,hv,hchar.trans hupper.symm⟩

/-- A call that packs is unpacked as it was, without the blanks around it. -/
theorem unpackCall_packCall {call : Str} {n1 : Nat} (h : packCall call = some n1) :
    n1 < 2^28 ∧ unpackCall n1 = some (trim call) := by
  obtain ⟨hlt,hunpack⟩ := unpackCall28_packCall28 readsAlphabet_callsignCharCode h
  have hupper : call.map Char.toUpper = call := by
    have hreads := packCall28_reads h
    have hascii : isAscii call := isAscii_of_asBytes fun b hb => by
      obtain ⟨v,hv⟩ := hreads b hb
      exact (callsignCharCode_byte hv).1
    have hbytes := asBytes_ascii hascii
    refine (List.map_congr_left fun c hc => ?_).trans (List.map_id call)
    have hc128 : c.toNat < 128 := by simpa using List.all_eq_true.mp hascii c hc
    have hmem : UInt8.ofNat c.toNat ∈ asBytes call := by
      rw [hbytes]
      exact List.mem_map_of_mem hc
    obtain ⟨v,hv⟩ := hreads _ hmem
    have hsame := (callsignCharCode_byte hv).2.2.2
    rw [UInt8.toNat_ofNat_of_lt' (Nat.lt_trans hc128 (by decide)),Char.ofNat_toNat] at hsame
    exact hsame
  refine ⟨?_,?_⟩
  · unfold NBASE at hlt
    omega
  · rw [unpackCall,hunpack,← trim_map_toUpper,hupper]

end Call

section Grid

/-- Two letters from A to R and two digits. -/
def isLocator : Str → Bool
  | [a,b,c,d] => ('A' ≤ a && a ≤ 'R') && ('A' ≤ b && b ≤ 'R') && isAsciiDigit c && isAsciiDigit d
  | _ => false

/-- The locator of a cell, counted from the east and from the south. -/
def cellLocator (ngrid : Nat) : Str :=
  [CHAR37.getD (10 + (179 - ngrid / 180) / 10) ' ',CHAR37.getD (10 + ngrid % 180 / 10) ' ',
    CHAR37.getD ((179 - ngrid / 180) % 10) ' ',CHAR37.getD (ngrid % 180 % 10) ' ']

/-- The grid unpacker, with its detour through degrees taken out. -/
theorem unpackGrid_eq (n2 : Nat) :
    unpackGrid n2 =
      if n2 / 128 ≥ 32400 then none else some (cellLocator (n2 / 128),((n2 % 128 : Nat) : Int) - 64) := by
  have hshift : n2 >>> 7 = n2 / 128 := Nat.shiftRight_eq_div_pow n2 7
  have hand : n2 &&& 127 = n2 % 128 := Nat.and_two_pow_sub_one_eq_mod n2 7
  unfold unpackGrid
  simp only [hshift,hand]
  split
  · rfl
  · rename_i hlt
    have hlow : ¬ ((n2 / 128 / 180 : Nat) * 2 - 180 + 2 : Int) < -180 := by omega
    have hhigh : ¬ ((n2 / 128 / 180 : Nat) * 2 - 180 + 2 : Int) > 180 := by omega
    simp only [hlow,hhigh,if_false]
    have hq : n2 / 128 / 180 < 180 := by omega
    have hlat : n2 / 128 % 180 < 180 := by omega
    unfold cellLocator
    generalize n2 / 128 / 180 = q at hq
    generalize n2 / 128 % 180 = lat at hlat
    have hlon : 60 * (180 - ((q : Int) * 2 - 180 + 2)) / 5 = 24 * (179 - q) := by omega
    have hla : 60 * ((lat : Int) - 90 + 90) * 2 / 5 = 24 * lat := by omega
    have e0 : (10 + 24 * (179 - (q : Int)) / 240).toNat = 10 + (179 - q) / 10 := by omega
    have e1 : (10 + 24 * (lat : Int) / 240).toNat = 10 + lat / 10 := by omega
    have e2 : ((24 * (179 - (q : Int)) - 240 * (24 * (179 - (q : Int)) / 240)) / 24).toNat =
        (179 - q) % 10 := by omega
    have e3 : ((24 * (lat : Int) - 240 * (24 * (lat : Int) / 240)) / 24).toNat = lat % 10 := by omega
    simp only [hlon,hla,e0,e1,e2,e3]

private theorem letter_cell : ∀ k < 18, 'A' ≤ CHAR37.getD (10 + k) ' ' ∧ CHAR37.getD (10 + k) ' ' ≤ 'R' := by
  decide

private theorem digit_cell : ∀ k < 10, isAsciiDigit (CHAR37.getD k ' ') = true := by
  decide

theorem isLocator_cellLocator {ngrid : Nat} (h : ngrid < 32400) : isLocator (cellLocator ngrid) = true := by
  obtain ⟨h0,h0'⟩ := letter_cell ((179 - ngrid / 180) / 10) (by omega)
  obtain ⟨h1,h1'⟩ := letter_cell (ngrid % 180 / 10) (by omega)
  have h2 := digit_cell ((179 - ngrid / 180) % 10) (by omega)
  have h3 := digit_cell (ngrid % 180 % 10) (by omega)
  simp only [isLocator,cellLocator,h0,h0',h1,h1',h2,h3,decide_true,Bool.and_self]

private theorem letter_code {c : Char} (h : 'A' ≤ c ∧ c ≤ 'R') :
    c.toNat < 128 ∧ ∃ k < 18, locatorCharCode (UInt8.ofNat c.toNat) = some k ∧
      CHAR37.getD (10 + k) ' ' = c := by
  have hlo : 65 ≤ c.toNat := h.1
  have hhi : c.toNat ≤ 82 := h.2
  have hcode : ∀ n < 83, 65 ≤ n → locatorCharCode (UInt8.ofNat n) = some (n - 65) ∧
      CHAR37.getD (10 + (n - 65)) ' ' = Char.ofNat n := by decide
  obtain ⟨hc,hchar⟩ := hcode c.toNat (by omega) hlo
  rw [Char.ofNat_toNat] at hchar
  exact ⟨by omega,c.toNat - 65,by omega,hc,hchar⟩

private theorem digit_code {c : Char} (h : isAsciiDigit c = true) :
    c.toNat < 128 ∧ ∃ k < 10, locatorCharCode (UInt8.ofNat c.toNat) = some k ∧ CHAR37.getD k ' ' = c := by
  rw [isAsciiDigit,Bool.and_eq_true,decide_eq_true_eq,decide_eq_true_eq] at h
  have hlo : 48 ≤ c.toNat := h.1
  have hhi : c.toNat ≤ 57 := h.2
  have hcode : ∀ n < 58, 48 ≤ n → locatorCharCode (UInt8.ofNat n) = some (n - 48) ∧
      CHAR37.getD (n - 48) ' ' = Char.ofNat n := by decide
  obtain ⟨hc,hchar⟩ := hcode c.toNat (by omega) hlo
  rw [Char.ofNat_toNat] at hchar
  exact ⟨by omega,c.toNat - 48,by omega,hc,hchar⟩

/-- A locator names a cell, and is packed as its number without a wrap. -/
theorem packGrid4Power_locator {grid : Str} (h : isLocator grid = true) {power : Int} (hp : 0 ≤ power)
    (hp' : power ≤ 60) :
    NoUnderflow grid ∧ ∃ ngrid < 32400, grid = cellLocator ngrid ∧
      packGrid4Power grid power = some (ngrid * 128 + (power.toNat + 64)) := by
  unfold isLocator at h
  split at h
  · rename_i a b c d
    simp only [Bool.and_eq_true,decide_eq_true_eq] at h
    obtain ⟨⟨⟨ha,hb⟩,hc⟩,hd⟩ := h
    obtain ⟨ha128,fl,hfl,hca,rfl⟩ := letter_code ha
    obtain ⟨hb128,fla,hfla,hcb,rfl⟩ := letter_code hb
    obtain ⟨hc128,sl,hsl,hcc,rfl⟩ := digit_code hc
    obtain ⟨hd128,sla,hsla,hcd,rfl⟩ := digit_code hd
    have hbytes := asBytes_ascii (s := [CHAR37.getD (10 + fl) ' ',CHAR37.getD (10 + fla) ' ',
      CHAR37.getD sl ' ',CHAR37.getD sla ' ']) (by
        simp only [isAscii,List.all_cons,List.all_nil,ha128,hb128,hc128,hd128,decide_true,Bool.and_self])
    simp only [List.map_cons,List.map_nil] at hbytes
    refine ⟨?_,(179 - 10 * fl - sl) * 180 + 10 * fla + sla,by omega,?_,?_⟩
    · unfold NoUnderflow
      rw [hbytes]
      simp only [List.getElem?_cons_zero,List.getElem?_cons_succ,Option.bind_some,hca,hcc,Option.mem_some_iff]
      omega
    · have hq : ((179 - 10 * fl - sl) * 180 + 10 * fla + sla) / 180 = 179 - 10 * fl - sl := by omega
      have hlat : ((179 - 10 * fl - sl) * 180 + 10 * fla + sla) % 180 = 10 * fla + sla := by omega
      have e0 : (179 - (179 - 10 * fl - sl)) / 10 = fl := by omega
      have e1 : (10 * fla + sla) / 10 = fla := by omega
      have e2 : (179 - (179 - 10 * fl - sl)) % 10 = sl := by omega
      have e3 : (10 * fla + sla) % 10 = sla := by omega
      rw [cellLocator,hq,hlat,e0,e1,e2,e3]
    · have hsub : subU32 (subU32 179 (10 * fl)) sl = 179 - 10 * fl - sl := by
        unfold subU32
        omega
      have hpow : (power % 2^32).toNat = power.toNat := by omega
      unfold packGrid4Power
      rw [hbytes]
      simp only [hca,hcb,hcc,hcd,Option.bind_some,Option.map_some,hsub,hpow,Option.some.injEq]
      omega
  · cases h

end Grid

section Type1

/-- The inputs the Type-1 packer takes. -/
def Accepts (callsign grid : Str) (powerDbm : Int) : Prop :=
  powerDbm ∈ POWERS ∧ (packCall callsign).isSome ∧ (asBytes grid).length = 4 ∧
    ∀ b ∈ asBytes grid, (locatorCharCode b).isSome

private theorem packGrid4Power_isSome (grid : Str) (powerDbm : Int) :
    (packGrid4Power grid powerDbm).isSome ↔
      (asBytes grid).length = 4 ∧ ∀ b ∈ asBytes grid, (locatorCharCode b).isSome := by
  unfold packGrid4Power
  split
  · rename_i b0 b1 b2 b3 hbytes
    rw [hbytes]
    cases h0 : locatorCharCode b0 <;> cases h1 : locatorCharCode b1 <;> cases h2 : locatorCharCode b2 <;>
      cases h3 : locatorCharCode b3 <;> simp [h0,h1,h2,h3]
  · rename_i hne
    refine ⟨fun h => absurd h (by simp),?_⟩
    rintro ⟨hlen,_⟩
    obtain ⟨b0,b1,b2,b3,hbytes⟩ := List.length_eq_four.mp hlen
    exact absurd hbytes (hne b0 b1 b2 b3)

theorem packType1_isSome (callsign grid : Str) (powerDbm : Int) :
    (packType1 callsign grid powerDbm).isSome ↔ Accepts callsign grid powerDbm := by
  unfold packType1 Accepts
  rw [← packGrid4Power_isSome grid powerDbm]
  split
  · rename_i hp
    cases packCall callsign <;> simp [hp]
  · rename_i hp
    simp [hp]

private theorem powers_cases : ∀ p ∈ POWERS, 0 ≤ p ∧ p ≤ 60 ∧ (p % 10 = 0 ∨ p % 10 = 3 ∨ p % 10 = 7) := by
  decide

/-- A grid that a Type-1 message shows is a locator, whatever was packed. -/
theorem unpackFields_type1 {n1 n2 : Nat} {callsign grid : Str} {powerDbm : Int}
    (h : unpackFields n1 n2 = some (.Type1 callsign grid powerDbm)) : isLocator grid = true := by
  unfold unpackFields at h
  obtain ⟨⟨g,ntype⟩,hgrid,h⟩ := Option.bind_eq_some_iff.mp h
  rw [unpackGrid_eq] at hgrid
  split at hgrid
  · cases hgrid
  · rename_i hlt
    obtain ⟨rfl,_⟩ := Prod.mk.inj (Option.some.inj hgrid)
    have hlocator := isLocator_cellLocator (Nat.not_le.mp hlt)
    dsimp only at h
    split at h
    · cases h
    · split at h
      · split at h
        · obtain ⟨call,_,heq⟩ := Option.map_eq_some_iff.mp h
          injection heq with _ hg _
          exact hg ▸ hlocator
        · obtain ⟨base,_,h⟩ := Option.bind_eq_some_iff.mp h
          obtain ⟨full,_,h⟩ := Option.bind_eq_some_iff.mp h
          obtain ⟨_,h⟩ := Option.ite_none_left_eq_some.mp h
          cases h
      · cases h

/-- The round trip of one packed message: no subtraction below zero, and the same three fields. -/
def Type1RoundTrips (callsign grid : Str) (powerDbm : Int) : Prop :=
  ∀ bits, packType1 callsign grid powerDbm = some bits →
    NoUnderflow grid ∧ unpack bits = some (.Type1 (trim callsign) grid powerDbm)

private theorem type1_locator {callsign grid : Str} {powerDbm : Int} (hg : isLocator grid = true) :
    Type1RoundTrips callsign grid powerDbm := by
  intro bits hbits
  unfold packType1 at hbits
  split at hbits
  · rename_i hp
    obtain ⟨n1,hn1,hbits⟩ := Option.bind_eq_some_iff.mp hbits
    obtain ⟨n2,hn2,rfl⟩ := Option.map_eq_some_iff.mp hbits
    obtain ⟨hp0,hp60,hdigit⟩ := powers_cases powerDbm hp
    obtain ⟨hsub,ngrid,hlt,rfl,hpack⟩ := packGrid4Power_locator hg hp0 hp60
    obtain rfl := Option.some.inj (hpack.symm.trans hn2)
    obtain ⟨h1,hcall⟩ := unpackCall_packCall hn1
    refine ⟨hsub,?_⟩
    have hdiv : (ngrid * 128 + (powerDbm.toNat + 64)) / 128 = ngrid := by omega
    have hmod : (((ngrid * 128 + (powerDbm.toNat + 64)) % 128 : Nat) : Int) - 64 = powerDbm := by omega
    rw [unpack_word h1 (by omega),unpackFields,unpackGrid_eq,hdiv,hmod,if_neg (Nat.not_le.mpr hlt)]
    simp only [Option.bind_some,hcall,Option.map_some]
    rw [if_neg (Int.not_lt.mpr hp0),if_pos ⟨hp0,by omega⟩,if_pos hdigit]
  · cases hbits

/-- The packer meets its round trip exactly on locators and on the inputs it does not take, and
refuses what is no locator on the same inputs. -/
theorem type1_roundTrips_iff (callsign grid : Str) (powerDbm : Int) :
    (Type1RoundTrips callsign grid powerDbm ↔
      (isLocator grid = true ∨ ¬ Accepts callsign grid powerDbm)) ∧
    ((isLocator grid = false → packType1 callsign grid powerDbm = none) ↔
      (isLocator grid = true ∨ ¬ Accepts callsign grid powerDbm)) := by
  rw [← packType1_isSome,Option.not_isSome_iff_eq_none]
  refine ⟨⟨?_,?_⟩,⟨?_,?_⟩⟩
  · intro h
    cases hbits : packType1 callsign grid powerDbm with
    | none => exact Or.inr rfl
    | some bits => exact Or.inl (unpackFields_type1 (h bits hbits).2)
  · rintro (hg | hnone)
    · exact type1_locator hg
    · intro bits hbits
      rw [hnone] at hbits
      cases hbits
  · intro h
    cases hg : isLocator grid with
    | true => exact Or.inl rfl
    | false => exact Or.inr (h hg)
  · rintro (hg | hnone)
    · exact fun h => absurd (hg.symm.trans h) (by simp)
    · exact fun _ => hnone

/-- Digits in the place of letters pack as the letters of the same values. -/
theorem type1_digits_for_letters :
    ¬ Type1RoundTrips "K1ABC".toList "00FF".toList 37 ∧ isLocator "00FF".toList = false ∧
      (packType1 "K1ABC".toList "00FF".toList 37).bind unpack =
        some (.Type1 "K1ABC".toList "AA55".toList 37) := by
  have hread : (packType1 "K1ABC".toList "00FF".toList 37).bind unpack =
      some (.Type1 "K1ABC".toList "AA55".toList 37) := by decide
  refine ⟨?_,by decide,hread⟩
  intro h
  obtain ⟨bits,hbits,hunpack⟩ := Option.bind_eq_some_iff.mp hread
  have hsame := (h bits hbits).2
  rw [hunpack] at hsame
  exact absurd hsame (by decide)

end Type1

section Affix

/-- What stands beside the slash of a compound call: up to three characters in front, or a character
or a two-digit number behind. -/
inductive Affix where
  | front (s : Str)
  | back (c : Char)
  | backNumber (n : Nat)

namespace Affix

/-- The affixes the number can name: no blank in front, a letter or a digit, ten to ninety-nine. -/
def Valid : Affix → Prop
  | front s => s.length ≤ 3 ∧ (∀ c ∈ s, c ∈ CHAR37) ∧ ∃ c ∈ s.head?, c ≠ ' '
  | back c => c ∈ CHAR37 ∧ c ≠ ' '
  | backNumber n => 10 ≤ n ∧ n ≤ 99

def render (base : Str) : Affix → Str
  | front s => s ++ '/' :: base
  | back c => base ++ ['/',c]
  | backNumber n => base ++ ['/',Char.ofNat (48 + n / 10),Char.ofNat (48 + n % 10)]

/-- The 16-bit number of the affix, in the layout of `apply_prefix`. -/
def code : Affix → Nat
  | front s => (List.replicate (3 - s.length) ' ' ++ s).foldl (fun n c => 37 * n + CHAR37.idxOf c) 0
  | back c => 60000 + CHAR37.idxOf c
  | backNumber n => 60000 + 26 + n

end Affix

private theorem getD_idxOf {c : Char} (h : c ∈ CHAR37) : CHAR37.getD (CHAR37.idxOf c) ' ' = c := by
  rw [List.getD_eq_getElem _ _ (List.idxOf_lt_length_of_mem h),List.getElem_idxOf]

private theorem idxOf_lt {c : Char} (h : c ∈ CHAR37) : CHAR37.idxOf c < 37 := List.idxOf_lt_length_of_mem h

/-- Three characters of the table are the digits of their number. -/
private theorem prefixDigits {a b c : Char} (ha : a ∈ CHAR37) (hb : b ∈ CHAR37) (hc : c ∈ CHAR37) :
    let n := [a,b,c].foldl (fun n c => 37 * n + CHAR37.idxOf c) 0
    n < 50653 ∧ [n / 37 / 37 % 37,n / 37 % 37,n % 37].map (fun nc => CHAR37.getD nc ' ') = [a,b,c] := by
  have h0 := idxOf_lt ha
  have h1 := idxOf_lt hb
  have h2 := idxOf_lt hc
  simp only [List.foldl_cons,List.foldl_nil,List.map_cons,List.map_nil]
  have d0 : (37 * (37 * (37 * 0 + CHAR37.idxOf a) + CHAR37.idxOf b) + CHAR37.idxOf c) / 37 / 37 % 37 =
      CHAR37.idxOf a := by omega
  have d1 : (37 * (37 * (37 * 0 + CHAR37.idxOf a) + CHAR37.idxOf b) + CHAR37.idxOf c) / 37 % 37 =
      CHAR37.idxOf b := by omega
  have d2 : (37 * (37 * (37 * 0 + CHAR37.idxOf a) + CHAR37.idxOf b) + CHAR37.idxOf c) % 37 =
      CHAR37.idxOf c := by omega
  rw [d0,d1,d2,getD_idxOf ha,getD_idxOf hb,getD_idxOf hc]
  exact ⟨by omega,rfl⟩

private theorem applyPrefix_front {s : Str} (base : Str) (h : (Affix.front s).Valid) :
    (Affix.front s).code < 50653 ∧ applyPrefix (Affix.front s).code base = some (s ++ '/' :: base) := by
  obtain ⟨hlen,hall,first,hfirst,hblank⟩ := h
  have hspace : ' ' ∈ CHAR37 := by decide
  obtain ⟨a,b,c,hpad⟩ := List.length_eq_three.mp
    (show (List.replicate (3 - s.length) ' ' ++ s).length = 3 by simp; omega)
  have hmem : ∀ x ∈ [a,b,c], x ∈ CHAR37 := by
    rw [← hpad]
    intro x hx
    rcases List.mem_append.mp hx with hx | hx
    · rw [List.eq_of_mem_replicate hx]
      exact hspace
    · exact hall x hx
  obtain ⟨hlt,hdigits⟩ := prefixDigits (hmem a (by simp)) (hmem b (by simp)) (hmem c (by simp))
  have hshown : ([a,b,c] : Str).dropWhile (· = ' ') = s := by
    rw [← hpad,List.dropWhile_append_of_pos (by simp)]
    cases s with
    | nil => cases hfirst
    | cons x s =>
      obtain rfl : x = first := by simpa using hfirst
      simp [hblank]
  have hne : s.isEmpty = false := by
    cases s with
    | nil => cases hfirst
    | cons x s => rfl
  rw [Affix.code,hpad]
  refine ⟨hlt,?_⟩
  rw [applyPrefix,if_pos (by omega)]
  dsimp only at hdigits ⊢
  rw [hdigits,hshown,hne]
  rfl

private theorem applyPrefix_back {c : Char} (base : Str) (h : (Affix.back c).Valid) :
    (Affix.back c).code < 60126 ∧ 60000 ≤ (Affix.back c).code ∧
      applyPrefix (Affix.back c).code base = some (base ++ ['/',c]) := by
  obtain ⟨hc,hblank⟩ := h
  have hchar : ∀ x ∈ CHAR37, x ≠ ' ' → CHAR37.idxOf x < 36 ∧
      (CHAR37.idxOf x ≤ 9 → Char.ofNat (48 + CHAR37.idxOf x) = x) ∧
      (¬ CHAR37.idxOf x ≤ 9 → Char.ofNat (65 + (CHAR37.idxOf x - 10)) = x) :=
    List.all_iff_forall_prop.1 (by decide)
  obtain ⟨hlt,hdigit,hletter⟩ := hchar c hc hblank
  rw [Affix.code]
  refine ⟨by omega,by omega,?_⟩
  rw [applyPrefix,if_neg (by omega)]
  have hsub : 60000 + CHAR37.idxOf c - 60000 = CHAR37.idxOf c := by omega
  simp only [hsub]
  split
  · rename_i h9
    rw [hdigit h9]
  · rename_i h9
    rw [if_pos (by omega),hletter h9]

private theorem applyPrefix_backNumber {n : Nat} {base : Str} (h : (Affix.backNumber n).Valid) :
    applyPrefix (Affix.backNumber n).code base = some ((Affix.backNumber n).render base) := by
  obtain ⟨hlo,hhi⟩ := h
  have hsub : 60000 + 26 + n - 60000 - 26 = n := by omega
  rw [Affix.code,applyPrefix,if_neg (by omega)]
  simp only [hsub]
  rw [if_neg (by omega),if_neg (by omega),if_pos (by omega)]
  rfl

/-- `apply_prefix` renders every valid affix, whose number has sixteen bits. -/
theorem applyPrefix_code {a : Affix} (h : a.Valid) (base : Str) :
    a.code < 60126 ∧ applyPrefix a.code base = some (a.render base) := by
  cases a with
  | front s =>
    obtain ⟨hlt,heq⟩ := applyPrefix_front base h
    exact ⟨by omega,heq⟩
  | back c =>
    obtain ⟨hlt,_,heq⟩ := applyPrefix_back base h
    exact ⟨hlt,heq⟩
  | backNumber n =>
    refine ⟨?_,applyPrefix_backNumber h⟩
    have := h.2
    rw [Affix.code]
    omega

/-- The second field of a compound call: the low fifteen bits of its number, and the power raised by
one or two as the sixteenth bit says. -/
def type2Field (a : Affix) (powerDbm : Int) : Nat :=
  128 * (a.code % 32768) + (powerDbm.toNat + (a.code / 32768 + 1) + 64)

private theorem type2Field_lt {a : Affix} {powerDbm : Int} (ha : a.Valid) (hp : powerDbm ∈ POWERS) :
    type2Field a powerDbm < 2^22 ∧ type2Field a powerDbm / 128 = a.code % 32768 ∧
      type2Field a powerDbm % 128 = powerDbm.toNat + (a.code / 32768 + 1) + 64 := by
  have hcode := (applyPrefix_code ha []).1
  obtain ⟨hp0,hp60,_⟩ := powers_cases powerDbm hp
  unfold type2Field
  omega

/-- A field of a compound call is read back when its number is in the range of the grids. -/
private theorem unpackFields_type2 {a : Affix} {powerDbm : Int} {n1 : Nat} {base : Str} (ha : a.Valid)
    (hp : powerDbm ∈ POWERS) (hcall : unpackCall n1 = some base) (hlt : a.code % 32768 < 32400) :
    unpackFields n1 (type2Field a powerDbm) = some (.Type2 (a.render base) powerDbm) := by
  obtain ⟨hcode,hfront⟩ := applyPrefix_code ha base
  obtain ⟨hp0,hp60,hdigit⟩ := powers_cases powerDbm hp
  obtain ⟨_,hdiv,hmod⟩ := type2Field_lt ha hp
  have hshift : type2Field a powerDbm >>> 7 = a.code % 32768 := by
    rw [Nat.shiftRight_eq_div_pow]
    exact hdiv
  obtain ⟨nadd,hnadd⟩ : ∃ nadd, nadd = a.code / 32768 + 1 := ⟨_,rfl⟩
  have hntype : ((type2Field a powerDbm % 128 : Nat) : Int) - 64 = powerDbm + nadd := by
    rw [hmod,← hnadd]
    omega
  have hnadd2 : nadd = 1 ∨ nadd = 2 := by omega
  have hnu : ¬ ((powerDbm + nadd) % 10 = 0 ∨ (powerDbm + nadd) % 10 = 3 ∨ (powerDbm + nadd) % 10 = 7) := by
    omega
  have hback : (if (powerDbm + nadd) % 10 > 7 then (powerDbm + nadd) % 10 - 7
      else if (powerDbm + nadd) % 10 > 3 then (powerDbm + nadd) % 10 - 3
      else (powerDbm + nadd) % 10) = nadd := by
    split
    · omega
    · split <;> omega
  have hn3 : a.code % 32768 + 32768 * ((nadd : Int).toNat - 1) = a.code := by
    rw [Int.toNat_natCast,hnadd]
    omega
  rw [unpackFields,unpackGrid_eq,hdiv,if_neg (Nat.not_le.mpr hlt),hntype]
  simp only [Option.bind_some,hshift]
  rw [if_neg (by omega),if_pos (by omega),if_neg hnu,hback,hn3,hcall]
  simp only [Option.bind_some,hfront]
  rw [Int.add_sub_cancel,if_neg (by omega)]

/-- Type 3 and Type 2 read their whole range back exactly below the end of the grid range: a hash, or
the low fifteen bits of a compound call's number, from 32400 on is taken for an impossible grid. -/
theorem type23_read_iff (n1 hash tag : Nat) (base : Str) (a : Affix) (powerDbm : Int) :
    (n1 < 2^28 → hash < 2^15 → tag < 64 →
      ((∃ grid6, unpack (wordBits (pack50 n1 (128 * hash + tag))) = some (.Type3 hash grid6 (63 - tag))) ↔
        hash < 32400)) ∧
    (packCall base = some n1 → a.Valid → powerDbm ∈ POWERS →
      (unpack (wordBits (pack50 n1 (type2Field a powerDbm))) =
        some (.Type2 (a.render (trim base)) powerDbm) ↔ a.code % 32768 < 32400)) := by
  constructor
  · intro h1 hhash htag
    have hdiv : (128 * hash + tag) / 128 = hash := by omega
    have hmod : (((128 * hash + tag) % 128 : Nat) : Int) - 64 = tag - 64 := by omega
    have hshift : (128 * hash + tag) >>> 7 = hash := by
      rw [Nat.shiftRight_eq_div_pow]
      exact hdiv
    rw [unpack_word h1 (by omega),unpackFields,unpackGrid_eq,hdiv,hmod]
    constructor
    · rintro ⟨grid6,h⟩
      by_contra hge
      rw [if_pos (by omega)] at h
      cases h
    · intro hlt
      have hpow : -(((tag : Int) - 64) + 1) = 63 - tag := by omega
      refine ⟨rotatedGrid ((unpackCall n1).getD []),?_⟩
      rw [if_neg (by omega)]
      simp only [Option.bind_some,hshift,hpow]
      rw [if_pos (by omega)]
  · intro hbase ha hp
    obtain ⟨h1,hcall⟩ := unpackCall_packCall hbase
    obtain ⟨hlt,hdiv,_⟩ := type2Field_lt ha hp
    rw [unpack_word h1 hlt]
    constructor
    · intro h
      by_contra hge
      rw [unpackFields,unpackGrid_eq,hdiv,if_pos (by omega)] at h
      cases h
    · exact unpackFields_type2 ha hp hcall

/-- The prefix PJ4 is read back. -/
theorem type23_read_pj4 :
    ∃ n1, packCall "K1ABC".toList = some n1 ∧
      unpack (wordBits (pack50 n1 (type2Field (.front "PJ4".toList) 37))) =
        some (.Type2 "PJ4/K1ABC".toList 37) ∧
      ∃ grid6, unpack (wordBits (pack50 n1 (128 * 12345 + 36))) = some (.Type3 12345 grid6 27) := by
  obtain ⟨n1,hn1⟩ := Option.isSome_iff_exists.mp
    (show (packCall "K1ABC".toList).isSome = true by decide)
  have hvalid : (Affix.front "PJ4".toList).Valid :=
    ⟨by decide,List.all_iff_forall_prop.1 (by decide),'P',rfl,by decide⟩
  have hread := ((type23_read_iff n1 0 0 _ _ 37).2 hn1 hvalid (by decide)).mpr (by decide)
  have htrim : trim "K1ABC".toList = "K1ABC".toList := by decide
  rw [htrim] at hread
  exact ⟨n1,hn1,hread,((type23_read_iff n1 12345 36 [] (.front []) 0).1 (unpackCall_packCall hn1).1 (by decide)
    (by decide)).mpr (by decide)⟩

/-- The hash 32767 is lost, and so is the prefix NOP. -/
theorem type23_top_lost :
    ∃ n1, packCall "K1ABC".toList = some n1 ∧
      unpack (wordBits (pack50 n1 (128 * 32767 + 36))) = none ∧
      applyPrefix (Affix.front "NOP".toList).code "K1ABC".toList = some "NOP/K1ABC".toList ∧
      unpack (wordBits (pack50 n1 (type2Field (.front "NOP".toList) 37))) = none := by
  obtain ⟨n1,hn1⟩ := Option.isSome_iff_exists.mp
    (show (packCall "K1ABC".toList).isSome = true by decide)
  have hn : n1 < 2^28 := (unpackCall_packCall hn1).1
  refine ⟨n1,hn1,?_,by decide,?_⟩
  · rw [unpack_word hn (by decide)]
    rfl
  · rw [unpack_word hn (by decide),unpackFields,unpackGrid_eq,if_pos (by decide)]
    rfl

end Affix

end Wspr
end MfskCore.Msg
