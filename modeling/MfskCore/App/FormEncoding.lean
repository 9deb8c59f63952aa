import MfskCore.Rust.Text

/-! The form encoding of a spot upload (`encode_value` and `push_field` of `wsprnet.rs`) against the form parser
of the settings page (`percent_decode` and `parse_form` of `http_config.rs`). -/
namespace MfskCore.App
open Rust

/-- `b as char`. -/
def byteChar (b : UInt8) : Char := Char.ofNat b.toNat

section Encoder

/-- One digit of `{:02X}`. -/
def upperHex (n : Nat) : Char := if n < 10 then Char.ofNat (48 + n) else Char.ofNat (55 + n)

def encodeByte (b : UInt8) : Str :=
  if (65 ≤ b && b ≤ 90) || (97 ≤ b && b ≤ 122) || (48 ≤ b && b ≤ 57) ||
      b == 45 || b == 95 || b == 46 || b == 126 then [byteChar b]
  else if b == 32 then ['+']
  else ['%',upperHex (b.toNat / 16),upperHex (b.toNat % 16)]

def encodeValue (v out : Str) : Str := (asBytes v).foldl (fun out b => out ++ encodeByte b) out

def pushField (body key value : Str) : Str :=
  let body := if body.isEmpty then body else body ++ ['&']
  encodeValue value (body ++ key ++ ['='])

/-- The body of a request, one field after the other. -/
def formBody (fields : List (Str × Str)) : Str := fields.foldl (fun body f => pushField body f.1 f.2) []

end Encoder

section Parser

/-- `char::to_digit(16)`. -/
def hexValue (c : Char) : Option Nat :=
  if '0' ≤ c ∧ c ≤ '9' then some (c.toNat - 48)
  else if 'a' ≤ c ∧ c ≤ 'f' then some (c.toNat - 87)
  else if 'A' ≤ c ∧ c ≤ 'F' then some (c.toNat - 55)
  else none

/-- `u8::from_str_radix(s, 16)`: an optional `+`, then at least one digit, within range. -/
def fromStrRadix16 (s : Str) : Option UInt8 :=
  let digits := match s with
    | '+' :: rest => rest
    | _ => s
  if digits.isEmpty then none
  else (digits.foldlM (fun n c => (hexValue c).bind fun d =>
    if 16 * n + d < 256 then some (16 * n + d) else none) 0).map UInt8.ofNat

/-- The bytes not yet read; an escape is only tried where two more bytes follow. -/
def decodeBytes : List UInt8 → Str
  | [] => []
  | [b] => [if b = 43 then ' ' else byteChar b]
  | [b,c] => (if b = 43 then ' ' else byteChar b) :: decodeBytes [c]
  | b :: c :: d :: rest =>
    if b = 43 then ' ' :: decodeBytes (c :: d :: rest)
    else if b = 37 then
      match fromStrRadix16 ((fromUtf8 [c,d]).getD []) with
      | some byte => byteChar byte :: decodeBytes rest
      | none => '%' :: decodeBytes (c :: d :: rest)
    else byteChar b :: decodeBytes (c :: d :: rest)

def percentDecode (v : Str) : Str := decodeBytes (asBytes v)

/-- `str::split_once`, with the empty string for what is missing. -/
def splitOnce (sep : Char) (s : Str) : Str × Str :=
  (s.takeWhile (· != sep),(s.dropWhile (· != sep)).tail)

/-- The keys and values of a body: the pairs between the ampersands, the empty ones left out. -/
def formPairs (body : Str) : List (Str × Str) :=
  ((body.splitOn '&').filter fun pair => !pair.isEmpty).map fun pair =>
    let (key,raw) := splitOnce '=' pair
    (key,percentDecode raw)

structure FormFields where
  call : Option Str
  grid : Option Str
  txPowerDbm : Option Str
  band : Option Str
  wsprnet : Option Str
  ntpEnabled : Bool
  ntpServer : Option Str
  deriving DecidableEq

namespace FormFields

def empty : FormFields := ⟨none,none,none,none,none,false,none⟩

/-- The arms of the parser's `match`. -/
def set (fields : FormFields) (key value : Str) : FormFields :=
  if key = "call".toList then { fields with call := some value }
  else if key = "grid".toList then { fields with grid := some value }
  else if key = "tx_power_dbm".toList then { fields with txPowerDbm := some value }
  else if key = "band".toList then { fields with band := some value }
  else if key = "wsprnet".toList then { fields with wsprnet := some value }
  else if key = "ntp_enabled".toList then { fields with ntpEnabled := true }
  else if key = "ntp_server".toList then { fields with ntpServer := some value }
  else fields

end FormFields

def parseForm (body : Str) : FormFields := (formPairs body).foldl (fun fields p => fields.set p.1 p.2) .empty

end Parser

section RoundTrip

/-- The three ways a byte is written: itself, `+` for a blank, or an escape that reads back as the byte. -/
private theorem encodeByte_ways : ∀ n < 256,
    (n < 128 ∧ n ≠ 43 ∧ n ≠ 37 ∧ n ≠ 38 ∧ n ≠ 61 ∧ encodeByte (UInt8.ofNat n) = [Char.ofNat n]) ∨
    (n = 32 ∧ encodeByte (UInt8.ofNat n) = ['+']) ∨
    (encodeByte (UInt8.ofNat n) = ['%',upperHex (n / 16),upperHex (n % 16)] ∧
      fromStrRadix16 [upperHex (n / 16),upperHex (n % 16)] = some (UInt8.ofNat n)) := by
  decide +kernel

private theorem upperHex_range : ∀ n < 16, (upperHex n).toNat < 128 ∧ upperHex n ≠ '&' ∧ upperHex n ≠ '=' := by
  decide

private theorem toNat_ofNat_ascii : ∀ n < 128, (Char.ofNat n).toNat = n := by decide

private theorem encodeByte_cases (b : UInt8) :
    (b < 128 ∧ b ≠ 43 ∧ b ≠ 37 ∧ b ≠ 38 ∧ b ≠ 61 ∧ encodeByte b = [byteChar b]) ∨
    (b = 32 ∧ encodeByte b = ['+']) ∨
    (encodeByte b = ['%',upperHex (b.toNat / 16),upperHex (b.toNat % 16)] ∧
      fromStrRadix16 [upperHex (b.toNat / 16),upperHex (b.toNat % 16)] = some b) := by
  have h := encodeByte_ways b.toNat b.toNat_lt
  rw [UInt8.ofNat_toNat] at h
  simp only [UInt8.lt_iff_toNat_lt,ne_eq,← UInt8.toNat_inj]
  exact h

/-- What is written for a byte is ASCII and holds no separator. -/
private theorem encodeByte_chars {b : UInt8} {c : Char} (hc : c ∈ encodeByte b) : c.toNat < 128 ∧ c ≠ '&' ∧ c ≠ '=' := by
  obtain ⟨hlt,-,-,hamp,heq,henc⟩ | ⟨-,henc⟩ | ⟨henc,-⟩ := encodeByte_cases b
  · rw [henc,List.mem_singleton] at hc
    have hcode : c.toNat = b.toNat := hc ▸ toNat_ofNat_ascii _ (UInt8.lt_iff_toNat_lt.1 hlt)
    refine ⟨hcode ▸ UInt8.lt_iff_toNat_lt.1 hlt,?_,?_⟩
    · rintro rfl
      exact hamp (UInt8.toNat_inj.1 hcode.symm)
    · rintro rfl
      exact heq (UInt8.toNat_inj.1 hcode.symm)
  · rw [henc,List.mem_singleton] at hc
    subst hc
    decide
  · have hlt := b.toNat_lt
    rw [henc] at hc
    obtain rfl | rfl | rfl : c = '%' ∨ c = upperHex (b.toNat / 16) ∨ c = upperHex (b.toNat % 16) := by simpa using hc
    · decide
    · exact upperHex_range _ (by omega)
    · exact upperHex_range _ (by omega)

theorem encodeValue_eq (v out : Str) : encodeValue v out = out ++ (asBytes v).flatMap encodeByte := by
  rw [encodeValue]
  generalize asBytes v = bytes
  induction bytes generalizing out with
  | nil => exact (List.append_nil out).symm
  | cons b bytes ih => rw [List.foldl_cons,ih,List.flatMap_cons,List.append_assoc]

theorem encodeValue_chars {v : Str} {c : Char} (hc : c ∈ encodeValue v []) : c.toNat < 128 ∧ c ≠ '&' ∧ c ≠ '=' := by
  rw [encodeValue_eq,List.nil_append,List.mem_flatMap] at hc
  obtain ⟨b,-,hb⟩ := hc
  exact encodeByte_chars hb

private theorem decodeBytes_plus (rest : List UInt8) : decodeBytes (43 :: rest) = ' ' :: decodeBytes rest := by
  match rest with
  | [] => rfl
  | [c] => rfl
  | c :: d :: rest => rfl

private theorem decodeBytes_plain {b : UInt8} (hplus : b ≠ 43) (hpercent : b ≠ 37) (rest : List UInt8) :
    decodeBytes (b :: rest) = byteChar b :: decodeBytes rest := by
  match rest with
  | [] => exact congrArg (fun c => [c]) (if_neg hplus)
  | [c] => exact congrArg (fun d => d :: decodeBytes [c]) (if_neg hplus)
  | c :: d :: rest => rw [decodeBytes,if_neg hplus,if_neg hpercent]

/-- What is written for a byte is read back as the byte, whatever follows. -/
private theorem decodeBytes_encodeByte (b : UInt8) (rest : List UInt8) :
    decodeBytes ((encodeByte b).map (fun c => UInt8.ofNat c.toNat) ++ rest) = byteChar b :: decodeBytes rest := by
  obtain ⟨hlt,hplus,hpercent,-,-,henc⟩ | ⟨rfl,henc⟩ | ⟨henc,hread⟩ := encodeByte_cases b
  · have hbyte : UInt8.ofNat (byteChar b).toNat = b := by
      rw [byteChar,toNat_ofNat_ascii _ (UInt8.lt_iff_toNat_lt.1 hlt),UInt8.ofNat_toNat]
    rw [henc,List.map_singleton,hbyte]
    exact decodeBytes_plain hplus hpercent rest
  · rw [henc]
    exact decodeBytes_plus rest
  · have hlt := b.toNat_lt
    have hhi := (upperHex_range (b.toNat / 16) (by omega)).1
    have hlo := (upperHex_range (b.toNat % 16) (by omega)).1
    have hdigits : fromUtf8 [UInt8.ofNat (upperHex (b.toNat / 16)).toNat,UInt8.ofNat (upperHex (b.toNat % 16)).toNat] =
        some [upperHex (b.toNat / 16),upperHex (b.toNat % 16)] := by
      have hascii : isAscii [upperHex (b.toNat / 16),upperHex (b.toNat % 16)] := by simp [isAscii,hhi,hlo]
      have h := fromUtf8_asBytes [upperHex (b.toNat / 16),upperHex (b.toNat % 16)]
      rwa [asBytes_ascii hascii] at h
    rw [henc]
    show decodeBytes (37 :: UInt8.ofNat _ :: UInt8.ofNat _ :: rest) = _
    rw [decodeBytes,if_neg (by decide),if_pos rfl,hdigits,Option.getD_some,hread]

/-- The bytes of a value come back, each as one character. -/
theorem percentDecode_encodeValue (v : Str) : percentDecode (encodeValue v []) = (asBytes v).map byteChar := by
  have hascii : isAscii (encodeValue v []) := by
    simp only [isAscii,List.all_eq_true,decide_eq_true_eq]
    exact fun c hc => (encodeValue_chars hc).1
  rw [percentDecode,asBytes_ascii hascii,encodeValue_eq,List.nil_append]
  generalize asBytes v = bytes
  induction bytes with
  | nil => rfl
  | cons b bytes ih => rw [List.flatMap_cons,List.map_append,decodeBytes_encodeByte,ih,List.map_cons]

private theorem bytes_of_ascii {s : Str} (h : isAscii s) : (asBytes s).map byteChar = s := by
  rw [asBytes_ascii h,List.map_map]
  refine (List.map_congr_left fun c hc => ?_).trans (List.map_id s)
  have hlt : c.toNat < 128 := by simpa using List.all_eq_true.1 h c hc
  rw [Function.comp_apply,byteChar,UInt8.toNat_ofNat_of_lt' (Nat.lt_trans hlt (by decide)),Char.ofNat_toNat,id]

/-- Bytes that neither stand for a blank nor start an escape are read as they are. -/
private theorem decodeBytes_unescaped {bytes : List UInt8} (h : ∀ b ∈ bytes, b ≠ 43 ∧ b ≠ 37) :
    decodeBytes bytes = bytes.map byteChar := by
  induction bytes with
  | nil => rfl
  | cons b bytes ih =>
    obtain ⟨⟨hplus,hpercent⟩,hrest⟩ := List.forall_mem_cons.1 h
    rw [decodeBytes_plain hplus hpercent,ih hrest,List.map_cons]

private theorem percentDecode_unescaped {s : Str} (hascii : isAscii s) (hfree : ∀ c ∈ s, c ≠ '+' ∧ c ≠ '%') :
    percentDecode s = s := by
  rw [percentDecode,decodeBytes_unescaped,bytes_of_ascii hascii]
  intro b hb
  rw [asBytes_ascii hascii,List.mem_map] at hb
  obtain ⟨c,hc,rfl⟩ := hb
  have hlt : c.toNat < 128 := by simpa using List.all_eq_true.1 hascii c hc
  have hcode : (UInt8.ofNat c.toNat).toNat = c.toNat := UInt8.toNat_ofNat_of_lt' (Nat.lt_trans hlt (by decide))
  constructor
  · intro hplus
    exact (hfree c hc).1 (Char.toNat_inj.1 (hcode ▸ congrArg UInt8.toNat hplus))
  · intro hpercent
    exact (hfree c hc).2 (Char.toNat_inj.1 (hcode ▸ congrArg UInt8.toNat hpercent))

/-- One field of a body. -/
private def formField (f : Str × Str) : Str := f.1 ++ '=' :: encodeValue f.2 []

private theorem pushField_eq (body : Str) (f : Str × Str) :
    pushField body f.1 f.2 = (if body.isEmpty then body else body ++ ['&']) ++ formField f := by
  rw [pushField,encodeValue_eq,formField,encodeValue_eq]
  simp only [List.append_assoc,List.nil_append,List.cons_append]

private theorem pushFields_eq {body : Str} (hbody : body ≠ []) (fields : List (Str × Str)) :
    fields.foldl (fun body f => pushField body f.1 f.2) body = body ++ fields.flatMap fun f => '&' :: formField f := by
  induction fields generalizing body with
  | nil => exact (List.append_nil body).symm
  | cons f fields ih =>
    have hnext : pushField body f.1 f.2 = body ++ '&' :: formField f := by
      rw [pushField_eq,if_neg (by simpa using hbody),List.append_assoc,List.singleton_append]
    rw [List.foldl_cons,hnext,ih (by simp),List.flatMap_cons,List.append_assoc]

private theorem intercalate_cons_eq {α : Type} (sep : α) (first : List α) (rest : List (List α)) :
    [sep].intercalate (first :: rest) = first ++ rest.flatMap fun l => sep :: l := by
  induction rest generalizing first with
  | nil => rw [List.intercalate_singleton,List.flatMap_nil,List.append_nil]
  | cons second rest ih =>
    rw [List.intercalate_cons_cons,ih,List.flatMap_cons,List.append_assoc,List.singleton_append,List.cons_append]

/-- The fields, with an ampersand between two. -/
theorem formBody_eq (fields : List (Str × Str)) : formBody fields = ['&'].intercalate (fields.map formField) := by
  cases fields with
  | nil => rfl
  | cons f fields =>
    have hfirst : pushField [] f.1 f.2 = formField f := pushField_eq [] f
    rw [formBody,List.foldl_cons,hfirst,pushFields_eq (by simp [formField]),List.map_cons,intercalate_cons_eq,
      List.flatMap_map]

/-- The separators and the escapes of a body. -/
def FORM_MARKS : Str := ['&','=','%','+']

private theorem splitOnce_formField {f : Str × Str} (hkey : ∀ c ∈ f.1, c ∉ FORM_MARKS) :
    splitOnce '=' (formField f) = (f.1,encodeValue f.2 []) := by
  have hfree : ∀ c ∈ f.1, (c != '=') = true := fun c hc => by
    rw [bne_iff_ne]
    rintro rfl
    exact hkey _ hc (by decide)
  rw [splitOnce,formField,List.takeWhile_append_of_pos hfree,List.dropWhile_append_of_pos hfree,
    List.takeWhile_cons_of_neg (by decide),List.dropWhile_cons_of_neg (by decide),List.append_nil,List.tail_cons]

/-- The pairs of a body come back in order, keys and values; no value is written with a separator in it, and
decoding inverts encoding: byte for byte on any text, so exactly on ASCII. -/
theorem form_round_trip (fields : List (Str × Str)) (hkey : ∀ f ∈ fields, ∀ c ∈ f.1, c ∉ FORM_MARKS)
    (hvalue : ∀ f ∈ fields, isAscii f.2) :
    formPairs (formBody fields) = fields ∧
    parseForm (formBody fields) = fields.foldl (fun form f => form.set f.1 f.2) .empty ∧
    (∀ f ∈ fields, isAscii f.1 → percentDecode f.1 = f.1) ∧
    (∀ v, ∀ c ∈ encodeValue v [], c ≠ '&' ∧ c ≠ '=') ∧
    (∀ v, percentDecode (encodeValue v []) = (asBytes v).map byteChar) ∧
    ∀ v, isAscii v → percentDecode (encodeValue v []) = v := by
  have hinverse (v : Str) (hv : isAscii v) : percentDecode (encodeValue v []) = v :=
    (percentDecode_encodeValue v).trans (bytes_of_ascii hv)
  have hpairs : formPairs (formBody fields) = fields := by
    cases fields with
    | nil => rfl
    | cons f fields =>
      have hfree : ∀ l ∈ (f :: fields).map formField, '&' ∉ l := by
        intro l hl hamp
        obtain ⟨g,hg,rfl⟩ := List.mem_map.1 hl
        obtain hin | hin := List.mem_append.1 hamp
        · exact hkey g hg _ hin (by decide)
        · obtain hbad | hin := List.mem_cons.1 hin
          · exact absurd hbad (by decide)
          · exact (encodeValue_chars hin).2.1 rfl
      have hfull : ((f :: fields).map formField).filter (fun pair => !pair.isEmpty) = (f :: fields).map formField := by
        refine List.filter_eq_self.2 fun l hl => ?_
        obtain ⟨g,-,rfl⟩ := List.mem_map.1 hl
        simp [formField]
      rw [formPairs,formBody_eq,List.splitOn_intercalate _ hfree (by simp),hfull,List.map_map]
      refine (List.map_congr_left fun g hg => ?_).trans (List.map_id _)
      rw [Function.comp_apply,splitOnce_formField (hkey g hg),id]
      exact Prod.ext rfl (hinverse _ (hvalue g hg))
  refine ⟨hpairs,by rw [parseForm,hpairs],fun f hf hascii => percentDecode_unescaped hascii fun c hc => ⟨?_,?_⟩,
    fun v c hc => (encodeValue_chars hc).2,percentDecode_encodeValue,hinverse⟩
  · rintro rfl
    exact hkey f hf _ hc (by decide)
  · rintro rfl
    exact hkey f hf _ hc (by decide)

/-- A callsign with its suffix, then a value that looks like an escape. -/
theorem form_round_trip_escapes :
    formPairs (formBody [("tcall".toList,"PJ4/K1ABC".toList),("sig".toList,"-12 %2B".toList)]) =
      [("tcall".toList,"PJ4/K1ABC".toList),("sig".toList,"-12 %2B".toList)] :=
  (form_round_trip [("tcall".toList,"PJ4/K1ABC".toList),("sig".toList,"-12 %2B".toList)] (by simp [FORM_MARKS]) (by decide)).1

end RoundTrip

end MfskCore.App
