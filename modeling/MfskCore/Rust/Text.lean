import Mathlib.Data.List.DropRight
import Mathlib.Data.Nat.Digits.Defs

/-! Rust text as the source uses it. A `&str` is its list of characters; a heapless
string also carries the byte capacity its pushes are checked against. -/
namespace MfskCore.Rust

abbrev Str := List Char

/-- `str::len`, the number of UTF-8 bytes. -/
def byteLen (s : Str) : Nat := (s.map Char.utf8Size).sum

@[simp] theorem byteLen_nil : byteLen [] = 0 := rfl

@[simp] theorem byteLen_cons (c : Char) (s : Str) : byteLen (c :: s) = c.utf8Size + byteLen s := by
  simp [byteLen]

@[simp] theorem byteLen_append (s t : Str) : byteLen (s ++ t) = byteLen s + byteLen t := by
  simp [byteLen]

theorem length_le_byteLen (s : Str) : s.length ≤ byteLen s := by
  induction s with
  | nil => exact Nat.le_refl 0
  | cons c s ih =>
    have hpos := Char.utf8Size_pos c
    rw [List.length_cons,byteLen_cons]
    omega

/-- `str::as_bytes`. -/
def asBytes (s : Str) : List UInt8 := s.flatMap String.utf8EncodeChar

/-- `str::from_utf8`, with the error dropped. -/
def fromUtf8 (b : List UInt8) : Option Str := b.toByteArray.utf8Decode?.map Array.toList

/-- `char::is_whitespace`, the Unicode `White_Space` property. -/
def isWhitespace (c : Char) : Bool :=
  let n := c.toNat
  (0x9 ≤ n && n ≤ 0xD) || n == 0x20 || n == 0x85 || n == 0xA0 || n == 0x1680 ||
    (0x2000 ≤ n && n ≤ 0x200A) || n == 0x2028 || n == 0x2029 || n == 0x202F || n == 0x205F ||
    n == 0x3000

/-- `str::is_ascii`. -/
def isAscii (s : Str) : Bool := s.all (fun c => c.toNat < 128)

/-- `str::trim`. -/
def trim (s : Str) : Str := (s.dropWhile isWhitespace).rdropWhile isWhitespace

/-- `str::trim_end`. -/
def trimEnd (s : Str) : Str := s.rdropWhile isWhitespace

/-- `str::split_whitespace`, collected. -/
def splitWhitespace (s : Str) : List Str := (s.splitOnP isWhitespace).filter (fun w => !w.isEmpty)

/-- `str::strip_prefix`. -/
def stripPrefix (p s : Str) : Option Str := if p.isPrefixOf s then some (s.drop p.length) else none

/-- `str::strip_suffix`. -/
def stripSuffix (p s : Str) : Option Str :=
  if p.isSuffixOf s then some (s.take (s.length - p.length)) else none

/-- `str::eq_ignore_ascii_case`: only ASCII letters are folded. -/
def eqIgnoreAsciiCase (a b : Str) : Bool := a.map Char.toLower == b.map Char.toLower

/-- `u8::is_ascii_digit` read on characters. -/
def isAsciiDigit (c : Char) : Bool := '0' ≤ c && c ≤ '9'

/-- The digits of an unsigned literal; at least one is required. -/
def parseDigits (s : Str) : Option Nat :=
  if s.isEmpty || !s.all isAsciiDigit then none
  else some (s.foldl (fun n c => 10 * n + (c.toNat - '0'.toNat)) 0)

/-- `str::parse::<u32>`: an optional `+`, then digits, within range. -/
def parseU32 (s : Str) : Option Nat :=
  let body := match s with
    | '+' :: rest => rest
    | _ => s
  (parseDigits body).bind fun n => if n < 2^32 then some n else none

/-- `str::parse::<i32>`: an optional sign, then digits, within range. -/
def parseI32 (s : Str) : Option Int :=
  match s with
  | '-' :: rest => (parseDigits rest).bind fun n => if n ≤ 2^31 then some (-(n : Int)) else none
  | '+' :: rest => (parseDigits rest).bind fun n => if n < 2^31 then some (n : Int) else none
  | _ => (parseDigits s).bind fun n => if n < 2^31 then some (n : Int) else none

/-- `{:0w}` of an unsigned number. -/
def zeroPadded (w n : Nat) : Str :=
  let d := Nat.toDigits 10 n
  List.replicate (w - d.length) '0' ++ d

/-- `char::to_uppercase` is a table of the Rust standard library. Only its behaviour on ASCII
is fixed here; everything proved over a `CaseMap` holds whatever the rest of the table says. -/
class CaseMap where
  toUppercase : Char → List Char
  toUppercase_ascii : ∀ c : Char, c.toNat < 128 → toUppercase c = [c.toUpper]

/-- The ASCII part of the table, enough to run the model on radio text. -/
@[reducible] def asciiCaseMap : CaseMap := ⟨fun c => [c.toUpper], fun _ _ => rfl⟩

/-- `heapless::String<N>`: the text never outgrows its buffer. -/
@[ext] structure HString (N : Nat) where
  chars : Str
  fits : byteLen chars ≤ N
  deriving DecidableEq

theorem utf8EncodeChar_ascii {c : Char} (h : c.toNat < 128) :
    String.utf8EncodeChar c = [UInt8.ofNat c.toNat] := by
  have hv : c.val.toNat ≤ 0x7f := Nat.le_of_lt_succ h
  rw [String.utf8EncodeChar]
  exact if_pos hv

theorem asBytes_ascii {s : Str} (h : isAscii s) : asBytes s = s.map (fun c => UInt8.ofNat c.toNat) := by
  induction s with
  | nil => rfl
  | cons c s ih =>
    simp only [isAscii,List.all_cons,Bool.and_eq_true,decide_eq_true_eq] at h
    rw [asBytes,List.flatMap_cons,utf8EncodeChar_ascii h.1,List.map_cons,← ih h.2]
    rfl

theorem fromUtf8_asBytes (s : Str) : fromUtf8 (asBytes s) = some s := by
  have h := List.utf8Decode?_utf8Encode (l := s)
  rw [List.utf8Encode] at h
  rw [fromUtf8,asBytes,h]
  rfl

theorem length_asBytes (s : Str) : (asBytes s).length = byteLen s := by
  induction s with
  | nil => rfl
  | cons c s ih => rw [asBytes,List.flatMap_cons,List.length_append,← asBytes,ih,String.length_utf8EncodeChar,byteLen_cons]

/-- ASCII bytes are their own text. -/
theorem fromUtf8_ascii {b : List UInt8} (h : ∀ x ∈ b, x < 128) :
    fromUtf8 b = some (b.map fun x => Char.ofNat x.toNat) := by
  have hcode : ∀ n < 128, (Char.ofNat n).toNat = n := by decide
  have hchar : ∀ x ∈ b, (Char.ofNat x.toNat).toNat = x.toNat := fun x hx =>
    hcode _ (UInt8.lt_iff_toNat_lt.1 (h x hx))
  have hascii : isAscii (b.map fun x => Char.ofNat x.toNat) := by
    simp only [isAscii,List.all_eq_true,List.mem_map,decide_eq_true_eq]
    rintro c ⟨x,hx,rfl⟩
    rw [hchar x hx]
    exact UInt8.lt_iff_toNat_lt.1 (h x hx)
  have hbytes : asBytes (b.map fun x => Char.ofNat x.toNat) = b := by
    rw [asBytes_ascii hascii,List.map_map]
    refine (List.map_congr_left fun x hx => ?_).trans (List.map_id b)
    rw [Function.comp_apply,hchar x hx,UInt8.ofNat_toNat,id]
  rw [← fromUtf8_asBytes,hbytes]

/-- Only ASCII text has ASCII bytes. -/
theorem isAscii_of_asBytes {s : Str} (h : ∀ b ∈ asBytes s, b < 128) : isAscii s := by
  simp only [isAscii,List.all_eq_true,decide_eq_true_eq]
  intro c hc
  by_contra hge
  have hbytes : ∀ b ∈ String.utf8EncodeChar c, b < 128 := fun b hb =>
    h b (List.mem_flatMap.2 ⟨c,hc,hb⟩)
  have hv : ¬c.val.toNat ≤ 0x7f := fun hle => hge (Nat.lt_succ_of_le hle)
  unfold String.utf8EncodeChar at hbytes
  simp only [hv,↓reduceIte] at hbytes
  split at hbytes
  · have hlead := hbytes _ List.mem_cons_self
    rw [UInt8.lt_iff_toNat_lt] at hlead
    simp at hlead
    omega
  · split at hbytes
    · have hlead := hbytes _ List.mem_cons_self
      rw [UInt8.lt_iff_toNat_lt] at hlead
      simp at hlead
      omega
    · have hlead := hbytes _ List.mem_cons_self
      rw [UInt8.lt_iff_toNat_lt] at hlead
      simp at hlead
      omega

/-- Bytes taken from an ASCII text are characters taken from it. -/
theorem asBytes_subset_iff {s : Str} (chars : Str) (h : isAscii chars) : asBytes s ⊆ asBytes chars ↔ s ⊆ chars := by
  have hlt : ∀ c ∈ chars, c.toNat < 128 := by simpa [isAscii] using h
  rw [asBytes_ascii h]
  constructor
  · intro hsub
    have hascii : isAscii s := by
      refine isAscii_of_asBytes fun b hb => ?_
      obtain ⟨c,hc,rfl⟩ := List.mem_map.1 (hsub hb)
      rw [UInt8.lt_iff_toNat_lt,UInt8.toNat_ofNat']
      exact lt_of_le_of_lt (Nat.mod_le _ _) (hlt c hc)
    have hlt' : ∀ c ∈ s, c.toNat < 128 := by simpa [isAscii] using hascii
    rw [asBytes_ascii hascii] at hsub
    intro c hc
    obtain ⟨d,hd,hcode⟩ := List.mem_map.1 (hsub (List.mem_map_of_mem hc))
    have hnat := congrArg UInt8.toNat hcode
    rw [UInt8.toNat_ofNat',UInt8.toNat_ofNat',Nat.mod_eq_of_lt ((hlt d hd).trans (by decide)),
      Nat.mod_eq_of_lt ((hlt' c hc).trans (by decide))] at hnat
    exact Char.toNat_inj.1 hnat ▸ hd
  · intro hsub
    have hascii : isAscii s := by
      simp only [isAscii,List.all_eq_true,decide_eq_true_eq]
      exact fun c hc => hlt c (hsub hc)
    rw [asBytes_ascii hascii]
    exact List.map_subset _ hsub

/-- A fact about ASCII characters is a fact about 128 codes. -/
theorem ascii_cases {P : Char → Prop} (h : ∀ n < 128, P (Char.ofNat n)) {c : Char}
    (hc : c.toNat < 128) : P c := by
  have hcode := h c.toNat hc
  rwa [Char.ofNat_toNat] at hcode

theorem toUpper_of_not_ascii {c : Char} (h : ¬c.toNat < 128) : c.toUpper = c := by
  unfold Char.toUpper
  split
  · rename_i hz
    have hle : c.val.toNat ≤ 122 := hz.2
    exact absurd (Nat.lt_of_le_of_lt hle (by decide)) h
  · rfl

@[simp] theorem isWhitespace_toUpper (c : Char) : isWhitespace c.toUpper = isWhitespace c := by
  by_cases h : c.toNat < 128
  · revert h
    apply ascii_cases
    decide
  · rw [toUpper_of_not_ascii h]

/-- Text with no blank at either end, which `trim` leaves alone. -/
def Trimmed (s : Str) : Prop :=
  (∀ c ∈ s.head?, isWhitespace c = false) ∧ ∀ c ∈ s.getLast?, isWhitespace c = false

theorem trim_subset (s : Str) : trim s ⊆ s := fun _ hc =>
  (List.dropWhile_suffix _).subset ((List.rdropWhile_prefix _ _).subset hc)

theorem trimmed_trim (s : Str) : Trimmed (trim s) := by
  refine ⟨fun c hc => ?_,fun c hc => ?_⟩
  · have hne : trim s ≠ [] := by
      rintro hnil
      simp [hnil] at hc
    obtain ⟨t,ht⟩ : trim s <+: s.dropWhile isWhitespace := List.rdropWhile_prefix _ _
    have hhead : (s.dropWhile isWhitespace).head? = some c := by
      rw [← ht,List.head?_append_of_ne_nil _ hne]
      exact hc
    have hnot := List.head?_dropWhile_not isWhitespace s
    rw [hhead] at hnot
    simpa using hnot
  · have hne : trim s ≠ [] := by
      rintro hnil
      simp [hnil] at hc
    have hnot := List.rdropWhile_last_not isWhitespace _ hne
    rw [Option.mem_def,List.getLast?_eq_some_getLast hne,Option.some.injEq] at hc
    unfold trim at hc
    rw [hc] at hnot
    simpa using hnot

theorem Trimmed.map_toUpper {s : Str} (h : Trimmed s) : Trimmed (s.map Char.toUpper) := by
  refine ⟨fun c hc => ?_,fun c hc => ?_⟩
  · rw [List.head?_map] at hc
    obtain ⟨d,hd,rfl⟩ := Option.mem_map.1 hc
    rw [isWhitespace_toUpper]
    exact h.1 d hd
  · rw [List.getLast?_map] at hc
    obtain ⟨d,hd,rfl⟩ := Option.mem_map.1 hc
    rw [isWhitespace_toUpper]
    exact h.2 d hd

/-- Only the two ends matter. -/
theorem Trimmed.append {s t : Str} (hs : Trimmed s) (ht : Trimmed t) (hs0 : s ≠ []) (ht0 : t ≠ []) (u : Str) :
    Trimmed (s ++ u ++ t) := by
  refine ⟨fun c hc => hs.1 c ?_,fun c hc => ht.2 c ?_⟩
  · rwa [List.append_assoc,List.head?_append_of_ne_nil _ hs0] at hc
  · rwa [List.getLast?_append_of_ne_nil _ ht0] at hc

/-- `trim` removes exactly the blanks put around a trimmed text. -/
theorem Trimmed.trim_pad {s : Str} (h : Trimmed s) (k m : Nat) :
    trim (List.replicate k ' ' ++ (s ++ List.replicate m ' ')) = s := by
  have hblank : isWhitespace ' ' = true := by decide
  rw [trim,List.dropWhile_append_of_pos (by simp [hblank])]
  rcases List.eq_nil_or_concat s with rfl | ⟨t,d,rfl⟩
  · simp [hblank]
  · have hd : isWhitespace d = false := h.2 d (by simp)
    have hhead : (t ++ [d] ++ List.replicate m ' ').dropWhile isWhitespace =
        t ++ [d] ++ List.replicate m ' ' := by
      cases t with
      | nil => simp [hd]
      | cons c t => simp [h.1 c (by simp)]
    rw [List.concat_eq_append,hhead,List.rdropWhile,List.reverse_append,List.reverse_replicate,
      List.dropWhile_append_of_pos (by simp [hblank]),List.reverse_concat,
      List.dropWhile_cons_of_neg (by simp [hd]),← List.reverse_concat,List.reverse_reverse]

theorem Trimmed.trim_eq {s : Str} (h : Trimmed s) : trim s = s := by
  have hpad := h.trim_pad 0 0
  rwa [List.replicate_zero,List.nil_append,List.append_nil] at hpad

theorem trim_map_toUpper (s : Str) : trim (s.map Char.toUpper) = (trim s).map Char.toUpper := by
  have hblank : isWhitespace ∘ Char.toUpper = isWhitespace := funext isWhitespace_toUpper
  have hdrop (t : Str) : (t.map Char.toUpper).dropWhile isWhitespace =
      (t.dropWhile isWhitespace).map Char.toUpper := by
    rw [List.dropWhile_map,hblank]
  rw [trim,trim,List.rdropWhile,List.rdropWhile,hdrop,← List.map_reverse,hdrop,List.map_reverse]

/-- `trim` does not see the blanks put around a text. -/
theorem trim_pad (s : Str) (k m : Nat) :
    trim (List.replicate k ' ' ++ (s ++ List.replicate m ' ')) = trim s := by
  have hblank : isWhitespace ' ' = true := by decide
  have hend (t : Str) : (t ++ List.replicate m ' ').rdropWhile isWhitespace = t.rdropWhile isWhitespace := by
    rw [List.rdropWhile,List.reverse_append,List.reverse_replicate,
      List.dropWhile_append_of_pos (by simp [hblank]),← List.rdropWhile]
  rw [trim,List.dropWhile_append_of_pos (by simp [hblank]),List.dropWhile_append]
  split
  · rename_i hnil
    rw [trim,List.isEmpty_iff.mp hnil]
    simp [hblank]
  · rw [hend,trim]

/-- Only blanks are lost. -/
theorem mem_trim {s : Str} {c : Char} (hc : c ∈ s) (h : isWhitespace c = false) : c ∈ trim s := by
  have hdrop : ∀ t : Str, c ∈ t → c ∈ t.dropWhile isWhitespace := by
    intro t ht
    rw [← List.takeWhile_append_dropWhile (p := isWhitespace) (l := t),List.mem_append] at ht
    rcases ht with ht | ht
    · exact absurd (List.mem_takeWhile_imp ht) (by simp [h])
    · exact ht
  rw [trim,List.rdropWhile,List.mem_reverse]
  exact hdrop _ (List.mem_reverse.2 (hdrop s hc))

namespace HString
variable {N : Nat}

def empty : HString N := ⟨[],Nat.zero_le N⟩

def isEmpty (s : HString N) : Bool := s.chars.isEmpty

/-- `push` refuses a character that does not fit and leaves the buffer as it was. -/
def push (s : HString N) (c : Char) : Option (HString N) :=
  if h : byteLen (s.chars ++ [c]) ≤ N then some ⟨s.chars ++ [c],h⟩ else none

/-- `String::try_from` takes the whole text or nothing. -/
def ofStr (t : Str) : Option (HString N) := if h : byteLen t ≤ N then some ⟨t,h⟩ else none

/-- `push_str` and `write!`, the result ignored: the whole text is appended or nothing is. -/
def pushStr (s : HString N) (t : Str) : HString N :=
  if h : byteLen (s.chars ++ t) ≤ N then ⟨s.chars ++ t,h⟩ else s

/-- `push_clamped`: push until the first character that does not fit. -/
def pushClamped (s : HString N) : Str → HString N
  | [] => s
  | c :: cs => match s.push c with
    | some t => pushClamped t cs
    | none => s

/-- `push_upper`: the upper-case expansion of every character, clamped the same way. -/
def pushUpper [CaseMap] (s : HString N) (t : Str) : HString N :=
  s.pushClamped (t.flatMap CaseMap.toUppercase)

@[simp] theorem empty_chars : (empty : HString N).chars = [] := rfl

@[simp] theorem isEmpty_empty : (empty : HString N).isEmpty = true := rfl

/-- Text that fits is pushed whole. -/
theorem pushClamped_chars (s : HString N) (t : Str) (h : byteLen (s.chars ++ t) ≤ N) :
    (s.pushClamped t).chars = s.chars ++ t := by
  induction t generalizing s with
  | nil => simp [pushClamped]
  | cons c t ih =>
    have hc : byteLen (s.chars ++ [c]) ≤ N := by
      simp only [byteLen_append,byteLen_cons,byteLen_nil] at h ⊢
      omega
    rw [pushClamped,push,dif_pos hc]
    simp only
    rw [ih _ (by simpa using h)]
    simp

end HString
end MfskCore.Rust
