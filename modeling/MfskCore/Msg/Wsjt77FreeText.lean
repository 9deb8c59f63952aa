import Mathlib.Data.Bool.AllAny
import MfskCore.Msg.AlphabetDigits
import MfskCore.Msg.Wsjt77RoundTrip

/-! Free-text messages: what the packer accepts, and that the text comes back. -/
namespace MfskCore.Msg
open Rust Library

/-- The characters of a free text. -/
def freeTextChars : Str := " 0123456789ABCDEFGHIJKLMNOPQRSTUVWXYZ+-./?".toList

/-- A text of one to thirteen characters over the alphabet, in either case. -/
def IsFreeText (text : Str) : Prop :=
  1 ≤ text.length ∧ text.length ≤ 13 ∧ ∀ c ∈ text, c.toUpper ∈ freeTextChars

section Packing

private theorem ascii_FREE_TEXT : ∀ b ∈ FREE_TEXT, b < 128 := List.all_iff_forall_prop.1 (by decide +kernel)

private theorem length_FREE_TEXT : FREE_TEXT.length = 42 := by decide

private theorem isAscii_of_subset {s : Str} (h : asBytes s ⊆ FREE_TEXT) : isAscii s :=
  isAscii_of_asBytes fun b hb => ascii_FREE_TEXT b (h hb)

theorem packFreeText_isSome_iff (bytes : List UInt8) : (packFreeText bytes).isSome = true ↔ bytes ⊆ FREE_TEXT := by
  rw [packFreeText,packed_isSome_iff,List.append_subset]
  refine and_iff_left fun b hb => ?_
  rw [List.eq_of_mem_replicate hb]
  decide

/-- Thirteen digits stay below `42^13`, which is below `2^71`. -/
theorem packFreeText_digits {bytes : List UInt8} {n : Nat} (hlen : bytes.length ≤ 13)
    (h : packFreeText bytes = some n) :
    n < 2^71 ∧ fillDigits FREE_TEXT 42 13 n = bytes ++ List.replicate (13 - bytes.length) 32 := by
  obtain ⟨hlt,hdigits⟩ := fillDigits_packed length_FREE_TEXT h
  have hpadded : (bytes ++ List.replicate (13 - bytes.length) (32 : UInt8)).length = 13 := by
    rw [List.length_append,List.length_replicate]
    omega
  rw [hpadded] at hlt hdigits
  exact ⟨hlt.trans (by decide),hdigits⟩

private theorem isSome_pack77FreeText_iff (text : Str) : (pack77FreeText text).isSome = true ↔ IsFreeText text := by
  have hupper : asBytes (text.map Char.toUpper) ⊆ FREE_TEXT ↔ ∀ c ∈ text, c.toUpper ∈ freeTextChars :=
    (asBytes_subset_iff freeTextChars (by decide)).trans List.forall_mem_map
  have hlength (h : asBytes (text.map Char.toUpper) ⊆ FREE_TEXT) :
      (asBytes (text.map Char.toUpper)).length = text.length := by
    rw [asBytes_ascii (isAscii_of_subset h),List.length_map,List.length_map]
  have hempty (h : asBytes (text.map Char.toUpper) ⊆ FREE_TEXT) :
      (asBytes (text.map Char.toUpper)).isEmpty = true ↔ text.length = 0 := by
    rw [List.isEmpty_iff_length_eq_zero,hlength h]
  unfold pack77FreeText
  dsimp only
  constructor
  · intro h
    split at h
    · exact absurd h (by simp)
    · rename_i hsize
      rw [Option.isSome_map,packFreeText_isSome_iff] at h
      rw [Bool.or_eq_true,decide_eq_true_eq,hempty h,hlength h] at hsize
      exact ⟨by omega,by omega,hupper.1 h⟩
  · rintro ⟨hleast,hmost,hall⟩
    have h := hupper.2 hall
    rw [if_neg,Option.isSome_map,packFreeText_isSome_iff]
    · exact h
    · rw [Bool.or_eq_true,decide_eq_true_eq,hempty h,hlength h]
      omega

end Packing

section RoundTrip
variable {text : Str} {bits : List UInt8}

/-- The payload of a free text, and the number it carries. -/
private theorem pack77FreeText_reads (h : pack77FreeText text = some bits) :
    ∃ n, packFreeText (asBytes (text.map Char.toUpper)) = some n ∧ n < 2^71 ∧
      readBits bits 0 71 = n ∧ readBits bits 71 3 = 0 ∧ readBits bits 74 3 = 0 ∧
      fillDigits FREE_TEXT 42 13 n = asBytes (text.map Char.toUpper) ++
        List.replicate (13 - (asBytes (text.map Char.toUpper)).length) 32 := by
  unfold pack77FreeText at h
  dsimp only at h
  split at h
  · exact absurd h (by simp)
  · rename_i hsize
    rw [Bool.or_eq_true,decide_eq_true_eq,not_or] at hsize
    obtain ⟨n,hn,rfl⟩ := Option.map_eq_some_iff.1 h
    obtain ⟨hlt,hdigits⟩ := packFreeText_digits (Nat.not_lt.1 hsize.2) hn
    refine ⟨n,hn,hlt,?_,?_,?_,hdigits⟩
    · rw [readBits_writeBits _ _ _ _ (by simp),Nat.mod_eq_of_lt hlt]
    · rw [readBits_writeBits_of_disjoint _ _ _ _ _ _ (by simp)]
      decide
    · rw [readBits_writeBits_of_disjoint _ _ _ _ _ _ (by simp)]
      decide

/-- The text behind the digits, whatever blanks stand around it. -/
private theorem unpackFreeText_packed (h : pack77FreeText text = some bits) :
    unpackFreeText bits = trim (text.map Char.toUpper) := by
  obtain ⟨n,hn,-,hread,-,-,hdigits⟩ := pack77FreeText_reads h
  have hbytes := (packFreeText_isSome_iff _).1 (Option.isSome_iff_exists.2 ⟨n,hn⟩)
  have hpad : ∀ b ∈ asBytes (text.map Char.toUpper) ++
      List.replicate (13 - (asBytes (text.map Char.toUpper)).length) 32, b < 128 := by
    intro b hb
    rcases List.mem_append.1 hb with hb | hb
    · exact ascii_FREE_TEXT b (hbytes hb)
    · rw [List.eq_of_mem_replicate hb]
      decide
  have htext := alphabetText_asBytes (isAscii_of_subset hbytes)
  have hblank := trim_pad (text.map Char.toUpper) 0 (13 - (asBytes (text.map Char.toUpper)).length)
  rw [unpackFreeText,hread,hdigits,fromUtf8_ascii hpad,Option.getD_some,List.map_append,List.map_replicate]
  exact (congrArg (fun x => trim (x ++ List.replicate _ ' ')) htext).trans hblank

/-- The packer takes exactly the free texts, its number fits the 71 bits it is written to, and a text
that is not blank comes back in upper case without the blanks around it. -/
theorem freeText_round_trip (text : Str) :
    ((pack77FreeText text).isSome = true ↔ IsFreeText text) ∧
    ∀ bits, pack77FreeText text = some bits →
      (∃ n, packFreeText (asBytes (text.map Char.toUpper)) = some n ∧ n < 2^71 ∧ readBits bits 0 71 = n) ∧
      (trim text ≠ [] → unpack77 bits = some (trim (text.map Char.toUpper))) := by
  refine ⟨isSome_pack77FreeText_iff text,fun bits h => ?_⟩
  obtain ⟨n,hn,hlt,hread,hn3,hi3,-⟩ := pack77FreeText_reads h
  refine ⟨⟨n,hn,hlt,hread⟩,fun hblank => ?_⟩
  have hshown : (trim (text.map Char.toUpper)).isEmpty = false := by
    rw [trim_map_toUpper,List.isEmpty_eq_false_iff,ne_eq,List.map_eq_nil_iff]
    exact hblank
  rw [unpack77,unpack77WithHash,unpack77Fields,hn3,hi3]
  simp only [unpack77Dispatch,unpackFreeText_packed h,hshown]
  rfl

theorem freeText_round_trip_reference :
    ∃ bits, pack77FreeText " ja/tk-001".toList = some bits ∧ unpack77 bits = some "JA/TK-001".toList := by
  obtain ⟨hsome,hback⟩ := freeText_round_trip " ja/tk-001".toList
  obtain ⟨bits,hbits⟩ := Option.isSome_iff_exists.1 (hsome.2
    ⟨by decide,by decide,List.all_iff_forall_prop.1 (by decide)⟩)
  exact ⟨bits,hbits,(hback bits hbits).2 (by decide)⟩

end RoundTrip

end MfskCore.Msg
