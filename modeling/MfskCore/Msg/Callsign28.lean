import MfskCore.Library.Checked
import MfskCore.Msg.Wsjt77Pack

/-! The 28-bit callsign shared by WSPR, JT65 and JT9 (`msg/callsign28.rs`): six slots in mixed radix,
with the table of accepted characters as a parameter. -/
namespace MfskCore.Msg
open Rust Library

/-- The character of each slot value. -/
def CALL_ALPHA : List Char := "0123456789ABCDEFGHIJKLMNOPQRSTUVWXYZ ".toList

def NBASE : Nat := 37 * 36 * 10 * 27 * 27 * 27

/-- The call in its six slots, with the digit in the third one. -/
def callSlots (bytes : List UInt8) : Option (List UInt8) :=
  if bytes.length ≥ 3 ∧ isDigitByte (bytes.getD 2 0) then
    some (bytes ++ List.replicate (6 - bytes.length) 32)
  else if bytes.length ≥ 2 ∧ isDigitByte (bytes.getD 1 0) then
    if bytes.length > 5 then none else some (32 :: (bytes ++ List.replicate (5 - bytes.length) 32))
  else none

/-- The slots as one number. -/
def slotValue : List Nat → Option Nat
  | [n0,n1,n2,n3,n4,n5] =>
    if n1 = 36 then none
    else if n2 ≥ 10 then none
    else if n3 < 10 ∨ n4 < 10 ∨ n5 < 10 then none
    else
      let ncall := n0
      let ncall := 36 * ncall + n1
      let ncall := 10 * ncall + n2
      let ncall := 27 * ncall + n3 - 10
      let ncall := 27 * ncall + n4 - 10
      some (27 * ncall + n5 - 10)
  | _ => none

def packCall28 (call : Str) (nchar : UInt8 → Option Nat) : Option Nat :=
  let bytes := asBytes call
  if bytes.isEmpty ∨ bytes.length > 6 then none
  else (callSlots bytes).bind fun tmp => (tmp.mapM nchar).bind slotValue

/-- The character of a slot value. -/
def callChar (n : Nat) : Char := CALL_ALPHA.getD n ' '

def unpackCall28 (ncall : Nat) : Option Str :=
  if ncall ≥ NBASE then none
  else
    let c6 := ncall % 27 + 10
    let n := ncall / 27
    let c5 := n % 27 + 10
    let n := n / 27
    let c4 := n % 27 + 10
    let n := n / 27
    let c3 := n % 10
    let n := n / 10
    let c2 := n % 36
    let c1 := n / 36
    some (trim ([c1,c2,c3,c4,c5,c6].map callChar))

/-- The table maps a character to a slot value that is rendered as its capital. -/
def ReadsAlphabet (nchar : UInt8 → Option Nat) : Prop :=
  ∀ b v, nchar b = some v → b < 128 ∧ v < 37 ∧ callChar v = (Char.ofNat b.toNat).toUpper

section RoundTrip
variable {nchar : UInt8 → Option Nat}

private theorem unpack_slotValue {n : List Nat} {ncall : Nat} (hlt : ∀ v ∈ n, v < 37)
    (h : slotValue n = some ncall) : ncall < NBASE ∧ unpackCall28 ncall = some (trim (n.map callChar)) := by
  unfold slotValue at h
  split at h
  · rename_i n0 n1 n2 n3 n4 n5
    have hl (v : Nat) (hv : v ∈ [n0,n1,n2,n3,n4,n5]) : v < 37 := hlt v hv
    have h0 := hl n0 (by simp)
    have h1 := hl n1 (by simp)
    have h3 := hl n3 (by simp)
    have h4 := hl n4 (by simp)
    have h5 := hl n5 (by simp)
    split at h
    · cases h
    · split at h
      · cases h
      · split at h
        · cases h
        · obtain rfl := Option.some.inj h
          have hbound : 27 * (27 * (27 * (10 * (36 * n0 + n1) + n2) + n3 - 10) + n4 - 10) + n5 - 10 < NBASE := by
            unfold NBASE
            omega
          refine ⟨hbound,?_⟩
          have e5 : (27 * (27 * (27 * (10 * (36 * n0 + n1) + n2) + n3 - 10) + n4 - 10) + n5 - 10) / 27 =
              27 * (27 * (10 * (36 * n0 + n1) + n2) + n3 - 10) + n4 - 10 := by omega
          have e4 : (27 * (27 * (10 * (36 * n0 + n1) + n2) + n3 - 10) + n4 - 10) / 27 =
              27 * (10 * (36 * n0 + n1) + n2) + n3 - 10 := by omega
          have e3 : (27 * (10 * (36 * n0 + n1) + n2) + n3 - 10) / 27 = 10 * (36 * n0 + n1) + n2 := by omega
          have e2 : (10 * (36 * n0 + n1) + n2) / 10 = 36 * n0 + n1 := by omega
          have e1 : (36 * n0 + n1) / 36 = n0 := by omega
          have m5 : (27 * (27 * (27 * (10 * (36 * n0 + n1) + n2) + n3 - 10) + n4 - 10) + n5 - 10) % 27 + 10 =
              n5 := by omega
          have m4 : (27 * (27 * (10 * (36 * n0 + n1) + n2) + n3 - 10) + n4 - 10) % 27 + 10 = n4 := by omega
          have m3 : (27 * (10 * (36 * n0 + n1) + n2) + n3 - 10) % 27 + 10 = n3 := by omega
          have m2 : (10 * (36 * n0 + n1) + n2) % 10 = n2 := by omega
          have m1 : (36 * n0 + n1) % 36 = n1 := by omega
          unfold unpackCall28
          rw [if_neg (Nat.not_le.mpr hbound)]
          simp only [e5,e4,e3,e2,e1,m5,m4,m3,m2,m1]
  · cases h

private theorem mapM_chars (hread : ReadsAlphabet nchar) (b : List UInt8) {n : List Nat}
    (h : b.mapM nchar = some n) :
    (∀ x ∈ b, x < 128) ∧ (∀ v ∈ n, v < 37) ∧
      n.map callChar = (b.map fun x => Char.ofNat x.toNat).map Char.toUpper := by
  induction b generalizing n with
  | nil =>
    obtain rfl : n = [] := by simpa using h.symm
    simp
  | cons x b ih =>
    rw [List.mapM_cons] at h
    simp only [Option.pure_def,Option.bind_eq_bind,Option.bind_eq_some_iff,Option.some.injEq] at h
    obtain ⟨v,hv,vs,hvs,rfl⟩ := h
    obtain ⟨hx,hlt,hchar⟩ := hread x v hv
    obtain ⟨hb,hvlt,hmap⟩ := ih hvs
    simp only [List.mem_cons,forall_eq_or_imp,List.map_cons,hchar,hmap]
    exact ⟨⟨hx,hb⟩,⟨hlt,hvlt⟩,trivial⟩

private theorem mapM_reads (b : List UInt8) {n : List Nat} (h : b.mapM nchar = some n) :
    ∀ x ∈ b, ∃ v, nchar x = some v := by
  induction b generalizing n with
  | nil => simp
  | cons x b ih =>
    rw [List.mapM_cons] at h
    simp only [Option.pure_def,Option.bind_eq_bind,Option.bind_eq_some_iff,Option.some.injEq] at h
    obtain ⟨v,hv,vs,hvs,_⟩ := h
    intro y hy
    rcases List.mem_cons.mp hy with rfl | hy
    · exact ⟨v,hv⟩
    · exact ih hvs y hy

/-- The slots are the call with blanks around it. -/
private theorem callSlots_pad {b tmp : List UInt8} (h : callSlots b = some tmp) :
    ∃ k m, tmp = List.replicate k 32 ++ (b ++ List.replicate m 32) := by
  unfold callSlots at h
  split at h
  · exact ⟨0,6 - b.length,(Option.some.inj h).symm⟩
  · split at h
    · split at h
      · cases h
      · exact ⟨1,5 - b.length,(Option.some.inj h).symm⟩
    · cases h

/-- Every character of an accepted call is in the table. -/
theorem packCall28_reads {call : Str} {ncall : Nat} (h : packCall28 call nchar = some ncall) :
    ∀ b ∈ asBytes call, ∃ v, nchar b = some v := by
  unfold packCall28 at h
  dsimp only at h
  split at h
  · cases h
  · obtain ⟨tmp,htmp,h⟩ := Option.bind_eq_some_iff.mp h
    obtain ⟨n,hn,_⟩ := Option.bind_eq_some_iff.mp h
    obtain ⟨k,m,rfl⟩ := callSlots_pad htmp
    intro b hb
    exact mapM_reads _ hn b (by simp [hb])

/-- Unpacking an accepted call gives it back trimmed, in capitals. -/
theorem unpackCall28_packCall28 (hread : ReadsAlphabet nchar) {call : Str} {ncall : Nat}
    (h : packCall28 call nchar = some ncall) :
    ncall < NBASE ∧ unpackCall28 ncall = some ((trim call).map Char.toUpper) := by
  unfold packCall28 at h
  dsimp only at h
  split at h
  · cases h
  · obtain ⟨tmp,htmp,h⟩ := Option.bind_eq_some_iff.mp h
    obtain ⟨n,hn,h⟩ := Option.bind_eq_some_iff.mp h
    obtain ⟨hb,hlt,hmap⟩ := mapM_chars hread tmp hn
    obtain ⟨hbound,hunpack⟩ := unpack_slotValue hlt h
    obtain ⟨k,m,rfl⟩ := callSlots_pad htmp
    have hascii : isAscii call := isAscii_of_asBytes fun x hx => hb x (by simp [hx])
    have hcall : (asBytes call).map (fun x => Char.ofNat x.toNat) = call := by
      have hback := fromUtf8_ascii (b := asBytes call) fun x hx => hb x (by simp [hx])
      rw [fromUtf8_asBytes] at hback
      exact (Option.some.inj hback).symm
    refine ⟨hbound,hunpack.trans (congrArg some ?_)⟩
    rw [hmap,trim_map_toUpper,List.map_append,List.map_append,List.map_replicate,List.map_replicate,
      hcall]
    exact congrArg (List.map Char.toUpper) (trim_pad call k m)

end RoundTrip

/-- Packing and unpacking are inverse to each other, up to the blanks around a call and its case. -/
def PacksAllCodes (nchar : UInt8 → Option Nat) : Prop :=
  (∀ call ncall, packCall28 call nchar = some ncall →
    ncall < NBASE ∧ unpackCall28 ncall = some ((trim call).map Char.toUpper)) ∧
  ∀ ncall < NBASE, ∃ call, unpackCall28 ncall = some call ∧ packCall28 call nchar = some ncall

/-- The byte of a slot value. -/
def slotByte (v : Nat) : UInt8 := UInt8.ofNat (callChar v).toNat

/-- The table reads every character a slot is rendered as. -/
def ReadsSlots (nchar : UInt8 → Option Nat) : Prop := ∀ v < 37, nchar (slotByte v) = some v

instance (nchar : UInt8 → Option Nat) : Decidable (ReadsSlots nchar) :=
  inferInstanceAs (Decidable (∀ v < 37, nchar (slotByte v) = some v))

section Repack

/-- Slot values that fill the six slots of a code. -/
private structure IsSlots (c1 c2 c3 : Nat) (tail : List Nat) : Prop where
  first : c1 ≤ 36
  second : c2 < 36
  third : c3 < 10
  length : tail.length = 3
  letters : ∀ v ∈ tail, 10 ≤ v ∧ v ≤ 36

private theorem callChar_facts : ∀ v < 37, (callChar v).toNat < 128 ∧
    (isWhitespace (callChar v) = true ↔ v = 36) ∧ (isDigitByte (slotByte v) = true ↔ v < 10) := by
  decide +kernel

private theorem asBytes_callChars {vs : List Nat} (h : ∀ v ∈ vs, v < 37) :
    asBytes (vs.map callChar) = vs.map slotByte := by
  have hascii : isAscii (vs.map callChar) := by
    simp only [isAscii,List.all_eq_true,List.mem_map,decide_eq_true_eq]
    rintro c ⟨v,hv,rfl⟩
    exact (callChar_facts v (h v hv)).1
  rw [asBytes_ascii hascii,List.map_map]
  rfl

private theorem trimmed_callChars {vs : List Nat} (h : ∀ v ∈ vs, v < 37) (hhead : ∀ v ∈ vs.head?, v ≠ 36)
    (hlast : ∀ v ∈ vs.getLast?, v ≠ 36) : Trimmed (vs.map callChar) := by
  have hsolid {v : Nat} (hv : v ∈ vs) (hne : v ≠ 36) : isWhitespace (callChar v) = false := by
    rw [← Bool.not_eq_true,(callChar_facts v (h v hv)).2.1]
    exact hne
  refine ⟨fun c hc => ?_,fun c hc => ?_⟩
  · rw [List.head?_map] at hc
    obtain ⟨v,hv,rfl⟩ := Option.mem_map.1 hc
    exact hsolid (List.mem_of_mem_head? hv) (hhead v hv)
  · rw [List.getLast?_map] at hc
    obtain ⟨v,hv,rfl⟩ := Option.mem_map.1 hc
    exact hsolid (List.mem_of_mem_getLast? hv) (hlast v hv)

/-- The blanks at the end of a list of slots. -/
private theorem trailing_blanks (vs : List Nat) :
    ∃ solid m, vs = solid ++ List.replicate m 36 ∧ ∀ v ∈ solid.getLast?, v ≠ 36 := by
  induction vs using List.reverseRecOn with
  | nil => exact ⟨[],0,rfl,by simp⟩
  | append_singleton vs v ih =>
    by_cases hv : v = 36
    · obtain ⟨solid,m,rfl,hlast⟩ := ih
      refine ⟨solid,m + 1,?_,hlast⟩
      rw [hv,List.append_assoc,← List.replicate_succ']
    · exact ⟨vs ++ [v],0,by simp,by simpa using hv⟩

/-- A call with its digit in the third slot goes back to the slots it came from. -/
private theorem callSlots_trimmed {c1 c2 c3 : Nat} {solid : List Nat} {m : Nat}
    (h : IsSlots c1 c2 c3 (solid ++ List.replicate m 36)) :
    callSlots (((if c1 = 36 then [] else [c1]) ++ c2 :: c3 :: solid).map slotByte) =
      some ((c1 :: c2 :: c3 :: (solid ++ List.replicate m 36)).map slotByte) := by
  have hlen : solid.length + m = 3 := by simpa using h.length
  have hdigit {v : Nat} (hv : v < 37) := (callChar_facts v hv).2.2
  have hc3 : isDigitByte (slotByte c3) = true := (hdigit (by have := h.third; omega)).2 h.third
  have hblank : slotByte 36 = 32 := by decide
  have hend : (c2 :: c3 :: (solid ++ List.replicate m 36)).map slotByte =
      (c2 :: c3 :: solid).map slotByte ++ List.replicate m 32 := by
    simp only [List.map_cons,List.map_append,List.map_replicate,hblank,List.cons_append]
  by_cases h1 : c1 = 36
  · have hthird : ¬(((c2 :: c3 :: solid).map slotByte).length ≥ 3 ∧
        isDigitByte (((c2 :: c3 :: solid).map slotByte).getD 2 0) = true) := by
      rintro ⟨hthree,hd⟩
      cases solid with
      | nil => exact absurd hthree (by simp)
      | cons v solid =>
        have hv := h.letters v (by simp)
        have hlt := (hdigit (by omega)).1 (show isDigitByte (slotByte v) = true from hd)
        omega
    have hm : 5 - ((c2 :: c3 :: solid).map slotByte).length = m := by
      rw [List.length_map,List.length_cons,List.length_cons]
      omega
    rw [if_pos h1,List.nil_append,callSlots,if_neg hthird,if_pos ⟨by simp,hc3⟩,if_neg (by simp; omega),hm,
      ← hend]
    exact congrArg (fun b => some (b :: _)) (h1 ▸ hblank.symm)
  · have hm : 6 - ((c1 :: c2 :: c3 :: solid).map slotByte).length = m := by
      rw [List.length_map,List.length_cons,List.length_cons,List.length_cons]
      omega
    rw [if_neg h1,List.singleton_append,callSlots,if_pos ⟨by simp,hc3⟩,hm]
    exact congrArg (fun l => some (slotByte c1 :: l)) hend.symm

/-- What `trim` leaves of the slots. -/
private theorem trim_slots {c1 c2 c3 : Nat} {solid : List Nat} {m : Nat}
    (h : IsSlots c1 c2 c3 (solid ++ List.replicate m 36)) (hlast : ∀ v ∈ solid.getLast?, v ≠ 36) :
    trim ((c1 :: c2 :: c3 :: (solid ++ List.replicate m 36)).map callChar) =
      ((if c1 = 36 then [] else [c1]) ++ c2 :: c3 :: solid).map callChar := by
  have h2 := h.second
  have h3 := h.third
  have hblank : callChar 36 = ' ' := by decide
  have hlt : ∀ v ∈ c2 :: c3 :: solid, v < 37 := by
    intro v hv
    rcases List.mem_cons.1 hv with rfl | hv
    · omega
    · rcases List.mem_cons.1 hv with rfl | hv
      · omega
      · have := h.letters v (List.mem_append_left _ hv)
        omega
  have hsolid : ∀ v ∈ (c2 :: c3 :: solid).getLast?, v ≠ 36 := by
    rw [List.getLast?_cons_cons,List.getLast?_cons]
    rintro v hv
    obtain rfl := Option.some.inj hv
    cases hs : solid.getLast? with
    | none =>
      rw [Option.getD_none]
      omega
    | some w => exact hlast w hs
  by_cases h1 : c1 = 36
  · have htrim := (trimmed_callChars hlt (by simp; omega) hsolid).trim_pad 1 m
    rw [if_pos h1,h1]
    simpa [hblank] using htrim
  · have h1' := h.first
    have hall : ∀ v ∈ c1 :: c2 :: c3 :: solid, v < 37 := List.forall_mem_cons.2 ⟨by omega,hlt⟩
    have htrim := (trimmed_callChars hall (by simpa using h1) (by rwa [List.getLast?_cons_cons])).trim_pad 0 m
    rw [if_neg h1]
    simpa [hblank] using htrim

private theorem packCall28_slots {nchar : UInt8 → Option Nat} (hreads : ReadsSlots nchar) {c1 c2 c3 : Nat} {tail : List Nat}
    (h : IsSlots c1 c2 c3 tail) :
    packCall28 (trim ((c1 :: c2 :: c3 :: tail).map callChar)) nchar = slotValue (c1 :: c2 :: c3 :: tail) := by
  obtain ⟨solid,m,rfl,hlast⟩ := trailing_blanks tail
  have h1 := h.first
  have h2 := h.second
  have h3 := h.third
  have hlen : solid.length + m = 3 := by simpa using h.length
  have hlt : ∀ v ∈ c1 :: c2 :: c3 :: (solid ++ List.replicate m 36), v < 37 := by
    intro v hv
    simp only [List.mem_cons] at hv
    rcases hv with rfl | rfl | rfl | hv
    · omega
    · omega
    · omega
    · have := h.letters v hv
      omega
  have hcore : ∀ v ∈ (if c1 = 36 then [] else [c1]) ++ c2 :: c3 :: solid, v < 37 := by
    intro v hv
    refine hlt v ?_
    split at hv <;> simp_all <;> tauto
  have hsize : ¬((((if c1 = 36 then [] else [c1]) ++ c2 :: c3 :: solid).map slotByte).isEmpty = true ∨
      (((if c1 = 36 then [] else [c1]) ++ c2 :: c3 :: solid).map slotByte).length > 6) := by
    split <;> simp <;> omega
  have hmapM : ((c1 :: c2 :: c3 :: (solid ++ List.replicate m 36)).map slotByte).mapM nchar =
      some (c1 :: c2 :: c3 :: (solid ++ List.replicate m 36)) := by
    rw [List.mapM_map]
    exact (mapM_eq_some fun v hv => hreads v (hlt v hv)).trans (congrArg some (List.map_id _))
  rw [trim_slots h hlast,packCall28,asBytes_callChars hcore,if_neg hsize,callSlots_trimmed h,Option.bind_some,hmapM,
    Option.bind_some]

/-- The slots of a code are read back as the code. -/
private theorem slotValue_digits {n : Nat} (hn : n < NBASE) :
    IsSlots (n / 27 / 27 / 27 / 10 / 36) (n / 27 / 27 / 27 / 10 % 36) (n / 27 / 27 / 27 % 10)
        [n / 27 / 27 % 27 + 10,n / 27 % 27 + 10,n % 27 + 10] ∧
      slotValue [n / 27 / 27 / 27 / 10 / 36,n / 27 / 27 / 27 / 10 % 36,n / 27 / 27 / 27 % 10,
        n / 27 / 27 % 27 + 10,n / 27 % 27 + 10,n % 27 + 10] = some n := by
  have e5 := Nat.div_add_mod n 27
  have e4 := Nat.div_add_mod (n / 27) 27
  have e3 := Nat.div_add_mod (n / 27 / 27) 27
  have e2 := Nat.div_add_mod (n / 27 / 27 / 27) 10
  have e1 := Nat.div_add_mod (n / 27 / 27 / 27 / 10) 36
  have hfirst : n / 27 / 27 / 27 / 10 / 36 ≤ 36 := by
    unfold NBASE at hn
    omega
  constructor
  · refine ⟨hfirst,Nat.mod_lt _ (by decide),Nat.mod_lt _ (by decide),rfl,?_⟩
    simp only [List.mem_cons,List.not_mem_nil,or_false,forall_eq_or_imp,forall_eq]
    omega
  · rw [slotValue,if_neg (by omega),if_neg (by omega),if_neg (by omega)]
    refine congrArg some ?_
    omega

/-- Every code, also one whose text is no callsign, is packed from its text again. -/
theorem packCall28_unpackCall28 {nchar : UInt8 → Option Nat} (hreads : ReadsSlots nchar) {n : Nat} (hn : n < NBASE) :
    ∃ call, unpackCall28 n = some call ∧ packCall28 call nchar = some n := by
  obtain ⟨hslots,hvalue⟩ := slotValue_digits hn
  refine ⟨_,if_neg (Nat.not_le.2 hn),?_⟩
  exact (packCall28_slots hreads hslots).trans hvalue

theorem packsAllCodes {nchar : UInt8 → Option Nat} (halphabet : ReadsAlphabet nchar) (hslots : ReadsSlots nchar) :
    PacksAllCodes nchar :=
  ⟨fun _ _ h => unpackCall28_packCall28 halphabet h,fun _ hn => packCall28_unpackCall28 hslots hn⟩

end Repack

end MfskCore.Msg
