import MfskCore.Engine.FrameDecode
import MfskCore.Msg.Ap

/-! The hypotheses of the last rungs (`msg/pipeline_ap.rs`): which hints a decode of FT4 or FST4 tries, and the bits of
the codeword that each of them locks. -/
namespace MfskCore.Msg
open Rust Fec Engine

/-- `ap_bits_for`: the hint describes the message, and the bits of the codeword are those of the scrambled one. -/
def apBitsFor (P : FrameParams) (hint : ApHint) : ApBits :=
  let ap := hint.buildBits P.fec.params.N
  (ap.1,scrambleBits P.INFO_SCRAMBLE_RVEC ap.2)

/-- The forms in which a hint is tried, each with the number that marks its decodes. -/
def apPasses (base : ApHint) : List (ApHint × UInt8) :=
  let both := base.call1.isSome && base.call2.isSome
  (if both then [("RRR",9),("RR73",10),("73",11)].map fun r : String × UInt8 =>
    ({ base with report := some r.1.toList },r.2) else []) ++
  (if base.call2.isSome && base.call1.isNone then [({ base with call1 := some "CQ".toList },7)] else []) ++
  (if both then [(base,8)] else []) ++ [(base,6)]

/-- What `__single_pass` tries: the forms of the caller's hint, and the blind CQ. -/
def apHints (hint : Option ApHint) : List (ApHint × UInt8) :=
  ((hint.filter ApHint.hasInfo).map apPasses).getD [] ++ [(⟨some "CQ".toList,none,none,none⟩,12)]

section Bits
variable {ap : ApBits} {start len val n : Nat}

theorem fieldBit_lt (len val i : Nat) : fieldBit len val i < 2 := by
  have hbit : (val >>> (len - 1 - i)) &&& 1 < 2 := Nat.lt_succ_of_le Nat.and_le_right
  rw [fieldBit,UInt8.lt_iff_toNat_lt,UInt8.toNat_ofNat_of_lt' (by show _ < 256; omega)]
  exact hbit

/-- Masks and values are bits, and no cell behind the message is masked. -/
structure MessageHint (ap : ApBits) (n : Nat) : Prop where
  sized : Sized ap n
  mask : ∀ i, ap.1.getD i 0 = 0 ∨ i < 77 ∧ ap.1.getD i 0 = 1
  values : IsBits n ap.2

theorem messageHint_blank (n : Nat) : MessageHint (List.replicate n 0,List.replicate n 0) n where
  sized := ⟨List.length_replicate,List.length_replicate⟩
  mask i := by
    refine Or.inl ?_
    rw [List.getD_eq_getElem?_getD,List.getElem?_replicate]
    split <;> rfl
  values := ⟨List.length_replicate,fun b hb => (List.eq_of_mem_replicate hb).symm ▸ by decide⟩

theorem MessageHint.lockBits (h : MessageHint ap n) (hend : start + len ≤ 77) :
    MessageHint (lockBits ap start len val) n where
  sized := h.sized.lockBits
  mask i := by
    rw [Msg.lockBits,List.getD_eq_getElem?_getD,Library.getElem?_foldl_set]
    split
    · exact Or.inr ⟨by omega,rfl⟩
    · rw [← List.getD_eq_getElem?_getD]
      exact h.mask i
  values := by
    refine ⟨h.sized.lockBits.values,fun b hb => ?_⟩
    obtain ⟨i,hi⟩ := List.mem_iff_getElem?.1 hb
    rw [Msg.lockBits,writeBits,Library.getElem?_foldl_set] at hi
    split at hi
    · exact Option.some.inj hi ▸ fieldBit_lt len val (i - start)
    · exact h.values.2 b (List.mem_of_getElem? hi)

theorem MessageHint.setCallBits (h : MessageHint ap n) (call : Str) (hend : start + 29 ≤ 77) :
    MessageHint (setCallBits ap call start) n := by
  rw [Msg.setCallBits]
  split
  · exact (h.lockBits (by omega)).lockBits (by omega)
  · exact h

theorem MessageHint.setExchangeBits (h : MessageHint ap n) (igrid : Nat) : MessageHint (setExchangeBits ap igrid) n :=
  (h.lockBits (by decide)).lockBits (by decide)

theorem MessageHint.elim {α : Type} (h : MessageHint ap n) (o : Option α) {f : α → ApBits}
    (hf : ∀ a, MessageHint (f a) n) : MessageHint (o.elim ap f) n := by
  cases o with
  | none => exact h
  | some a => exact hf a

theorem messageHint_buildBits (hint : ApHint) (n : Nat) : MessageHint (hint.buildBits n) n := by
  have h1 := (messageHint_blank n).elim hint.call1 fun c => (messageHint_blank n).setCallBits c (by decide : 0 + 29 ≤ 77)
  have h2 := h1.elim hint.call2 fun c => h1.setCallBits c (by decide : 29 + 29 ≤ 77)
  have h3 := h2.elim (hint.grid.bind packGrid4) fun igrid => h2.setExchangeBits igrid
  have h4 := h3.elim (hint.report.bind ApHint.responseField) fun igrid => h3.setExchangeBits igrid
  rw [ApHint.buildBits]
  split
  · exact h4.lockBits (by decide)
  · exact h4

end Bits

section Codeword
variable {P : FrameParams}

/-- A hypothesis as the ladder takes it. -/
def apConfig (P : FrameParams) (c : ApHint × UInt8) : ApConfig P where
  mask := (apBitsFor P c.1).1
  values := (apBitsFor P c.1).2
  passId := c.2
  length_mask := (messageHint_buildBits c.1 _).sized.mask
  length_values := (isBits_scrambleBits _ (messageHint_buildBits c.1 _).values).1

@[simp] theorem apConfig_mask (c : ApHint × UInt8) :
    (apConfig P c).mask = (c.1.buildBits P.fec.params.N).1 := rfl

@[simp] theorem apConfig_values (c : ApHint × UInt8) :
    (apConfig P c).values = scrambleBits P.INFO_SCRAMBLE_RVEC (c.1.buildBits P.fec.params.N).2 := rfl

/-- The hypotheses of a decode, as the ladder takes them. -/
def apConfigs (P : FrameParams) (hint : Option ApHint) : List (ApConfig P) := (apHints hint).map (apConfig P)

/-- The bits that a hint locks are those of a word of the code. -/
def LocksWord (ap : ApConfig P) (cw : List UInt8) : Prop :=
  ∀ i < P.fec.params.N, ap.mask.getD i 0 ≠ 0 → ap.values.getD i 0 = cw.getD i 0

/-- A bit is scrambled on either side. -/
private theorem scrambled_eq_iff (r : Option UInt8) {v w : UInt8} (hv : v < 2) (hw : w < 2) :
    (match r with
      | some r => (v ^^^ r) &&& 1
      | none => v) = w ↔
    v = match r with
      | some r => (w ^^^ r) &&& 1
      | none => w := by
  cases r with
  | none => rfl
  | some r =>
    constructor
    · rintro rfl
      exact ((scramble_twice v r).trans (and_one_of_lt hv)).symm
    · rintro rfl
      exact (scramble_twice w r).trans (and_one_of_lt hw)

/-- In the codeword of a word, a hint locks the bits of that word exactly when it agrees with the message in it. -/
theorem locksWord_iff (hP : CarriesMessage P) {word : List UInt8} (hword : IsBits P.fec.params.K word)
    (c : ApHint × UInt8) :
    LocksWord (apConfig P c) (P.fec.encode word) ↔
      (c.1.buildBits P.fec.params.N).Agrees ((descrambleInfo P word).take 77) := by
  have hhint := messageHint_buildBits c.1 P.fec.params.N
  have hK : 77 ≤ P.fec.params.K := by rcases hP.room with h | h <;> omega
  have hN : P.fec.params.K ≤ P.fec.params.N := P.fec.consistent.size ▸ Nat.le_add_right _ _
  have hcell (i : Nat) (hi : i < 77) :
      (apConfig P c).values.getD i 0 = (P.fec.encode word).getD i 0 ↔
        (c.1.buildBits P.fec.params.N).2.getD i 0 = ((descrambleInfo P word).take 77).getD i 0 := by
    obtain ⟨v,hv⟩ : ∃ v, (c.1.buildBits P.fec.params.N).2[i]? = some v :=
      ⟨_,List.getElem?_eq_getElem (by rw [hhint.sized.values]; omega)⟩
    obtain ⟨w,hw⟩ : ∃ w, word[i]? = some w := ⟨_,List.getElem?_eq_getElem (by rw [hword.1]; omega)⟩
    have hsent : (P.fec.encode word)[i]? = some w := by
      rw [← List.getElem?_take_of_lt (by omega : i < P.fec.params.K),LdpcCodec.encode,take_encode word hword.1,hw]
    have hiff := scrambled_eq_iff (P.INFO_SCRAMBLE_RVEC.bind fun rvec => rvec[i]?)
      (hhint.values.2 v (List.mem_of_getElem? hv)) (hword.2 w (List.mem_of_getElem? hw))
    rw [apConfig_values,List.getD_eq_getElem?_getD,List.getD_eq_getElem?_getD,List.getD_eq_getElem?_getD,
      List.getD_eq_getElem?_getD,List.getElem?_take_of_lt hi,descrambleInfo,getElem?_scrambleBits,getElem?_scrambleBits,
      hv,hw,hsent]
    exact hiff
  constructor
  · intro h i hi hmask
    exact (hcell i hi).1 (h i (by omega) (by rw [apConfig_mask,hmask]; decide))
  · intro h i _ hmask
    rcases hhint.mask i with hzero | ⟨hi,hone⟩
    · exact absurd hzero hmask
    · exact (hcell i hi).2 (h i hi hone)

end Codeword

/-- What FT4 and FST4 try for a hint locks bits of the codeword in which a message goes out, and each hypothesis locks
them to what is sent exactly when it agrees with the message. -/
theorem hypotheses_lock_sent_word (p : GenericPipelineProtocol) (hint : Option ApHint) {m : List UInt8}
    (hm : IsBits 77 m) :
    ∃ word, IsBits p.params.fec.params.K word ∧ Engine.verifyInfo word = true ∧
      messageToTones p.params m = p.params.infoToTones word ∧
      ∀ ap ∈ apConfigs p.params hint, ∃ c ∈ apHints hint, ap.passId = c.2 ∧
        (LocksWord ap (p.params.fec.encode word) ↔ (c.1.buildBits p.params.fec.params.N).Agrees m) := by
  obtain ⟨word,hword,hverify,htake,hsent⟩ := messageToTones_eq p.message.carries hm
  refine ⟨word,hword,hverify,hsent,fun ap hap => ?_⟩
  obtain ⟨c,hc,rfl⟩ := List.mem_map.1 hap
  exact ⟨c,hc,rfl,htake ▸ locksWord_iff p.message.carries hword c⟩

/-- The closing of a contact that is under way, in FT4: the hypothesis with the response in it locks what is sent. -/
theorem hypotheses_lock_closing :
    let hint : ApHint := ⟨some "JA1ABC".toList,some "3Y0Z".toList,none,none⟩
    let m := (pack77 "JA1ABC".toList "3Y0Z".toList "RR73".toList).getD []
    ∃ word, messageToTones Ft4 m = Ft4.infoToTones word ∧
      ∃ ap ∈ apConfigs Ft4 (some hint), ap.passId = 10 ∧ LocksWord ap (Ft4.fec.encode word) := by
  intro hint m
  have hm : IsBits 77 m := by
    unfold IsBits
    decide +kernel
  have hclosing : ∀ c ∈ apHints (some hint), c.2 = 10 → ∀ i < 77, (c.1.buildBits 174).1.getD i 0 = 1 →
      (c.1.buildBits 174).2.getD i 0 = m.getD i 0 := by decide +kernel
  obtain ⟨word,-,-,hsent,hlocks⟩ := hypotheses_lock_sent_word .Ft4 (some hint) hm
  refine ⟨word,hsent,apConfig Ft4 ({ hint with report := some "RR73".toList },10),List.mem_map_of_mem ?_,rfl,?_⟩
  · exact List.mem_cons_of_mem _ List.mem_cons_self
  · obtain ⟨c,hc,hpass,hiff⟩ := hlocks (apConfig Ft4 ({ hint with report := some "RR73".toList },10))
      (List.mem_map_of_mem (List.mem_cons_of_mem _ List.mem_cons_self))
    exact hiff.2 (hclosing c hc hpass.symm)

end MfskCore.Msg
