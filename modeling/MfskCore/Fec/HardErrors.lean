import MfskCore.Fec.RunningSum
import MfskCore.Fec.SoftDecode
import MfskCore.Library.Disagreement
import Mathlib.Data.Rat.Floor

/-! The hard errors a decode reports are errors against the channel, unless the word comes from the retry on
the running sum: that stage counts them against the sum. -/
namespace MfskCore.Fec
open Rust Library

section Counts
variable {F : Type} [F32 F] (P : LdpcParams) (llr zsum : List F)

/-- The positions where the running sum changes the hard decision. -/
def changedBySum : List Nat := (List.range P.N).filter fun i => hard llr i != hard zsum i

/-- The two counts of a word's errors agree exactly when it sides with the channel at half of the positions
where the decisions differ. -/
theorem hardErrorsOf_eq_iff (c : List UInt8) :
    hardErrorsOf P zsum c = hardErrorsOf P llr c ↔
      2 * (changedBySum P llr zsum).countP (fun i => (c.getD i 0 == 1) == hard llr i) =
        (changedBySum P llr zsum).length :=
  countP_bne_eq_iff (List.range P.N) (fun i => c.getD i 0 == 1) (hard llr) (hard zsum)

end Counts

namespace LdpcCodec
variable {F : Type} [F32 F] (codec : LdpcCodec) (sorter : SortUnstable) (useNpre : Bool) (llr : List F)
  (opts : DecodeOpts F)

/-- The retry is reached, and does not side with the channel at half of the positions where the running sum
changed the decision. -/
structure RetryMiscounts : Prop where
  fst4 : codec = Ldpc240_101
  bp : bpDecodeGenericKind codec.params llr none opts.bpMaxIter opts.verifyInfo opts.bpKind = none
  depth : opts.osdDepth ≠ 0
  osd : codec.osdStage sorter useNpre llr opts = none
  retry : ∃ r, codec.retryStage sorter useNpre (bpLlrZsum codec.params llr 2) opts none = some r ∧
    2 * (changedBySum codec.params llr (bpLlrZsum codec.params llr 2)).countP
      (fun i => (r.codeword.getD i 0 == 1) == hard llr i) ≠
        (changedBySum codec.params llr (bpLlrZsum codec.params llr 2)).length

variable {codec sorter useNpre llr opts}

theorem retryStage_some {zsum : List F} {apMask : Option (List Bool)} {r : OsdResult}
    (hr : codec.retryStage sorter useNpre zsum opts apMask = some r) :
    codec = Ldpc240_101 ∧ r.codeword = codec.encode r.info ∧
      r.hardErrors = hardErrorsOf codec.params zsum r.codeword ∧
      passes opts.verifyInfo r.info = true ∧ IsBits codec.params.K r.info := by
  unfold retryStage at hr
  split at hr
  · exact ⟨rfl,fst4OsdDecode_some hr⟩
  · cases hr

/-- A pool of the right sizes decodes as fresh buffers. -/
theorem decodeSoftPooled_eq {s : BpScratch F F} (hs : s.Sized codec.params) :
    (codec.decodeSoftPooled sorter useNpre llr opts s).map Prod.fst = codec.decodeSoft sorter useNpre llr opts := by
  rw [decodeSoftPooled,decodeSoft,Option.map_map]
  refine congrArg (fun f => Option.map f (codec.prepareApLlr llr opts.toFecOpts)) (funext fun prepared => ?_)
  obtain ⟨llrArr,apMask⟩ := prepared
  have hbp := kind_scratch opts.bpKind hs llrArr apMask opts.bpMaxIter opts.verifyInfo
  have hsized := sized_kind opts.bpKind hs llrArr apMask opts.bpMaxIter opts.verifyInfo
  rw [Function.comp_apply]
  dsimp only
  rw [← hbp]
  generalize bpDecodeGenericKindWithScratch codec.params s llrArr apMask opts.bpMaxIter opts.verifyInfo
    opts.bpKind = res at hsized ⊢
  obtain ⟨bp,scratch⟩ := res
  have hzsum := zsum_scratch hsized llrArr 2
  cases bp with
  | some r => rfl
  | none =>
    dsimp only
    split
    · rfl
    · cases codec.osdStage sorter useNpre llrArr opts with
      | some r => rfl
      | none =>
        dsimp only
        split
        · rw [← hzsum]
        · rename_i hretry
          have hnone : codec.retryStage sorter useNpre (bpLlrZsum codec.params llrArr 2) opts apMask = none := by
            unfold retryStage
            split
            · exact absurd ⟨rfl,rfl⟩ hretry
            · rfl
          rw [hnone]
          rfl

/-- The pool keeps its sizes. -/
theorem sized_decodeSoftPooled {s : BpScratch F F} (hs : s.Sized codec.params) {found : Option FecResult × BpScratch F F}
    (h : codec.decodeSoftPooled sorter useNpre llr opts s = some found) : found.2.Sized codec.params := by
  obtain ⟨⟨llrArr,apMask⟩,-,rfl⟩ := Option.map_eq_some_iff.mp h
  have hsized := sized_kind opts.bpKind hs llrArr apMask opts.bpMaxIter opts.verifyInfo
  dsimp only
  generalize bpDecodeGenericKindWithScratch codec.params s llrArr apMask opts.bpMaxIter opts.verifyInfo
    opts.bpKind = res at hsized ⊢
  obtain ⟨bp,scratch⟩ := res
  cases bp with
  | some r => exact hsized
  | none =>
    dsimp only
    split
    · exact hsized
    · cases codec.osdStage sorter useNpre llrArr opts with
      | some r => exact hsized
      | none =>
        dsimp only
        split
        · exact sized_zsum hsized llrArr 2
        · exact hsized

/-- A call panics exactly when its lists are not over the codeword. -/
theorem decodeSoft_isSome_iff :
    (codec.decodeSoft sorter useNpre llr opts).isSome ↔ codec.OverCodeword llr opts.toFecOpts := by
  rw [decodeSoft,Option.isSome_map,prepareApLlr_isSome_iff]

/-- Whatever stage it comes from, what is decoded is information that passes. -/
theorem decodeSoft_some {r : FecResult} (hr : codec.decodeSoft sorter useNpre llr opts = some (some r)) :
    passes opts.verifyInfo r.info = true ∧ IsBits codec.params.K r.info := by
  obtain ⟨⟨llrArr,apMask⟩,-,hr⟩ := Option.map_eq_some_iff.mp hr
  dsimp only at hr
  split at hr
  · rename_i bp hbp
    obtain rfl := Option.some.inj hr
    exact (bp_some hbp).2.2
  · split at hr
    · cases hr
    · split at hr
      · rename_i osd hosd
        obtain rfl := Option.some.inj hr
        exact (osdStage_some hosd).2.2
      · obtain ⟨found,hfound,rfl⟩ := Option.map_eq_some_iff.mp hr
        exact (retryStage_some hfound).2.2.2

/-- Without a hint, what is decoded miscounts exactly when the retry does. -/
theorem decodeSoft_counts_iff (hllr : llr.length = codec.params.N) (hmask : opts.apMask = none) :
    (∀ r, codec.decodeSoft sorter useNpre llr opts = some (some r) →
      r.hardErrors = hardErrorsOf codec.params llr (codec.encode r.info)) ↔
      ¬codec.RetryMiscounts sorter useNpre llr opts := by
  rw [decodeSoft,prepareApLlr_unhinted hllr hmask,Option.map_some]
  dsimp only
  split
  · rename_i bp hbp
    obtain ⟨hword,hcount,-,-⟩ := bp_some hbp
    refine iff_of_true (fun r hr => ?_) fun h => by simp [h.bp] at hbp
    obtain rfl := Option.some.inj (Option.some.inj hr)
    exact hword ▸ hcount
  · rename_i hbp
    split
    · rename_i hdepth
      exact iff_of_true (fun r hr => by cases hr) fun h => h.depth hdepth
    · rename_i hdepth
      split
      · rename_i osd hosd
        obtain ⟨hword,hcount,-,-⟩ := osdStage_some hosd
        refine iff_of_true (fun r hr => ?_) fun h => by simp [h.osd] at hosd
        obtain rfl := Option.some.inj (Option.some.inj hr)
        exact hword ▸ hcount
      · rename_i hosd
        constructor
        · rintro hcounts ⟨rfl,_,_,_,r,hr,hne⟩
          obtain ⟨_,hword,hcount,-,-⟩ := retryStage_some hr
          refine hne ((hardErrorsOf_eq_iff _ _ _ _).mp ?_)
          rw [← hcount]
          have hfound := hcounts r.fecResult (by rw [hr]; rfl)
          exact hword ▸ hfound
        · intro hnot r hr
          obtain ⟨found,hfound,rfl⟩ := Option.map_eq_some_iff.mp (Option.some.inj hr)
          obtain ⟨hcodec,hword,hcount,-,-⟩ := retryStage_some hfound
          by_contra hne
          refine hnot ⟨hcodec,hbp,hdepth,hosd,found,hfound,fun hhalf => hne ?_⟩
          have heq := (hardErrorsOf_eq_iff _ _ _ found.codeword).mpr hhalf
          show found.hardErrors = hardErrorsOf codec.params llr (codec.encode found.info)
          rw [← hword,hcount,heq]

variable (codec sorter useNpre llr opts) in
/-- What is passed in leaves the retry nothing to do: the codec has none, ordered statistics are off, a word that
passes is within the order tried in full around the hard decisions on the most reliable basis, or no word passes. -/
inductive RetryIdle : Prop
  | codec (h : codec ≠ Ldpc240_101)
  | depth (h : opts.osdDepth = 0)
  | near (c : List UInt8)
      (hc : SearchSpace codec.params llr (mostReliableBasis codec.params sorter llr)
        (unprunedOrder useNpre (min opts.osdDepth 3)) c)
      (hpass : passes opts.verifyInfo (c.take codec.params.K) = true)
  | refused (h : ∀ info, IsBits codec.params.K info → passes opts.verifyInfo info = false)

theorem RetryIdle.not_retryMiscounts (h : codec.RetryIdle sorter useNpre llr opts) :
    ¬codec.RetryMiscounts sorter useNpre llr opts := by
  rintro ⟨rfl,-,hdepth,hosd,r,hr,-⟩
  cases h with
  | codec h => exact h rfl
  | depth h => exact hdepth h
  | near c hc hpass => exact fst4OsdDecode_ne_none (by omega) (by omega) hc hpass hosd
  | refused h =>
    obtain ⟨-,-,-,hpass,hbits⟩ := retryStage_some hr
    rw [h _ hbits] at hpass
    cases hpass

/-- Some word has the hard decisions on the whole basis. -/
theorem exists_near (codec : LdpcCodec) (sorter : SortUnstable) (llr : List F) (order : Nat) :
    ∃ c, SearchSpace codec.params llr (mostReliableBasis codec.params sorter llr) order c := by
  obtain ⟨b,-,hsound,hperm⟩ := osdSetup_sound codec.params sorter llr codec.consistent.size
  have hzero := (searchSpace_zero_iff hsound codec.consistent.size codec.size_le
    (b.scatter codec.params (b.orderZero codec.params llr))).mpr rfl
  rw [OsdBasis.basis,hsound.greedy,hperm] at hzero
  exact ⟨_,hzero.1,hzero.2.trans (Nat.zero_le _)⟩

theorem retryIdle_of_unfiltered (hopen : opts.verifyInfo = none) : codec.RetryIdle sorter useNpre llr opts := by
  obtain ⟨c,hc⟩ := exists_near codec sorter llr (unprunedOrder useNpre (min opts.osdDepth 3))
  refine .near c hc ?_
  rw [hopen]
  rfl

/-- Without a filter FST4's decoder always gives out something. -/
theorem decodeSoft_unfiltered (hllr : llr.length = Ldpc240_101.params.N) (hmask : opts.apMask = none)
    (hdepth : opts.osdDepth ≠ 0) (hopen : opts.verifyInfo = none) :
    ∃ r, Ldpc240_101.decodeSoft sorter useNpre llr opts = some (some r) := by
  obtain ⟨c,hc⟩ := exists_near Ldpc240_101 sorter llr (unprunedOrder useNpre (min opts.osdDepth 3))
  have hosd : Ldpc240_101.osdStage sorter useNpre llr opts ≠ none := by
    refine fst4OsdDecode_ne_none (by omega) (by omega) hc ?_
    rw [hopen]
    rfl
  rw [decodeSoft,prepareApLlr_unhinted hllr hmask,Option.map_some]
  dsimp only
  split
  · exact ⟨_,rfl⟩
  · rw [if_neg hdepth]
    split
    · exact ⟨_,rfl⟩
    · rename_i hnone
      exact absurd hnone hosd

end LdpcCodec

/-- Rational arithmetic with a hyperbolic tangent that is exact to first order until it saturates. -/
@[reducible] def clampedF32 : F32 Rat := fieldF32 Rat (fun x => max (-1) (min 1 x)) id 0 Rat.floor

section Retry

/-- Observations of the bits of two checks of FST4's code that share a bit. -/
def retryValues : List (Nat × Rat) :=
  [(2,40),(6,-1),(51,-48),(55,-64),(94,-52),(98,30),(101,-60),(105,-31),(138,-32),(139,-56),(181,-81/2)]

/-- All the other bits are erased. -/
def retryLlr : List Rat := (List.range 240).map fun i => (retryValues.lookup i).getD 0

/-- Accept the words with these two bits set. -/
def retryVerify (info : List UInt8) : Bool :=
  (Ldpc240_101Params.ldpcEncodeGeneric info).getD 55 0 == 1 &&
    (Ldpc240_101Params.ldpcEncodeGeneric info).getD 181 0 == 1

def retryOpts : DecodeOpts Rat := ⟨⟨0,none,0,some retryVerify,.SumProduct⟩,1⟩

private def retryBits : List Nat := retryValues.map Prod.fst

/-- The messages of the two checks, the same at every iteration. -/
private def retryMessage (j i : Nat) : Rat :=
  if i = 0 then (List.lookup j [(2,-46/5),(51,46/5),(94,46/5),(101,46/5),(139,46/5),(181,46/5)]).getD 0
  else if i = 4 then (List.lookup j [(6,46/5),(55,1),(98,-1),(105,1),(138,1),(181,1)]).getD 0
  else 0

private def retrySums : List (Nat × Rat) :=
  [(2,508/5),(6,77/5),(51,-628/5),(55,-190),(94,-688/5),(98,88),(101,-808/5),(105,-91),(138,-94),
   (139,-748/5),(181,-1011/10)]

private def retrySum : List Rat := (List.range 240).map fun i => (retrySums.lookup i).getD 0

/-- The word of the given information bits. -/
private def retryWord (ones : List Nat) : List UInt8 := (List.range 101).map fun i => if i ∈ ones then 1 else 0

/-- A word that is one at position `i` and zero at the heard bits that are as reliable. -/
private def Separates (llr : List Rat) (i : Nat) (ones : List Nat) : Prop :=
  0 < |llr.getD i 0| ∧ bitCast ((Ldpc240_101Params.ldpcEncodeGeneric (retryWord ones)).getD i 0) ≠ 0 ∧
    ∀ j ∈ retryBits, j ≠ i → |llr.getD i 0| ≤ |llr.getD j 0| →
      bitCast ((Ldpc240_101Params.ldpcEncodeGeneric (retryWord ones)).getD j 0) = 0

private instance (llr : List Rat) (i : Nat) (ones : List Nat) : Decidable (Separates llr i ones) :=
  inferInstanceAs (Decidable (_ ∧ _ ∧ _))

/-- The messages of the two checks that are heard, when the others send `msg`. -/
private def HeardMessages (msg : Nat → Nat → Rat) : Prop :=
  ∀ j < 240, ∀ k < NCW, (Ldpc240_101Params.mn j).getD k 0 = 0 ∨ (Ldpc240_101Params.mn j).getD k 0 = 4 →
    @edgeMessage Rat clampedF32 Ldpc240_101Params retryLlr msg j ((Ldpc240_101Params.mn j).getD k 0) =
      retryMessage j ((Ldpc240_101Params.mn j).getD k 0)

/-- What the tables of the code and these observations evaluate to. -/
private class RetryFacts : Prop where
  inRange : Ldpc240_101Params.InRange
  /-- Every other check has two bits that are erased. -/
  quiet_check : ∀ i < 139, i = 0 ∨ i = 4 ∨
    ∃ s < Ldpc240_101Params.nrw i, ∃ t < Ldpc240_101Params.nrw i,
      Ldpc240_101Params.nm i s ≠ Ldpc240_101Params.nm i t ∧
        Ldpc240_101Params.nm i s ∉ retryBits ∧ Ldpc240_101Params.nm i t ∉ retryBits
  first : HeardMessages fun _ _ => (0.0 : Rat)
  again : HeardMessages retryMessage
  heard : ∀ j ∈ retryBits,
    (List.range 2).foldl (fun z _ => z + @edgeEstimate Rat clampedF32 Ldpc240_101Params retryLlr retryMessage j)
      (0 + @edgeEstimate Rat clampedF32 Ldpc240_101Params retryLlr (fun _ _ => (0 : Rat)) j) = retrySum.getD j 0
  changed : ∀ j ∈ retryBits, (@hard Rat clampedF32 retryLlr j != @hard Rat clampedF32 retrySum j) = decide (j = 6)
  llr_basis : ∀ p ∈ [(55,[55]),(181,[0,2])], Separates retryLlr p.1 p.2
  sum_basis : ∀ p ∈ [(55,[55]),(101,[0]),(139,[3]),(94,[3,94]),(51,[1,51]),(2,[0,2])], Separates retrySum p.1 p.2
  hard_llr : @hard Rat clampedF32 retryLlr 55 = false ∧ @hard Rat clampedF32 retryLlr 181 = false
  hard_sum : @hard Rat clampedF32 retrySum 55 = false ∧ @hard Rat clampedF32 retrySum 2 = true ∧
    ∀ j ∈ [51,94,101,139], @hard Rat clampedF32 retrySum j = false

private theorem forall_mn {Q : Nat → List Nat → Prop} (h : ∀ row ∈ Ldpc240_101Params.MN.zipIdx, Q row.2 row.1) :
    ∀ j < 240, Q j (Ldpc240_101Params.mn j) := LdpcParams.forall_mn (P := Ldpc240_101Params) (by decide +kernel) h

private theorem forall_nm {Q : Nat → List Nat → Nat → Prop}
    (h : ∀ row ∈ (Ldpc240_101Params.NM.zip Ldpc240_101Params.NRW).zipIdx, Q row.2 row.1.1 row.1.2) :
    ∀ i < 139, Q i (Ldpc240_101Params.NM.getD i []) (Ldpc240_101Params.nrw i) :=
  LdpcParams.forall_nm (P := Ldpc240_101Params) (by decide +kernel) (by decide +kernel) h

private theorem heardMessages (msg : Nat → Nat → Rat)
    (h : ∀ row ∈ Ldpc240_101Params.MN.zipIdx, ∀ k < NCW, row.1.getD k 0 = 0 ∨ row.1.getD k 0 = 4 →
      @edgeMessage Rat clampedF32 Ldpc240_101Params retryLlr msg row.2 (row.1.getD k 0) =
        retryMessage row.2 (row.1.getD k 0)) : HeardMessages msg :=
  forall_mn (Q := fun j row => ∀ k < NCW, row.getD k 0 = 0 ∨ row.getD k 0 = 4 →
    @edgeMessage Rat clampedF32 Ldpc240_101Params retryLlr msg j (row.getD k 0) = retryMessage j (row.getD k 0)) h

private instance retryFacts : RetryFacts where
  inRange := LdpcCodec.inRange .Ldpc240_101
  quiet_check :=
    forall_nm (Q := fun i row w => i = 0 ∨ i = 4 ∨ ∃ s < w, ∃ t < w, row.getD s 0 ≠ row.getD t 0 ∧
      row.getD s 0 ∉ retryBits ∧ row.getD t 0 ∉ retryBits) (by decide +kernel)
  first := heardMessages _ (by decide +kernel)
  again := heardMessages _ (by decide +kernel)
  heard := by decide +kernel
  changed := by decide +kernel
  llr_basis := by decide +kernel
  sum_basis := by decide +kernel
  hard_llr := by decide +kernel
  hard_sum := by decide +kernel

/-- A bit without a value has none. -/
private theorem lookup_quiet {l : List (Nat × Rat)} (hl : ∀ p ∈ l, p.1 ∈ retryBits) {i : Nat} (h : i ∉ retryBits) :
    (l.lookup i).getD 0 = 0 := by
  rw [List.lookup_eq_none_iff.mpr,Option.getD_none]
  intro p hp
  have hne : i ≠ p.1 := fun heq => h (heq ▸ hl p hp)
  simpa using hne

private theorem getD_spread (l : List (Nat × Rat)) {i : Nat} (hi : i < 240) :
    ((List.range 240).map fun i => (l.lookup i).getD 0).getD i 0 = (l.lookup i).getD 0 := by
  rw [List.getD_eq_getElem?_getD,List.getElem?_map,List.getElem?_range hi,Option.map_some,Option.getD_some]

private theorem retryLlr_quiet {i : Nat} (hi : i < 240) (h : i ∉ retryBits) : retryLlr.getD i 0 = 0 :=
  (getD_spread _ hi).trans (lookup_quiet (by decide) h)

private theorem retrySum_quiet {i : Nat} (hi : i < 240) (h : i ∉ retryBits) : retrySum.getD i 0 = 0 :=
  (getD_spread _ hi).trans (lookup_quiet (by decide) h)

private theorem retryMessage_quiet {i : Nat} (h : i ∉ retryBits) (c : Nat) : retryMessage i c = 0 := by
  unfold retryMessage
  split
  · exact lookup_quiet (by decide) h
  · split
    · exact lookup_quiet (by decide) h
    · rfl

/-- The two checks keep sending the same messages, whatever the others hold. -/
private theorem retry_messages (msg : Nat → Nat → Rat) (hmsg : ∀ b ∉ retryBits, ∀ c, msg b c = 0) :
    letI := clampedF32
    HeardMessages msg → ∀ j < 240, ∀ k < NCW,
      edgeMessage Ldpc240_101Params retryLlr msg j ((Ldpc240_101Params.mn j).getD k 0) =
        retryMessage j ((Ldpc240_101Params.mn j).getD k 0) := by
  let _ := clampedF32
  intro hactive j hj k hk
  have hi := retryFacts.inRange.check j hj k hk
  rcases retryFacts.quiet_check _ hi with h0 | h4 | ⟨s,hs,t,ht,hne,hquiet,hquiet'⟩
  · exact hactive j hj k hk (Or.inl h0)
  · exact hactive j hj k hk (Or.inr h4)
  · have hother : ∃ r < Ldpc240_101Params.nrw ((Ldpc240_101Params.mn j).getD k 0),
        Ldpc240_101Params.nm ((Ldpc240_101Params.mn j).getD k 0) r ≠ j ∧
          Ldpc240_101Params.nm ((Ldpc240_101Params.mn j).getD k 0) r ∉ retryBits := by
      by_cases hsj : Ldpc240_101Params.nm ((Ldpc240_101Params.mn j).getD k 0) s = j
      · exact ⟨t,ht,fun htj => hne (hsj.trans htj.symm),hquiet'⟩
      · exact ⟨s,hs,hsj,hquiet⟩
    obtain ⟨r,hr,hrj,hquiet⟩ := hother
    have hbit := retryFacts.inRange.bit _ hi r hr
    by_cases hactive' : (Ldpc240_101Params.mn j).getD k 0 = 0 ∨ (Ldpc240_101Params.mn j).getD k 0 = 4
    · exact hactive j hj k hk hactive'
    · obtain ⟨h0,h4⟩ := not_or.mp hactive'
      rw [edgeMessage_of_silent _ _ _ _ rfl rfl hr hrj (retryLlr_quiet hbit hquiet) (hmsg _ hquiet),retryMessage,
        if_neg h0,if_neg h4]

private theorem retry_sum :
    letI := clampedF32
    bpLlrZsum Ldpc240_101Params retryLlr 2 = retrySum := by
  let _ := clampedF32
  have hfirst := retry_messages _ (fun _ _ _ => zero_literal) retryFacts.first
  have hagain := retry_messages _ (fun _ hb c => retryMessage_quiet hb c) retryFacts.again
  have hlength : (bpLlrZsum Ldpc240_101Params retryLlr 2).length = 240 := length_bpLlrZsum 2
  apply List.ext_getElem (by simpa [retrySum] using hlength)
  intro j hj hj'
  rw [hlength] at hj
  have hvalue := getD_bpLlrZsum retryFacts.inRange hfirst hagain 2 hj
  rw [← List.getD_eq_getElem _ 0,← List.getD_eq_getElem _ 0]
  rw [zero_literal] at hvalue
  rw [hvalue]
  by_cases hbit : j ∈ retryBits
  · exact retryFacts.heard j hbit
  · have hllr := retryLlr_quiet hj hbit
    rw [retrySum_quiet hj hbit,edgeEstimate_of_silent _ _ _ _ hllr (retryMessage_quiet hbit),
      edgeEstimate_of_silent _ _ _ _ hllr fun _ => rfl]
    decide +kernel

/-- The running sum changes one decision. -/
private theorem retry_changed :
    letI := clampedF32
    changedBySum Ldpc240_101Params retryLlr retrySum = [6] := by
  let _ := clampedF32
  have hchanged : ∀ j ∈ List.range 240, (hard retryLlr j != hard retrySum j) = decide (j = 6) := by
    intro j hj
    have hj := List.mem_range.mp hj
    by_cases hbit : j ∈ retryBits
    · exact retryFacts.changed j hbit
    · have hne : j ≠ 6 := fun h => hbit (h ▸ by decide)
      have hllr : hard retryLlr j = false := by
        show decide (retryLlr.getD j (0.0 : Rat) > (0.0 : Rat)) = false
        rw [zero_literal,retryLlr_quiet hj hbit]
        decide
      have hsum : hard retrySum j = false := by
        show decide (retrySum.getD j (0.0 : Rat) > (0.0 : Rat)) = false
        rw [zero_literal,retrySum_quiet hj hbit]
        decide
      rw [hllr,hsum,decide_eq_false hne]
      rfl
  show (List.range 240).filter _ = _
  rw [List.filter_congr hchanged]
  decide

/-- Belief propagation is given no iteration beyond the first, and the first decisions do not pass. -/
private theorem retry_bp :
    letI := clampedF32
    bpDecodeGenericKind Ldpc240_101Params retryLlr none 0 (some retryVerify) BpKind.SumProduct = none := by
  let _ := clampedF32
  refine bpDecodeGenericKind_reject _ _ _ _ fun hpass => ?_
  let cw := firstDecisions Ldpc240_101Params retryLlr
  have hverify : retryVerify (cw.take 101) = true := (Bool.and_eq_true_iff.mp hpass).2
  obtain ⟨h55,_⟩ := Bool.and_eq_true_iff.mp hverify
  have hlength : 55 < (cw.take 101).length := by
    simp only [cw,firstDecisions,List.length_take,List.length_map,List.length_range]
    decide
  have hbit : (cw.take 101).getD 55 0 = 0 := by
    rw [List.getD_eq_getElem _ _ hlength,List.getElem_take]
    simp only [cw,firstDecisions,List.getElem_map,List.getElem_range]
    decide +kernel
  have hread : (Ldpc240_101Params.ldpcEncodeGeneric (cw.take 101)).getD 55 0 = (cw.take 101).getD 55 0 :=
    List.getD_append _ _ _ _ hlength
  rw [hread,hbit] at h55
  exact absurd h55 (by decide)

/-- A position is in the basis when a word separates it from the heard bits that are as reliable. -/
private theorem mem_retryBasis (sorter : SortUnstable) (llr : List Rat) {ones : List Nat} {i : Nat}
    (hquiet : ∀ j < 240, j ∉ retryBits → llr.getD j 0 = 0) (hi : i < 240) (h : Separates llr i ones) :
    letI := clampedF32
    i ∈ greedyBasis (ZMod 2) (column Ldpc240_101Params.K Ldpc240_101Params.generatorMatrix)
      (reliabilityOrder Ldpc240_101Params sorter llr) := by
  obtain ⟨hpos,hone,hzero⟩ := h
  refine mem_basis_of_word _ _ _ _ rfl sorter llr (retryWord ones) (by simp [retryWord,Ldpc240_101Params])
    hi hone fun j hj hne hle => ?_
  by_cases hbit : j ∈ retryBits
  · exact hzero j hbit hne hle
  · rw [hquiet j hj hbit,abs_zero] at hle
    exact absurd hpos (not_lt.mpr hle)

/-- Two positions of the first basis disagree with every word that passes. -/
private theorem retry_osd (sorter : SortUnstable) :
    letI := clampedF32
    osdDecodeGeneric Ldpc240_101Params sorter retryLlr 1 101 (some retryVerify) false = none := by
  let _ := clampedF32
  rw [osdDecodeGeneric_eq_none _ _ _ _ _ _ _ rfl (by decide) (by decide) (by decide)]
  rintro c ⟨⟨info,hinfo,rfl⟩,hcount⟩
  rw [take_encode info hinfo.1,Bool.eq_false_iff]
  intro hpass
  obtain ⟨h55,h181⟩ := Bool.and_eq_true_iff.mp (show retryVerify info = true from hpass)
  have hin (p : Nat × List Nat) (hp : p ∈ [(55,[55]),(181,[0,2])]) (hlt : p.1 < 240) :=
    mem_retryBasis sorter retryLlr (fun _ => retryLlr_quiet) hlt (retryFacts.llr_basis p hp)
  have hin55 := hin (55,[55]) (by decide) (by decide)
  have hin181 := hin (181,[0,2]) (by decide) (by decide)
  obtain ⟨hhard55,hhard181⟩ := retryFacts.hard_llr
  rw [List.countP_eq_length_filter] at hcount
  have hboth : [55,181] ⊆ (greedyBasis (ZMod 2) (column Ldpc240_101Params.K Ldpc240_101Params.generatorMatrix)
      (reliabilityOrder Ldpc240_101Params sorter retryLlr)).filter
        fun i => ((Ldpc240_101Params.ldpcEncodeGeneric info).getD i 0 == 1) != hard retryLlr i := by
    intro i hi
    rcases List.mem_pair.mp hi with rfl | rfl
    · exact List.mem_filter.mpr ⟨hin55,by rw [h55,hhard55]; rfl⟩
    · exact List.mem_filter.mpr ⟨hin181,by rw [h181,hhard181]; rfl⟩
  have hlength := (List.subperm_of_subset (by decide) hboth).length_le
  simp only [List.length_cons,List.length_nil] at hlength
  omega

/-- In the second basis only the first of them does: the other follows from its check. -/
private theorem retry_found (sorter : SortUnstable) :
    letI := clampedF32
    osdDecodeGeneric Ldpc240_101Params sorter retrySum 1 101 (some retryVerify) false ≠ none := by
  let _ := clampedF32
  obtain ⟨b,_,hsound,hperm⟩ := osdSetup_sound Ldpc240_101Params sorter retrySum rfl
  have hbasis : b.basis = greedyBasis (ZMod 2) (column Ldpc240_101Params.K Ldpc240_101Params.generatorMatrix)
      (reliabilityOrder Ldpc240_101Params sorter retrySum) := by
    rw [OsdBasis.basis,hsound.greedy,hperm]
  have hin (p : Nat × List Nat)
      (hp : p ∈ [(55,[55]),(101,[0]),(139,[3]),(94,[3,94]),(51,[1,51]),(2,[0,2])]) (hlt : p.1 < 240) :=
    hbasis ▸ mem_retryBasis sorter retrySum (fun _ => retrySum_quiet) hlt (retryFacts.sum_basis p hp)
  have hin55 := hin (55,[55]) (by decide) (by decide)
  have hin101 := hin (101,[0]) (by decide) (by decide)
  have hin139 := hin (139,[3]) (by decide) (by decide)
  have hin94 := hin (94,[3,94]) (by decide) (by decide)
  have hin51 := hin (51,[1,51]) (by decide) (by decide)
  have hin2 := hin (2,[0,2]) (by decide) (by decide)
  obtain ⟨info,hinfo,hspace,hdiffers⟩ := exists_flipped hsound rfl (by decide) retrySum hin55
  intro hnone
  rw [osdDecodeGeneric_eq_none _ _ _ _ _ _ _ rfl (by decide) (by decide) (by decide)] at hnone
  have hfail := hnone _ (hbasis ▸ hspace)
  rw [take_encode info hinfo.1] at hfail
  let c := Ldpc240_101Params.ldpcEncodeGeneric info
  have hcheck : Ldpc240_101Params.checkParity c 0 = 0 :=
    checks_encode LdpcCodec.Ldpc240_101.consistent hinfo 0 (by decide)
  have hbits := isBits_encode (P := Ldpc240_101Params) rfl hinfo
  have hbyte (x : UInt8) (hx : x < 2) : x = (x == 1).toUInt8 := by
    obtain ⟨y,rfl⟩ := exists_bit hx
    cases y <;> rfl
  have hvalue (j : Nat) (hj : j ∈ b.basis) : c.getD j 0 = (hard retrySum j ^^ decide (j = 55)).toUInt8 := by
    rw [hbyte _ (hbits.getD_lt j),← hdiffers j hj]
    cases hard retrySum j <;> cases c.getD j 0 == 1 <;> simp
  have hsum : (((((0 ^^^ c.getD 2 0) ^^^ c.getD 51 0) ^^^ c.getD 94 0) ^^^ c.getD 101 0) ^^^ c.getD 139 0) ^^^
      c.getD 181 0 = 0 := hcheck
  have hhard := retryFacts.hard_sum
  have h55 : c.getD 55 0 = 1 := by
    rw [hvalue 55 hin55,hhard.1]
    rfl
  have h2 : c.getD 2 0 = 1 := by
    rw [hvalue 2 hin2,hhard.2.1]
    rfl
  have hzero (j : Nat) (hj : j ∈ [51,94,101,139]) (hin : j ∈ b.basis) : c.getD j 0 = 0 := by
    have hne : j ≠ 55 := fun h => by simp [h] at hj
    rw [hvalue j hin,hhard.2.2 j hj,decide_eq_false hne]
    rfl
  rw [h2,hzero 51 (by decide) hin51,hzero 94 (by decide) hin94,hzero 101 (by decide) hin101,
    hzero 139 (by decide) hin139] at hsum
  have h181 : c.getD 181 0 = 1 := (UInt8.xor_eq_zero_iff.mp hsum).symm
  have hpass : passes (some retryVerify) info = (c.getD 55 0 == 1 && c.getD 181 0 == 1) := rfl
  rw [hpass,h55,h181] at hfail
  exact absurd hfail (by decide)

private theorem retry_miscounts (sorter : SortUnstable) (useNpre : Bool) :
    letI := clampedF32
    LdpcCodec.Ldpc240_101.RetryMiscounts sorter useNpre retryLlr retryOpts := by
  let _ := clampedF32
  have hstage (llr : List Rat) : fst4OsdDecode sorter llr (some retryVerify) useNpre 1 =
      osdDecodeGeneric Ldpc240_101Params sorter llr 1 101 (some retryVerify) false := by
    cases useNpre <;> rfl
  obtain ⟨r,hr⟩ := Option.ne_none_iff_exists'.mp (retry_found sorter)
  have hretry : LdpcCodec.Ldpc240_101.retryStage sorter useNpre (bpLlrZsum Ldpc240_101Params retryLlr 2) retryOpts
      none = some r := by
    rw [retry_sum]
    exact (hstage retrySum).trans hr
  refine ⟨rfl,retry_bp,by decide,(hstage retryLlr).trans (retry_osd sorter),r,hretry,?_⟩
  show 2 * (changedBySum Ldpc240_101Params retryLlr (bpLlrZsum Ldpc240_101Params retryLlr 2)).countP _ ≠
    (changedBySum Ldpc240_101Params retryLlr (bpLlrZsum Ldpc240_101Params retryLlr 2)).length
  rw [retry_sum,retry_changed,List.length_singleton]
  omega

end Retry

end MfskCore.Fec
