import MfskCore.Fec.HardErrors
import MfskCore.Library.RowMajor

/-! The codecs on soft values without errors: whatever the kernel, the budget of iterations and the depth of the
search, the first iteration accepts the word. -/
namespace MfskCore.Fec
open Rust Library

section NoiseFree
variable {F : Type} [F32 F]

/-- The values that favour a one are those of the ones of a word. -/
def Favours (P : LdpcParams) (llr : List F) (cw : List UInt8) : Prop :=
  ∀ i < P.N, llr.getD i 0.0 > 0.0 ↔ cw.getD i 0 = 1

/-- Before any message is sent a bit has its own value. -/
theorem estimate_quiet (hzero : ZeroNeutral F) (llr : List F) {tov : List F} (htov : ∀ i, tov.getD i 0.0 = 0.0)
    (i : Nat) : estimate llr tov i = llr.getD i 0.0 + 0.0 := by
  have hsum : ∀ n, (List.range n).foldl (fun sum k => sum + tov.getD (i * NCW + k) 0.0) (0.0 : F) = 0.0 := by
    intro n
    induction n with
    | zero => rfl
    | succ n ih => rw [List.range_succ,List.foldl_append,ih,List.foldl_cons,List.foldl_nil,htov,hzero.zero_add_zero]
  rw [estimate,hsum]

theorem maskedEstimate_quiet (hzero : ZeroNeutral F) (llr : List F) (apMask : Option (List Bool)) {tov : List F}
    (htov : ∀ i, tov.getD i 0.0 = 0.0) (i : Nat) :
    maskedEstimate llr apMask tov i > 0.0 ↔ llr.getD i 0.0 > 0.0 := by
  rw [maskedEstimate]
  split
  · exact Iff.rfl
  · rw [estimate_quiet hzero llr htov]
    exact hzero.add_zero_pos _

/-- A bit is one or zero. -/
theorem bit_cases {n : Nat} {cw : List UInt8} (hcw : IsBits n cw) (i : Nat) : cw.getD i 0 = 0 ∨ cw.getD i 0 = 1 := by
  have hlt : (cw.getD i 0).toNat < 2 := hcw.getD_lt i
  rw [← UInt8.toNat_inj,← UInt8.toNat_inj]
  exact Nat.le_one_iff_eq_zero_or_eq_one.mp (Nat.le_of_lt_succ hlt)

/-- The first hard decisions are the word that is favoured. -/
theorem cw_decideBits_quiet (hzero : ZeroNeutral F) {P : LdpcParams} {llr : List F} {cw : List UInt8}
    (hcw : IsBits P.N cw) (hfavours : Favours P llr cw) (apMask : Option (List Bool)) {s : BpScratch F F}
    (htov : ∀ i, s.tov.getD i 0.0 = 0.0) (hzn : s.zn.length = P.N) (hlen : s.cw.length = P.N) :
    (decideBits P llr apMask s).cw = cw := by
  have hword : (decideBits P llr apMask s).cw =
      (List.range P.N).map fun i => hardDecision (maskedEstimate llr apMask s.tov i) := by
    unfold decideBits
    dsimp only
    rw [fill_eq_map _ hlen,fill_eq_map _ hzn]
    refine List.map_congr_left fun i hi => ?_
    rw [getD_map_range _ _ (List.mem_range.mp hi)]
  rw [hword]
  refine List.ext_getElem (by simp [hcw.1]) fun i hi hi' => ?_
  have hin : i < P.N := hcw.1 ▸ hi'
  rw [List.getElem_map,List.getElem_range,hardDecision,← List.getD_eq_getElem cw 0 hi']
  simp only [maskedEstimate_quiet hzero llr apMask htov,hfavours i hin]
  rcases bit_cases hcw i with h | h
  · rw [h,if_neg (by decide)]
  · rw [h,if_pos rfl]

/-- Belief propagation accepts the word at once, with no errors. -/
theorem bpDecodeGenericKind_quiet (hzero : ZeroNeutral F) (codec : LdpcCodec) {llr : List F} {info : List UInt8}
    (hinfo : IsBits codec.params.K info) (hfavours : Favours codec.params llr (codec.encode info))
    (apMask : Option (List Bool)) (maxIter : Nat) {verify : Option (List UInt8 → Bool)}
    (hverify : verify.all (fun f => f info) = true) (kind : BpKind F) :
    ∃ r, bpDecodeGenericKind codec.params llr apMask maxIter verify kind = some r ∧ r.fecResult = ⟨info,0,0⟩ := by
  have hP := codec.consistent
  have htake : (codec.encode info).take codec.params.K = info := take_encode info hinfo.1
  have hbits : IsBits codec.params.N (codec.encode info) := isBits_encode hP.size hinfo
  have hchecks : codec.params.ncheck (codec.encode info) = 0 := by
    rw [LdpcParams.ncheck,List.countP_eq_zero]
    intro i hi
    have hcheck : codec.params.checkParity (codec.encode info) i = 0 := checks_encode hP hinfo i (List.mem_range.mp hi)
    simp [hcheck]
  have hacc : acceptable codec.params verify (codec.encode info) = true := by
    rw [acceptable,hchecks,htake,hverify]
    rfl
  have hcount : (List.range codec.params.N).countP
      (fun i => ((codec.encode info).getD i 0 == 1) != decide (llr.getD i 0.0 > 0.0)) = 0 := by
    rw [List.countP_eq_zero]
    intro i hi
    rw [Bool.not_eq_true,bne_eq_false_iff_eq,Bool.eq_iff_iff,beq_iff_eq,decide_eq_true_eq]
    exact (hfavours i (List.mem_range.mp hi)).symm
  unfold bpDecodeGenericKind bpRun bpLoop
  dsimp only
  rw [cw_decideBits_quiet hzero hbits hfavours apMask (by simp [kindBuffers]) (by simp [kindBuffers])
    (by simp [kindBuffers]),if_pos hacc]
  exact ⟨_,rfl,by rw [BpResult.fecResult,bpResult,htake,hcount]⟩

/-- A hint that locks bits to those of a word, with a magnitude that is positive. -/
structure HintAgrees (codec : LdpcCodec) (llr : List F) (opts : FecOpts F) (cw mask values : List UInt8) : Prop where
  pos : apmag codec llr opts > 0.0
  neg : ¬ -apmag codec llr opts > 0.0
  agrees : ∀ i < codec.params.N, mask.getD i 0 ≠ 0 → (values.getD i 0 ≠ 0 ↔ cw.getD i 0 = 1)

/-- Such a hint leaves the word favoured. -/
theorem favours_prepareApLlr {codec : LdpcCodec} {llr : List F} {opts : FecOpts F} {cw : List UInt8}
    (hsized : codec.OverCodeword llr opts) (hfavours : Favours codec.params llr cw)
    (hhint : ∀ mask values, opts.apMask = some (mask,values) → HintAgrees codec llr opts cw mask values) :
    ∃ prepared, codec.prepareApLlr llr opts = some prepared ∧ Favours codec.params prepared.1 cw := by
  have hllr := hsized.llr
  rw [LdpcCodec.prepareApLlr,if_neg (not_not.2 hllr)]
  split
  · exact ⟨_,rfl,hfavours⟩
  · rename_i mask values hmask
    have hagrees := hhint mask values hmask
    obtain ⟨hlen,hvalues⟩ := hsized.hint mask values hmask
    rw [if_neg (not_or.2 ⟨not_not.2 hlen,not_not.2 hvalues⟩)]
    refine ⟨_,rfl,fun i hi => ?_⟩
    have hin : i < llr.length := hllr ▸ hi
    have hget := hfavours i hi
    rw [List.getD_eq_getElem _ _ hin] at hget
    dsimp only
    rw [List.getD_eq_getElem _ _ (by rwa [List.length_mapIdx]),List.getElem_mapIdx]
    simp only [bne_iff_ne]
    by_cases hlocked : mask.getD i 0 = 0
    · rwa [if_neg (not_not.2 hlocked)]
    · have hvalue := hagrees.agrees i hi hlocked
      rw [if_pos hlocked]
      by_cases hone : values.getD i 0 = 0
      · have hzero : ¬cw.getD i 0 = 1 := fun h => hvalue.2 h hone
        rw [if_neg (not_not.2 hone)]
        exact iff_of_false hagrees.neg hzero
      · rw [if_pos hone]
        exact iff_of_true hagrees.pos (hvalue.1 hone)

end NoiseFree

/-- Every codec returns the information of a word that the observations favour bit by bit, with no errors and
before the first message, whatever its kernel, its budgets and its options; a hint that agrees changes nothing. -/
theorem LdpcCodec.decodeSoft_quiet {F : Type} [F32 F] (hzero : ZeroNeutral F) (codec : LdpcCodec)
    (sorter : SortUnstable) (useNpre : Bool) {llr : List F} {opts : DecodeOpts F} {info : List UInt8}
    (hinfo : IsBits codec.params.K info) (hsized : codec.OverCodeword llr opts.toFecOpts)
    (hfavours : Favours codec.params llr (codec.encode info))
    (hverify : opts.verifyInfo.all (fun f => f info) = true)
    (hhint : ∀ mask values, opts.apMask = some (mask,values) →
      HintAgrees codec llr opts.toFecOpts (codec.encode info) mask values) :
    codec.decodeSoft sorter useNpre llr opts = some (some ⟨info,0,0⟩) := by
  obtain ⟨⟨llrArr,apMask⟩,hprepared,hfavoured⟩ := favours_prepareApLlr hsized hfavours hhint
  obtain ⟨r,hr,hresult⟩ := bpDecodeGenericKind_quiet hzero codec hinfo hfavoured apMask opts.bpMaxIter hverify
    opts.bpKind
  rw [LdpcCodec.decodeSoft,hprepared,Option.map_some]
  dsimp only
  rw [hr]
  exact congrArg (fun found => some (some found)) hresult

end MfskCore.Fec
