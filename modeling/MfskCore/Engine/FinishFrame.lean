import MfskCore.Engine.DedupRefined
import MfskCore.Library.BestPerKey

/-! The end of a frame (`engine/pipeline.rs`): one result for every decoded message, and the two loops that FST4 has
for the candidates, with a budget and without. -/
namespace MfskCore.Engine
open Rust Library

structure DecodeResult (F : Type) where
  info : List UInt8
  freqHz : F
  dtSec : F
  hardErrors : UInt32
  syncScore : F
  pass : UInt8
  syncCv : F
  snrDb : F

structure BudgetReport (F : Type) where
  exhausted : Bool
  candidatesSkipped : Nat
  stagesRun : Nat
  cutAtSync : Option UInt32
  cutAtScore : Option F

/-- `BudgetReport::default`. -/
def BudgetReport.unused {F : Type} : BudgetReport F := ⟨false,0,0,none,none⟩

section Frame
variable {Candidate Cd0 FftCache F : Type} [F32 F]

/-- A decode takes the place of the one with its message when it scores higher. -/
def keepBest (r : DecodeResult F) : List (DecodeResult F) → List (DecodeResult F)
  | [] => [r]
  | existing :: results =>
    if existing.info = r.info then (if existing.syncScore < r.syncScore then r else existing) :: results
    else existing :: keepBest r results

def finishFrame (raw : List (DecodeResult F)) (fftCache : FftCache) (budgetReport : BudgetReport F) :
    List (DecodeResult F) × FftCache × BudgetReport F :=
  (raw.foldl (fun results r => keepBest r results) [],fftCache,budgetReport)

/-- `deduped` in the order the budget is spent in. -/
def strongestFirst (sorter : SortStable) (deduped : List (Candidate × Refined Cd0 F)) : List (Candidate × Refined Cd0 F) :=
  let refined := deduped.map Prod.snd
  let order := sorter.sortBy (fun a b => partialCmp (scoreAt refined b) (scoreAt refined a)) (List.range deduped.length)
  order.filterMap fun i => deduped[i]?

/-- The budget is asked before every candidate; `check` has its answers. `process` is `process_candidate_basic_impl`
with the refined position. -/
def decodeWithin (check : Nat → Bool) (process : Candidate × Refined Cd0 F → Option (DecodeResult F)) :
    List (Candidate × Refined Cd0 F) → BudgetReport F → List (DecodeResult F) → BudgetReport F × List (DecodeResult F)
  | [], budgetReport, raw => (budgetReport,raw)
  | (cand,refined) :: it, budgetReport, raw =>
    if !check budgetReport.stagesRun then
      ({ budgetReport with exhausted := true, candidatesSkipped := 1 + it.length, cutAtScore := some refined.score },raw)
    else
      decodeWithin check process it { budgetReport with stagesRun := budgetReport.stagesRun + 1 }
        (raw ++ (process (cand,refined)).toList)

/-- The FST4 arms of `decode_frame_impl`, from the coarse candidates on. -/
def decodeFst4 (sorter : SortStable) (toneSpacingHz : F) (refine : Candidate → Refined Cd0 F)
    (process : Candidate × Refined Cd0 F → Option (DecodeResult F)) (budget : Option (Nat → Bool))
    (candidates : List Candidate) (fftCache : FftCache) : List (DecodeResult F) × FftCache × BudgetReport F :=
  if candidates.isEmpty then ([],fftCache,.unused)
  else
    let deduped := dedupRefinedCandidates sorter toneSpacingHz refine candidates
    match budget with
    | some check =>
      let (budgetReport,raw) := decodeWithin check process (strongestFirst sorter deduped) .unused []
      finishFrame raw fftCache budgetReport
    | none => finishFrame (deduped.filterMap process) fftCache .unused

/-- No two decodes of one message score the same. -/
def DistinctScores (raw : List (DecodeResult F)) : Prop :=
  raw.Pairwise fun r s => r.info = s.info → r.syncScore < s.syncScore ∨ s.syncScore < r.syncScore

section Best

/-- The first decode scores higher. -/
def higher (r s : DecodeResult F) : Bool := s.syncScore < r.syncScore

theorem keepBest_eq (r : DecodeResult F) (results : List (DecodeResult F)) :
    keepBest r results = improve DecodeResult.info higher r results := by
  induction results with
  | nil => rfl
  | cons existing results ih => rw [keepBest,improve,ih]; simp [higher]

theorem finishFrame_eq (raw : List (DecodeResult F)) (fftCache : FftCache) (budgetReport : BudgetReport F) :
    (finishFrame raw fftCache budgetReport).1 = bestPerKey DecodeResult.info higher raw := by
  simp only [finishFrame,bestPerKey,keepBest_eq]

theorem noTies_of_distinct {raw : List (DecodeResult F)} (h : DistinctScores raw) :
    NoTies DecodeResult.info higher raw := by
  refine h.imp fun {r s} hrs hinfo => ?_
  rw [higher,higher,decide_eq_true_eq,decide_eq_true_eq]
  exact (hrs hinfo).symm

variable [IsStrictOrder F (· < ·)]

theorem higher_trans (r s t : DecodeResult F) (hrs : higher r s = true) (hst : higher s t = true) : higher r t = true := by
  rw [higher,decide_eq_true_eq] at *
  exact IsTrans.trans _ _ _ hst hrs

theorem higher_asymm (r s : DecodeResult F) (hrs : higher r s = true) : ¬ higher s r = true := by
  rw [higher,decide_eq_true_eq] at *
  exact asymm hrs

end Best

theorem distinctScores_perm {raw raw' : List (DecodeResult F)} (hperm : raw'.Perm raw) (h : DistinctScores raw) :
    DistinctScores raw' := (List.Perm.pairwise_iff (fun h hinfo => (h hinfo.symm).symm) hperm).2 h

section Budget
variable (sorter : SortStable) (process : Candidate × Refined Cd0 F → Option (DecodeResult F))

omit [F32 F] in
theorem toList_append_filterMap {α : Type*} (process : α → Option (DecodeResult F)) (a : α) (rest : List α) :
    (process a).toList ++ rest.filterMap process = (a :: rest).filterMap process := by
  rw [List.filterMap_cons]
  cases process a <;> rfl

omit [F32 F] in
/-- The budget is spent on a first part of the candidates, and on all of them unless it is exhausted. -/
theorem decodeWithin_eq (check : Nat → Bool) (it : List (Candidate × Refined Cd0 F)) (budgetReport : BudgetReport F)
    (raw : List (DecodeResult F)) : ∃ done left, it = done ++ left ∧
      (decodeWithin check process it budgetReport raw).2 = raw ++ done.filterMap process ∧
      ((decodeWithin check process it budgetReport raw).1.exhausted = false → left = []) := by
  induction it generalizing budgetReport raw with
  | nil => exact ⟨[],[],rfl,(List.append_nil raw).symm,fun _ => rfl⟩
  | cons c it ih =>
    rw [decodeWithin]
    split
    case isTrue => exact ⟨[],c :: it,rfl,(List.append_nil raw).symm,fun h => absurd h (by simp)⟩
    case isFalse =>
      obtain ⟨done,left,rfl,hraw,hleft⟩ := ih { budgetReport with stagesRun := budgetReport.stagesRun + 1 }
        (raw ++ (process c).toList)
      refine ⟨c :: done,left,rfl,?_,hleft⟩
      rw [hraw,List.append_assoc,toList_append_filterMap]

omit [F32 F] in
theorem filterMap_getElem?_range {α : Type*} (l : List α) : (List.range l.length).filterMap (l[·]?) = l := by
  induction l with
  | nil => rfl
  | cons a l ih =>
    rw [List.length_cons,List.range_succ_eq_map,List.filterMap_cons_some List.getElem?_cons_zero,List.filterMap_map]
    exact congrArg (a :: ·) ih

theorem strongestFirst_perm (deduped : List (Candidate × Refined Cd0 F)) :
    (strongestFirst sorter deduped).Perm deduped := by
  have hperm := (sorter.perm (fun a b => partialCmp (scoreAt (deduped.map Prod.snd) b) (scoreAt (deduped.map Prod.snd) a))
    (List.range deduped.length)).filterMap fun i => deduped[i]?
  rwa [filterMap_getElem?_range] at hperm

theorem strongestFirst_sorted {number : F → Prop} (hieee : Ieee number) (deduped : List (Candidate × Refined Cd0 F))
    (hnumber : ∀ p ∈ deduped, number p.2.score) :
    (strongestFirst sorter deduped).Pairwise fun p q => ¬ p.2.score < q.2.score := by
  have hs := number_scoreAt Prod.snd deduped hieee hnumber
  have hscore {i : Nat} {p : Candidate × Refined Cd0 F} (hp : deduped[i]? = some p) :
      scoreAt (deduped.map Prod.snd) i = p.2.score := by
    rw [scoreAt,List.getElem?_map,hp]
    rfl
  refine List.pairwise_filterMap.2 ((sorter.sorted _ _ (totalPreorder_score hieee hs)).imp fun {i j} hij p hp q hq => ?_)
  rwa [ne_eq,partialCmp_eq_gt hieee (hs _) (hs _),hscore hp,hscore hq] at hij

theorem mem_dedupRefinedCandidates {toneSpacingHz : F} {refine : Candidate → Refined Cd0 F} {candidates : List Candidate}
    {p : Candidate × Refined Cd0 F} (hp : p ∈ dedupRefinedCandidates sorter toneSpacingHz refine candidates) :
    p.1 ∈ candidates ∧ p.2 = refine p.1 := by
  obtain ⟨order,horder,-⟩ := exists_placeOrder sorter refine candidates
  rw [dedupRefinedCandidates_eq sorter toneSpacingHz refine candidates horder] at hp
  obtain ⟨i,-,rfl⟩ := List.mem_map.1 hp
  exact ⟨List.getElem_mem _,rfl⟩

end Budget

section Arms
variable (sorter : SortStable) (toneSpacingHz : F) (refine : Candidate → Refined Cd0 F)
  (process : Candidate × Refined Cd0 F → Option (DecodeResult F)) (candidates : List Candidate) (fftCache : FftCache)

theorem dedup_of_isEmpty (h : candidates.isEmpty) :
    dedupRefinedCandidates sorter toneSpacingHz refine candidates = [] := by
  rw [List.isEmpty_iff.1 h]
  rfl

theorem decodeFst4_none : (decodeFst4 sorter toneSpacingHz refine process none candidates fftCache).1 =
    bestPerKey DecodeResult.info higher
      ((dedupRefinedCandidates sorter toneSpacingHz refine candidates).filterMap process) := by
  rw [decodeFst4]
  split
  case isTrue h => rw [dedup_of_isEmpty sorter toneSpacingHz refine candidates h]; rfl
  case isFalse => exact finishFrame_eq _ _ _

theorem decodeFst4_some (check : Nat → Bool) : ∃ done left,
    strongestFirst sorter (dedupRefinedCandidates sorter toneSpacingHz refine candidates) = done ++ left ∧
    (decodeFst4 sorter toneSpacingHz refine process (some check) candidates fftCache).1 =
      bestPerKey DecodeResult.info higher (done.filterMap process) ∧
    ((decodeFst4 sorter toneSpacingHz refine process (some check) candidates fftCache).2.2.exhausted = false → left = []) := by
  rw [decodeFst4]
  split
  case isTrue h =>
    refine ⟨[],[],?_,rfl,fun _ => rfl⟩
    exact List.perm_nil.1 (dedup_of_isEmpty sorter toneSpacingHz refine candidates h ▸ strongestFirst_perm sorter _)
  case isFalse =>
    obtain ⟨done,left,hsplit,hraw,hleft⟩ := decodeWithin_eq process check
      (strongestFirst sorter (dedupRefinedCandidates sorter toneSpacingHz refine candidates)) .unused []
    refine ⟨done,left,hsplit,?_,hleft⟩
    rw [← List.nil_append (done.filterMap process),← hraw]
    exact finishFrame_eq _ _ _

variable {sorter toneSpacingHz refine process candidates} [IsStrictOrder F (· < ·)]

/-- A message found in a first part of the candidates, strongest first, is reported as it would be from all of them. -/
theorem mem_whole_of_mem_part (hscore : ∀ p d, process p = some d → d.syncScore = p.2.score)
    {done left : List (Candidate × Refined Cd0 F)} (hsorted : (done ++ left).Pairwise fun p q => ¬ p.2.score < q.2.score)
    (hdistinct : DistinctScores ((done ++ left).filterMap process)) {r : DecodeResult F}
    (hr : r ∈ bestPerKey DecodeResult.info higher (done.filterMap process)) :
    r ∈ bestPerKey DecodeResult.info higher ((done ++ left).filterMap process) := by
  rw [List.filterMap_append] at hdistinct ⊢
  refine mem_bestPerKey_append higher_trans higher_asymm (noTies_of_distinct hdistinct) (fun r hr s hs => ?_) hr
  obtain ⟨p,hp,hpr⟩ := List.mem_filterMap.1 hr
  obtain ⟨q,hq,hqs⟩ := List.mem_filterMap.1 hs
  rw [higher,decide_eq_false_iff_not,hscore p r hpr,hscore q s hqs]
  exact (List.pairwise_append.1 hsorted).2.2 p hp q hq

/-- What FST4 reports within a budget, it reports without one. -/
theorem budgeted_reports {number : F → Prop} (hieee : Ieee number) (hnumber : ∀ c ∈ candidates, number (refine c).score)
    (hscore : ∀ p d, process p = some d → d.syncScore = p.2.score)
    (hdistinct : DistinctScores ((dedupRefinedCandidates sorter toneSpacingHz refine candidates).filterMap process))
    (check : Nat → Bool) :
    (∀ r ∈ (decodeFst4 sorter toneSpacingHz refine process (some check) candidates fftCache).1,
      r ∈ (decodeFst4 sorter toneSpacingHz refine process none candidates fftCache).1) ∧
    ((decodeFst4 sorter toneSpacingHz refine process (some check) candidates fftCache).2.2.exhausted = false →
      (decodeFst4 sorter toneSpacingHz refine process (some check) candidates fftCache).1.Perm
        (decodeFst4 sorter toneSpacingHz refine process none candidates fftCache).1) := by
  obtain ⟨done,left,hsplit,hcut,hleft⟩ := decodeFst4_some sorter toneSpacingHz refine process candidates fftCache check
  have hperm := (strongestFirst_perm sorter (dedupRefinedCandidates sorter toneSpacingHz refine candidates)).filterMap process
  have hall := bestPerKey_perm higher_trans higher_asymm hperm (noTies_of_distinct hdistinct)
  rw [hsplit] at hperm hall
  rw [decodeFst4_none,hcut]
  constructor
  · intro r hr
    have hsorted := strongestFirst_sorted sorter hieee
      (dedupRefinedCandidates sorter toneSpacingHz refine candidates) fun p hp => (mem_dedupRefinedCandidates sorter hp).2 ▸ hnumber p.1 (mem_dedupRefinedCandidates sorter hp).1
    rw [hsplit] at hsorted
    exact hall.mem_iff.1 (mem_whole_of_mem_part hscore hsorted (distinctScores_perm hperm hdistinct) hr)
  · intro hexhausted
    rwa [hleft hexhausted,List.append_nil] at hall

end Arms

/-- One result for every decoded message, the one that scores highest, in the order of first appearance, and the same
ones in whatever order the decodes come. What FST4 reports within a budget it reports without one. -/
theorem frame_results_order_free [IsStrictOrder F (· < ·)] (fftCache : FftCache) (budgetReport : BudgetReport F) :
    (∀ raw : List (DecodeResult F), DistinctScores raw →
      (finishFrame raw fftCache budgetReport).1.map DecodeResult.info = (raw.map DecodeResult.info).eraseDups ∧
      (∀ r ∈ (finishFrame raw fftCache budgetReport).1, r ∈ raw ∧
        ∀ s ∈ raw, s.info = r.info → s = r ∨ s.syncScore < r.syncScore) ∧
      ∀ raw' : List (DecodeResult F), raw'.Perm raw →
        (finishFrame raw' fftCache budgetReport).1.Perm (finishFrame raw fftCache budgetReport).1) ∧
    ∀ (number : F → Prop) (sorter : SortStable) (toneSpacingHz : F) (refine : Candidate → Refined Cd0 F)
      (process : Candidate × Refined Cd0 F → Option (DecodeResult F)) (check : Nat → Bool) (candidates : List Candidate),
      Ieee number → (∀ c ∈ candidates, number (refine c).score) →
      (∀ p d, process p = some d → d.syncScore = p.2.score) →
      DistinctScores ((dedupRefinedCandidates sorter toneSpacingHz refine candidates).filterMap process) →
      (∀ r ∈ (decodeFst4 sorter toneSpacingHz refine process (some check) candidates fftCache).1,
        r ∈ (decodeFst4 sorter toneSpacingHz refine process none candidates fftCache).1) ∧
      ((decodeFst4 sorter toneSpacingHz refine process (some check) candidates fftCache).2.2.exhausted = false →
        (decodeFst4 sorter toneSpacingHz refine process (some check) candidates fftCache).1.Perm
          (decodeFst4 sorter toneSpacingHz refine process none candidates fftCache).1) := by
  refine ⟨fun raw hdistinct => ⟨?_,fun r hr => ?_,fun raw' hperm => ?_⟩,fun number sorter toneSpacingHz refine process
    check candidates hieee hnumber hscore hdistinct => budgeted_reports fftCache hieee hnumber hscore hdistinct check⟩
  · rw [finishFrame_eq,map_key_bestPerKey]
  · rw [finishFrame_eq] at hr
    obtain ⟨hmem,hbest⟩ := best_of_mem higher_trans (noTies_of_distinct hdistinct) hr
    exact ⟨hmem,fun s hs hinfo => (hbest s hs hinfo).imp_right of_decide_eq_true⟩
  · rw [finishFrame_eq,finishFrame_eq]
    exact bestPerKey_perm higher_trans higher_asymm hperm (noTies_of_distinct hdistinct)

/-- Three decodes of two messages, and three candidates that decode to one of them. -/
theorem frame_results_of_three : letI := rationalF32
    let decode (info : UInt8) (score : Rat) : DecodeResult Rat := ⟨[info],0,0,0,score,0,0,0⟩
    let refine (c : Nat) : Refined Unit Rat := ⟨(),0,10 * c,c⟩
    let process (p : Nat × Refined Unit Rat) : Option (DecodeResult Rat) := some (decode 1 p.2.score)
    (∀ raw', raw'.Perm [decode 1 2,decode 2 5,decode 1 3] →
      (finishFrame raw' () .unused).1.Perm (finishFrame [decode 1 2,decode 2 5,decode 1 3] () .unused).1) ∧
    ∀ r ∈ (decodeFst4 stableInsertionSort (1 : Rat) refine process (some fun k => k < 2) [1,3,2] ()).1,
      r ∈ (decodeFst4 stableInsertionSort (1 : Rat) refine process none [1,3,2] ()).1 := by
  let _ := rationalF32
  intro decode refine process
  have h := @frame_results_order_free Nat Unit Unit Rat _ _ () .unused
  refine ⟨(h.1 [decode 1 2,decode 2 5,decode 1 3] ?_).2.2,(h.2 (fun _ => True) stableInsertionSort 1 refine process
    (fun k => k < 2) [1,3,2] ieee_rationalF32 (fun _ _ => trivial) ?_ ?_).1⟩
  · unfold DistinctScores; decide
  · rintro p d ⟨⟩
    rfl
  · unfold DistinctScores; decide +kernel

end Frame

end MfskCore.Engine
