import MfskCore.Engine.FinishFrame
import MfskCore.Library.Polling

/-! What a budgeted decode says it left undone (`engine/pipeline.rs`): the single-pass arms of FT4 and FST4, and the
rounds of `decode_frame_subtract`. -/
namespace MfskCore.Engine
open Rust Library

section SinglePass
variable {Candidate FftCache F : Type} [F32 F]

/-- The budgeted loop of FT4, over the candidates as they are ranked. `check` has the answers of the predicate. -/
def decodeRanked (score : Candidate → F) (check : Nat → Bool) (process : Candidate → Option (DecodeResult F)) :
    List Candidate → BudgetReport F → List (DecodeResult F) → BudgetReport F × List (DecodeResult F)
  | [], budgetReport, raw => (budgetReport,raw)
  | cand :: it, budgetReport, raw =>
    if !check budgetReport.stagesRun then
      ({ budgetReport with exhausted := true, candidatesSkipped := 1 + it.length, cutAtScore := some (score cand) },raw)
    else
      decodeRanked score check process it { budgetReport with stagesRun := budgetReport.stagesRun + 1 }
        (raw ++ (process cand).toList)

/-- The FT4 arms of `decode_frame_impl`, from the coarse candidates on. `process` is `process_candidate_basic_ap`. -/
def decodeFt4 (score : Candidate → F) (process : Candidate → Option (DecodeResult F)) (budget : Option (Nat → Bool))
    (candidates : List Candidate) (fftCache : FftCache) : List (DecodeResult F) × FftCache × BudgetReport F :=
  if candidates.isEmpty then ([],fftCache,.unused)
  else
    match budget with
    | some check =>
      let (budgetReport,raw) := decodeRanked score check process candidates .unused []
      finishFrame raw fftCache budgetReport
    | none => finishFrame (candidates.filterMap process) fftCache .unused

end SinglePass

section Subtract
variable {Audio Candidate FftCache F : Type} [F32 F]

/-- What the rounds change. -/
structure SicState (Audio F : Type) where
  residual : Audio
  allResults : List (DecodeResult F)
  budgetReport : BudgetReport F

/-- The decodes that are new, the first of each message. -/
def newDecodes (allResults : List (DecodeResult F)) (new : List (DecodeResult F)) : List (DecodeResult F) :=
  new.foldl (fun deduped r =>
    if !allResults.any (fun k => k.info = r.info) && !deduped.any (fun x => x.info = r.info) then deduped ++ [r]
    else deduped) []

variable (coarseSync : Audio → F → List Candidate) (buildFftCache : Audio → FftCache)
  (process : Candidate → FftCache → List (DecodeResult F) → Option (DecodeResult F))
  (subtractDecode : Audio → DecodeResult F → Audio) (syncMin : F) (precomputedFft : Option FftCache)

/-- One round. A precomputed cache is of the audio as it came, and serves the first round alone. -/
def sicRound (passIdx : Nat) (factor : F) (s : SicState Audio F) : SicState Audio F :=
  let candidates := coarseSync s.residual (syncMin * factor)
  if candidates.isEmpty then s
  else
    let fftCache := match passIdx, precomputedFft with
      | 0, some c => c
      | _, _ => buildFftCache s.residual
    let new := candidates.filterMap fun cand => process cand fftCache s.allResults
    let deduped := newDecodes s.allResults new
    { s with residual := deduped.foldl subtractDecode s.residual, allResults := s.allResults ++ deduped }

/-- The budget is asked before every round. A round that is declined ends the loop and sets only the flag. -/
def sicRounds (budget : Option (Nat → Bool)) : List (F × Nat) → SicState Audio F → SicState Audio F
  | [], s => s
  | (factor,passIdx) :: passes, s =>
    if budget.any fun check => !check passIdx then { s with budgetReport := { s.budgetReport with exhausted := true } }
    else
      let started := { s with budgetReport := { s.budgetReport with stagesRun := s.budgetReport.stagesRun + 1 } }
      sicRounds budget passes
        (sicRound coarseSync buildFftCache process subtractDecode syncMin precomputedFft passIdx factor started)

/-- The schedule has three rounds; asking for more panics. `subtractDecode` takes the tones of a decode out of the
audio. -/
def decodeFrameSubtract (audio : Audio) (budget : Option (Nat → Bool)) (maxRounds : Nat) :
    Option (List (DecodeResult F) × BudgetReport F) :=
  let passes : List F := [1.0,0.75,0.5]
  if maxRounds ≤ passes.length then
    let s := sicRounds coarseSync buildFftCache process subtractDecode syncMin precomputedFft budget
      (passes.take maxRounds).zipIdx ⟨audio,[],.unused⟩
    some (s.allResults,s.budgetReport)
  else none

end Subtract

/-- The report says that something was left exactly when it counts it, and every unit of work is counted once. -/
structure BudgetReport.Accounts {F : Type} (report : BudgetReport F) (units : Nat) : Prop where
  exhausted : report.exhausted = true ↔ 0 < report.candidatesSkipped
  total : report.stagesRun + report.candidatesSkipped = units

section Loops
variable {Candidate Cd0 FftCache F : Type}

/-- The report after some units were run and the ones with the given scores were left. -/
def spent (ran : Nat) : List F → BudgetReport F
  | [] => { BudgetReport.unused with stagesRun := ran }
  | score :: rest => ⟨true,1 + rest.length,ran,none,some score⟩

theorem spent_accounts (ran : Nat) (left : List F) : (spent ran left).Accounts (ran + left.length) := by
  cases left with
  | nil => exact ⟨by simp [spent,BudgetReport.unused],rfl⟩
  | cons score rest =>
    refine ⟨by simp [spent],?_⟩
    rw [spent,List.length_cons,Nat.add_comm 1]

/-- The loop of FT4 runs what is granted, in order, and reports the rest. -/
theorem decodeRanked_eq (score : Candidate → F) (check : Nat → Bool) (process : Candidate → Option (DecodeResult F))
    (it : List Candidate) (n : Nat) (raw : List (DecodeResult F)) :
    decodeRanked score check process it (spent n []) raw =
      (spent (n + (polled check n it).1.length) ((polled check n it).2.map score),
        raw ++ (polled check n it).1.filterMap process) := by
  induction it generalizing n raw with
  | nil => exact congrArg (Prod.mk _) (List.append_nil raw).symm
  | cons cand it ih =>
    have hasked : (spent n ([] : List F)).stagesRun = n := rfl
    rw [decodeRanked,polled,hasked]
    cases check n with
    | false => exact Prod.ext (by simp [spent,BudgetReport.unused]) (List.append_nil raw).symm
    | true =>
      have hnext := ih (n + 1) (raw ++ (process cand).toList)
      rw [List.append_assoc,toList_append_filterMap,Nat.add_assoc n,Nat.add_comm 1] at hnext
      exact hnext

/-- The loop of FST4 does the same, with the refined scores. -/
theorem decodeWithin_eq_spent (check : Nat → Bool) (process : Candidate × Refined Cd0 F → Option (DecodeResult F))
    (it : List (Candidate × Refined Cd0 F)) (n : Nat) (raw : List (DecodeResult F)) :
    decodeWithin check process it (spent n []) raw =
      (spent (n + (polled check n it).1.length) ((polled check n it).2.map fun p => p.2.score),
        raw ++ (polled check n it).1.filterMap process) := by
  induction it generalizing n raw with
  | nil => exact congrArg (Prod.mk _) (List.append_nil raw).symm
  | cons p it ih =>
    have hasked : (spent n ([] : List F)).stagesRun = n := rfl
    rw [decodeWithin,polled,hasked]
    cases check n with
    | false => exact Prod.ext (by simp [spent,BudgetReport.unused]) (List.append_nil raw).symm
    | true =>
      have hnext := ih (n + 1) (raw ++ (process p).toList)
      rw [List.append_assoc,toList_append_filterMap,Nat.add_assoc n,Nat.add_comm 1] at hnext
      exact hnext

end Loops

section Arms
variable {Candidate Cd0 FftCache F : Type} [F32 F]

/-- What a single pass over a list of work comes to. -/
def cutShort {α : Type} (score : α → F) (process : α → Option (DecodeResult F)) (check : Nat → Bool) (work : List α)
    (fftCache : FftCache) : List (DecodeResult F) × FftCache × BudgetReport F :=
  let granted := polled check 0 work
  finishFrame (granted.1.filterMap process) fftCache (spent granted.1.length (granted.2.map score))

theorem cutShort_accounts {α : Type} (score : α → F) (process : α → Option (DecodeResult F)) (check : Nat → Bool)
    (work : List α) (fftCache : FftCache) :
    (cutShort score process check work fftCache).2.2.Accounts work.length := by
  have h := spent_accounts (polled check 0 work).1.length ((polled check 0 work).2.map score)
  rwa [List.length_map,length_polled] at h

/-- A message decoded before the cut is decoded without it. -/
theorem cutShort_infos {α : Type} (score : α → F) (process : α → Option (DecodeResult F)) (check : Nat → Bool)
    (work : List α) (fftCache : FftCache) :
    (cutShort score process check work fftCache).1.map DecodeResult.info ⊆
      (cutShort score process (fun _ => true) work fftCache).1.map DecodeResult.info := by
  intro info hinfo
  rw [cutShort,finishFrame_eq,map_key_bestPerKey,List.mem_eraseDups] at hinfo ⊢
  rw [polled_always]
  obtain ⟨r,hr,rfl⟩ := List.mem_map.1 hinfo
  obtain ⟨a,ha,hprocess⟩ := List.mem_filterMap.1 hr
  have hmem : a ∈ work := by
    rw [← polled_append check 0 work]
    exact List.mem_append_left _ ha
  exact List.mem_map_of_mem (List.mem_filterMap.2 ⟨a,hmem,hprocess⟩)

theorem decodeFt4_eq (score : Candidate → F) (process : Candidate → Option (DecodeResult F)) (check : Nat → Bool)
    (candidates : List Candidate) (fftCache : FftCache) :
    decodeFt4 score process (some check) candidates fftCache = cutShort score process check candidates fftCache := by
  have hrun := decodeRanked_eq score check process candidates 0 []
  rw [Nat.zero_add,List.nil_append] at hrun
  rw [decodeFt4]
  split
  case isTrue h => rw [List.isEmpty_iff.1 h]; rfl
  case isFalse =>
    exact congrArg (fun run => finishFrame run.2 fftCache run.1) hrun

theorem decodeFst4_eq (sorter : SortStable) (toneSpacingHz : F) (refine : Candidate → Refined Cd0 F)
    (process : Candidate × Refined Cd0 F → Option (DecodeResult F)) (check : Nat → Bool) (candidates : List Candidate)
    (fftCache : FftCache) :
    decodeFst4 sorter toneSpacingHz refine process (some check) candidates fftCache =
      cutShort (fun p => p.2.score) process check
        (strongestFirst sorter (dedupRefinedCandidates sorter toneSpacingHz refine candidates)) fftCache := by
  have hrun := decodeWithin_eq_spent check process
    (strongestFirst sorter (dedupRefinedCandidates sorter toneSpacingHz refine candidates)) 0 []
  rw [Nat.zero_add,List.nil_append] at hrun
  rw [decodeFst4]
  split
  case isTrue h =>
    have hempty := dedup_of_isEmpty sorter toneSpacingHz refine candidates h
    rw [List.perm_nil.1 ((strongestFirst_perm sorter _).trans (List.Perm.of_eq hempty))]
    rfl
  case isFalse =>
    exact congrArg (fun run => finishFrame run.2 fftCache run.1) hrun

end Arms

section Rounds
variable {Audio Candidate FftCache F : Type} [F32 F]
variable (coarseSync : Audio → F → List Candidate) (buildFftCache : Audio → FftCache)
  (process : Candidate → FftCache → List (DecodeResult F) → Option (DecodeResult F))
  (subtractDecode : Audio → DecodeResult F → Audio) (syncMin : F) (precomputedFft : Option FftCache)

theorem budgetReport_sicRound (passIdx : Nat) (factor : F) (s : SicState Audio F) :
    (sicRound coarseSync buildFftCache process subtractDecode syncMin precomputedFft passIdx factor s).budgetReport =
      s.budgetReport := by
  cases h : (coarseSync s.residual (syncMin * factor)).isEmpty with
  | true => simp only [sicRound,h,if_true]
  | false => simp only [sicRound,h]; rfl

/-- The rounds that are granted are counted; for the others the flag is set and nothing is counted. -/
theorem budgetReport_sicRounds (check : Nat → Bool) (passes : List F) (n : Nat) (s : SicState Audio F) :
    (sicRounds coarseSync buildFftCache process subtractDecode syncMin precomputedFft (some check) (passes.zipIdx n)
      s).budgetReport =
      { s.budgetReport with
        exhausted := s.budgetReport.exhausted || !(polled check n passes).2.isEmpty
        stagesRun := s.budgetReport.stagesRun + (polled check n passes).1.length } := by
  induction passes generalizing n s with
  | nil => simp [sicRounds,polled]
  | cons factor passes ih =>
    rw [List.zipIdx_cons,sicRounds,polled]
    cases hcheck : check n with
    | false => simp [hcheck]
    | true =>
      simp only [Option.any_some,hcheck,Bool.not_true,Bool.false_eq_true,if_false,if_true]
      rw [ih,budgetReport_sicRound,List.length_cons,Nat.add_assoc,Nat.add_comm 1]

/-- The rounds are accounted for exactly when none is declined. -/
theorem decodeFrameSubtract_accounts (audio : Audio) (check : Nat → Bool) {maxRounds : Nat} (hmax : maxRounds ≤ 3) :
    ∃ results report, decodeFrameSubtract coarseSync buildFftCache process subtractDecode syncMin precomputedFft audio
        (some check) maxRounds = some (results,report) ∧
      (report.Accounts maxRounds ↔ ∀ i < maxRounds, check i = true) := by
  obtain ⟨passes,hpasses⟩ : ∃ passes : List F, passes = [1.0,0.75,0.5].take maxRounds := ⟨_,rfl⟩
  have hlength : passes.length = maxRounds := hpasses ▸ List.length_take_of_le hmax
  have hcounted := length_polled check 0 passes
  have hleft := polled_left_eq_nil check 0 passes
  simp only [hlength,Nat.zero_add] at hcounted hleft
  refine ⟨_,_,if_pos hmax,?_⟩
  rw [budgetReport_sicRounds,← hleft,← hpasses]
  constructor
  · intro h
    have htotal := h.total
    simp only [BudgetReport.unused,Nat.zero_add,Nat.add_zero] at htotal
    exact List.length_eq_zero_iff.1 (by omega)
  · intro h
    rw [h,List.length_nil,Nat.add_zero] at hcounted
    refine ⟨?_,?_⟩
    · simp [h,BudgetReport.unused]
    · simpa [BudgetReport.unused] using hcounted

variable {Cd0 : Type}

/-- A single pass accounts for all of its candidates, and a cut one decodes no message that the whole one does not.
The rounds of subtraction are accounted for exactly when none is declined. -/
theorem budget_accounts (check : Nat → Bool) (candidates : List Candidate) (fftCache : FftCache) (score : Candidate → F)
    (processRanked : Candidate → Option (DecodeResult F)) (sorter : SortStable) (toneSpacingHz : F)
    (refine : Candidate → Refined Cd0 F) (processRefined : Candidate × Refined Cd0 F → Option (DecodeResult F))
    (audio : Audio) {maxRounds : Nat} (hmax : maxRounds ≤ 3) :
    let ft4 (check : Nat → Bool) := decodeFt4 score processRanked (some check) candidates fftCache
    let fst4 (check : Nat → Bool) :=
      decodeFst4 sorter toneSpacingHz refine processRefined (some check) candidates fftCache
    let infos (frame : List (DecodeResult F) × FftCache × BudgetReport F) := frame.1.map DecodeResult.info
    (ft4 check).2.2.Accounts candidates.length ∧ infos (ft4 check) ⊆ infos (ft4 fun _ => true) ∧
    (fst4 check).2.2.Accounts (dedupRefinedCandidates sorter toneSpacingHz refine candidates).length ∧
    infos (fst4 check) ⊆ infos (fst4 fun _ => true) ∧
    ∃ results report, decodeFrameSubtract coarseSync buildFftCache process subtractDecode syncMin precomputedFft audio
        (some check) maxRounds = some (results,report) ∧
      (report.Accounts maxRounds ↔ ∀ i < maxRounds, check i = true) := by
  intro ft4 fst4 infos
  simp only [ft4,fst4,infos,decodeFt4_eq,decodeFst4_eq]
  refine ⟨cutShort_accounts score processRanked check candidates fftCache,
    cutShort_infos score processRanked check candidates fftCache,?_,
    cutShort_infos _ processRefined check _ fftCache,
    decodeFrameSubtract_accounts coarseSync buildFftCache process subtractDecode syncMin precomputedFft audio check hmax⟩
  have haccounts := cutShort_accounts (fun p => p.2.score) processRefined check
    (strongestFirst sorter (dedupRefinedCandidates sorter toneSpacingHz refine candidates)) fftCache
  rwa [(strongestFirst_perm sorter _).length_eq] at haccounts

end Rounds

section Rational

/-- The first candidate decodes, and is the only one. -/
private def sampleProcess (cand : Nat) (_ : Unit) (known : List (DecodeResult Rat)) : Option (DecodeResult Rat) :=
  if known.isEmpty then some ⟨[UInt8.ofNat cand],cand,0,0,cand,0,0,0⟩ else none

/-- Two rounds that are both granted, and a pass over three candidates that is cut after two. -/
theorem budget_accounts_two :
    letI := rationalF32
    (decodeFt4 (fun cand : Nat => (cand : Rat)) (fun cand => sampleProcess cand () []) (some fun i => i < 2) [7,5,3]
      ()).2.2.Accounts 3 ∧
    ∃ results report, decodeFrameSubtract (fun _ _ => [7,5]) (fun _ => ()) sampleProcess (fun audio _ => audio / 10) 1 none
        (100 : Rat) (some fun i => i < 2) 2 = some (results,report) ∧ report.Accounts 2 := by
  let _ := rationalF32
  obtain ⟨hft4,-,-,-,results,report,hrun,hiff⟩ := budget_accounts (fun (_ : Rat) _ => [7,5]) (fun _ => ()) sampleProcess
    (fun audio _ => audio / 10) 1 none (fun i => i < 2) [7,5,3] () (fun cand => (cand : Rat))
    (fun cand => sampleProcess cand () []) stableInsertionSort 1 (fun cand => (⟨(),cand,0,cand⟩ : Refined Unit Rat))
    (fun p => sampleProcess p.1 () []) 100 (show 2 ≤ 3 by decide)
  exact ⟨hft4,results,report,hrun,hiff.2 (by decide)⟩

/-- The second round is declined, and is counted nowhere. -/
theorem declined_round_uncounted :
    letI := rationalF32
    ∃ results report, decodeFrameSubtract (fun _ _ => [7,5]) (fun _ => ()) sampleProcess (fun audio _ => audio / 10) 1 none
        (100 : Rat) (some fun i => i < 1) 2 = some (results,report) ∧
      report.exhausted = true ∧ report.candidatesSkipped = 0 ∧ report.stagesRun = 1 ∧ ¬report.Accounts 2 :=
  ⟨_,_,rfl,rfl,rfl,rfl,fun h => absurd h.total (by decide)⟩

end Rational

end MfskCore.Engine
