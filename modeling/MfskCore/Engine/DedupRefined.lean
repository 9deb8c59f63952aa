import MfskCore.Library.GreedySelection
import MfskCore.Rust.F32
import MfskCore.Rust.Int32
import MfskCore.Rust.Sort
import Mathlib.Data.List.Pairwise
import Mathlib.Data.List.Perm.Basic

/-! The suppression of near duplicates among the refined candidates (`engine/pipeline.rs`). It is a greedy
selection in the order of the scores. -/
namespace MfskCore.Engine
open Rust Library

/-- What refinement finds for a candidate. -/
structure Refined (Cd0 F : Type) where
  cd0 : Cd0
  freqHz : F
  i0 : Int
  score : F

def Refined.position {Cd0 F : Type} (r : Refined Cd0 F) : F × Int := (r.freqHz,r.i0)

section Dedup
variable {Candidate Cd0 F : Type} [F32 F]

def I0_TOL : Int := 2

/-- The difference of two positions is an `i32`. -/
def isDup (freqTol : F) (p kept : F × Int) : Bool :=
  F32.abs (p.1 - kept.1) < freqTol && wrapI32 |wrapI32 (p.2 - kept.2)| ≤ I0_TOL

def scoreAt (refined : List (Refined Cd0 F)) (i : Nat) : F := ((refined[i]?).map Refined.score).getD 0.0

/-- What the scan keeps: the positions, and a flag for each candidate. -/
structure Scan (F : Type) where
  keptPositions : List (F × Int)
  keep : List Bool

def scanStep (freqTol : F) (refined : List (Refined Cd0 F)) (scan : Scan F) (idx : Nat) : Scan F :=
  match refined[idx]? with
  | none => scan
  | some r =>
    if scan.keptPositions.any (isDup freqTol r.position) then scan
    else ⟨scan.keptPositions ++ [r.position],scan.keep.set idx true⟩

/-- `refine` is `refine_candidate_position` with its cache and configuration. -/
def dedupRefinedCandidates (sorter : SortStable) (toneSpacingHz : F) (refine : Candidate → Refined Cd0 F)
    (candidates : List Candidate) : List (Candidate × Refined Cd0 F) :=
  let refined := candidates.map refine
  let freqTol := 0.10 * toneSpacingHz
  let order := sorter.sortBy (fun a b => partialCmp (scoreAt refined b) (scoreAt refined a)) (List.range candidates.length)
  let scan := order.foldl (scanStep freqTol refined) ⟨[],List.replicate candidates.length false⟩
  ((candidates.zip refined).zip scan.keep).filterMap fun p => if p.2 then some p.1 else none

theorem isDup_comm {number : F → Prop} (hieee : Ieee number) (freqTol : F) (p q : F × Int) :
    isDup freqTol p q = isDup freqTol q p := by
  have hwrap : |wrapI32 (p.2 - q.2)| = |wrapI32 (q.2 - p.2)| := by
    rw [← Int.neg_sub,wrapI32,wrapI32,Int.neg_bmod]
    split
    · rfl
    · exact abs_neg _
  rw [isDup,isDup,hwrap]
  simp only [hieee.abs_sub_comm p.1 q.1]

/-- Nothing wraps when the positions are less than half the range of an `i32` apart. -/
theorem isDup_eq_true_iff (freqTol : F) (p q : F × Int) (hfits : |p.2 - q.2| < 2^31) :
    isDup freqTol p q = true ↔ F32.abs (p.1 - q.1) < freqTol ∧ |p.2 - q.2| ≤ 2 := by
  have hpos := abs_nonneg (p.2 - q.2)
  obtain ⟨hlo,hhi⟩ := abs_lt.1 hfits
  rw [isDup,wrapI32_eq hlo.le hhi,wrapI32_eq (by omega) hfits,Bool.and_eq_true,decide_eq_true_eq,decide_eq_true_eq,I0_TOL]

section Selection
variable (sorter : SortStable) (toneSpacingHz freqTol : F) (refine : Candidate → Refined Cd0 F) (candidates : List Candidate)

/-- What refinement finds for the candidate in a place. -/
def refinedAt (i : Fin candidates.length) : Refined Cd0 F := refine candidates[i]

/-- Whether one candidate is a near duplicate of another. -/
def closeAt (i j : Fin candidates.length) : Bool :=
  isDup freqTol (refinedAt refine candidates i).position (refinedAt refine candidates j).position

omit [F32 F] in
theorem getElem?_refined (i : Fin candidates.length) :
    (candidates.map refine)[i.val]? = some (refinedAt refine candidates i) := by
  rw [List.getElem?_map,List.getElem?_eq_getElem i.isLt]
  rfl

/-- The state of the scan when it has kept the given candidates. -/
def scanOf (kept : List (Fin candidates.length)) : Scan F where
  keptPositions := kept.map fun i => (refinedAt refine candidates i).position
  keep := (List.finRange candidates.length).map fun i => decide (i ∈ kept)

theorem scanStep_scanOf (kept : List (Fin candidates.length)) (i : Fin candidates.length) :
    scanStep freqTol (candidates.map refine) (scanOf refine candidates kept) i =
      scanOf refine candidates (greedyStep (closeAt freqTol refine candidates) kept i) := by
  have hany : (scanOf refine candidates kept).keptPositions.any (isDup freqTol (refinedAt refine candidates i).position) =
      kept.any (closeAt freqTol refine candidates i) := List.any_map
  rw [scanStep,getElem?_refined]
  simp only [hany,greedyStep]
  split
  · rfl
  · simp only [scanOf,List.map_append,List.map_singleton,Scan.mk.injEq,true_and]
    refine List.ext_getElem (by simp) fun m hm _ => ?_
    by_cases hmi : i.val = m
    · simp [← hmi]
    · simp [hmi,Fin.ext_iff,Ne.symm hmi]

/-- The candidates in the order of their scores. -/
def scoreOrder : List Nat :=
  sorter.sortBy (fun a b => partialCmp (scoreAt (candidates.map refine) b) (scoreAt (candidates.map refine) a))
    (List.range candidates.length)

/-- The order as a list of places. -/
theorem exists_placeOrder : ∃ order : List (Fin candidates.length),
    order.map Fin.val = scoreOrder sorter refine candidates ∧ order.Perm (List.finRange candidates.length) := by
  have hperm : (scoreOrder sorter refine candidates).Perm (List.range candidates.length) := sorter.perm _ _
  have hlt : ∀ i ∈ scoreOrder sorter refine candidates, i < candidates.length :=
    fun i hi => List.mem_range.1 (hperm.subset hi)
  refine ⟨(scoreOrder sorter refine candidates).attach.map fun i => ⟨i.val,hlt i.val i.property⟩,?_,?_⟩
  · rw [List.map_map]
    exact List.attach_map_subtype_val _
  · rw [← List.map_perm_map_iff Fin.val_injective,List.map_map,List.map_coe_finRange_eq_range]
    exact (List.Perm.of_eq (List.attach_map_subtype_val _)).trans hperm

/-- The scan keeps what the greedy selection keeps, and the result lists it in the order of the candidates. -/
theorem dedupRefinedCandidates_eq {order : List (Fin candidates.length)}
    (horder : order.map Fin.val = scoreOrder sorter refine candidates) :
    dedupRefinedCandidates sorter toneSpacingHz refine candidates =
      ((List.finRange candidates.length).filter fun i =>
        i ∈ greedySelect (closeAt (0.10 * toneSpacingHz) refine candidates) order).map
        fun i => (candidates[i],refinedAt refine candidates i) := by
  have hstart : (⟨[],List.replicate candidates.length false⟩ : Scan F) = scanOf refine candidates [] := by
    simp [scanOf]
  have hscan : (scoreOrder sorter refine candidates).foldl (scanStep (0.10 * toneSpacingHz) (candidates.map refine))
      ⟨[],List.replicate candidates.length false⟩ =
      scanOf refine candidates (greedySelect (closeAt (0.10 * toneSpacingHz) refine candidates) order) := by
    rw [hstart,← horder,List.foldl_map,greedySelect]
    exact List.foldl_hom (scanOf refine candidates) fun kept i => scanStep_scanOf _ refine candidates kept i
  have hzip (keep : Fin candidates.length → Bool) :
      (candidates.zip (candidates.map refine)).zip ((List.finRange candidates.length).map keep) =
        (List.finRange candidates.length).map fun i => ((candidates[i],refinedAt refine candidates i),keep i) := by
    refine List.ext_getElem (by simp) fun m hm _ => ?_
    simp [refinedAt]
  have hrun : dedupRefinedCandidates sorter toneSpacingHz refine candidates =
      ((candidates.zip (candidates.map refine)).zip ((scoreOrder sorter refine candidates).foldl
        (scanStep (0.10 * toneSpacingHz) (candidates.map refine)) ⟨[],List.replicate candidates.length false⟩).keep).filterMap
        fun p => if p.2 then some p.1 else none := rfl
  rw [hrun,hscan,scanOf,hzip,List.filterMap_map,← List.filterMap_eq_filter,List.map_filterMap]
  refine List.filterMap_congr fun i _ => ?_
  by_cases hkept : i ∈ greedySelect (closeAt (0.10 * toneSpacingHz) refine candidates) order
  · simp [hkept,Option.guard]
  · simp [hkept,Option.guard]

section Order
variable {number : F → Prop} (hieee : Ieee number) (hnumber : ∀ c ∈ candidates, number (refine c).score)
include hieee

theorem partialCmp_eq_gt {x y : F} (hx : number x) (hy : number y) : partialCmp x y = .gt ↔ y < x := by
  rw [partialCmp]
  split
  · rename_i hlt
    exact iff_of_false (by decide) (hieee.asymm hx hy hlt)
  · split
    · rename_i hgt
      exact iff_of_true rfl hgt
    · rename_i hge
      exact iff_of_false (by decide) hge

/-- Comparing numbers is consistent. -/
theorem totalPreorder_score {s : Nat → F} (hs : ∀ i, number (s i)) : TotalPreorder fun a b => partialCmp (s b) (s a) := by
  refine ⟨fun a b => ?_,fun a b c hab hbc => ?_⟩
  · simp only [partialCmp]
    by_cases hlt : s b < s a
    · rw [if_pos hlt,if_neg (hieee.asymm (hs b) (hs a) hlt),if_pos hlt]
      rfl
    · rw [if_neg hlt,if_neg hlt]
      split
      · rfl
      · rfl
  · rw [ne_eq,partialCmp_eq_gt hieee (hs _) (hs _)] at *
    exact hieee.notLT_trans (hs a) (hs b) (hs c) hab hbc

include hnumber

theorem number_scoreAt (i : Nat) : number (scoreAt (candidates.map refine) i) := by
  rw [scoreAt,List.getElem?_map]
  cases hc : candidates[i]? with
  | none => exact hieee.zero
  | some c => exact hnumber c (List.mem_of_getElem? hc)

/-- What comes first in the order does not score lower, and came first if it scores the same. -/
theorem scoreOrder_spec {i j : Fin candidates.length} (hij : [i.val,j.val].Sublist (scoreOrder sorter refine candidates)) :
    (refinedAt refine candidates j).score ≤ (refinedAt refine candidates i).score ∧
    (¬(refinedAt refine candidates j).score < (refinedAt refine candidates i).score → i < j) := by
  have hs := number_scoreAt refine candidates hieee hnumber
  have hscore (i : Fin candidates.length) :
      scoreAt (candidates.map refine) i = (refinedAt refine candidates i).score := by
    rw [scoreAt,getElem?_refined]
    rfl
  have htotal := totalPreorder_score hieee hs
  have hle := List.pairwise_iff_forall_sublist.1 (sorter.sorted _ (List.range candidates.length) htotal) hij
  rw [ne_eq,partialCmp_eq_gt hieee (hs _) (hs _),hscore,hscore] at hle
  have hnodup : (scoreOrder sorter refine candidates).Nodup :=
    (sorter.perm _ _).nodup_iff.2 List.nodup_range
  refine ⟨(hieee.le_iff (hscore j ▸ hs j) (hscore i ▸ hs i)).2 hle,fun hnot => ?_⟩
  have hne : i ≠ j := fun h => by simpa [h] using hnodup.sublist hij
  refine (lt_or_gt_of_ne hne).resolve_right fun hji => ?_
  have hrange : [j.val,i.val].Sublist (List.range candidates.length) :=
    pair_sublist_range hji i.isLt
  have hback := sorter.stable _ (List.range candidates.length) htotal j i (by
    rw [partialCmp,hscore,hscore,if_neg hle,if_neg hnot]) hrange
  exact not_sublist_swap hnodup hij hback

end Order

end Selection

/-- The survivors stand in the order of the candidates, no two of them near duplicates, and a candidate that is
suppressed has a survivor near that scores at least as high. The first of the best survives, and so does whatever
is near nothing. -/
theorem dedup_is_maximal_greedy (sorter : SortStable) (toneSpacingHz : F) (refine : Candidate → Refined Cd0 F)
    (candidates : List Candidate) (number : F → Prop) (hieee : Ieee number)
    (hnumber : ∀ c ∈ candidates, number (refine c).score) :
    ∃ kept : List (Fin candidates.length), kept.Pairwise (· < ·) ∧
      dedupRefinedCandidates sorter toneSpacingHz refine candidates = kept.map (fun i => (candidates[i],refine candidates[i])) ∧
      (∀ i ∈ kept, ∀ j ∈ kept, i ≠ j →
        isDup (0.10 * toneSpacingHz) (refine candidates[i]).position (refine candidates[j]).position = false) ∧
      (∀ i, i ∉ kept → ∃ j ∈ kept,
        isDup (0.10 * toneSpacingHz) (refine candidates[i]).position (refine candidates[j]).position = true ∧
        (refine candidates[i]).score ≤ (refine candidates[j]).score) ∧
      (∀ i : Fin candidates.length, (∀ j : Fin candidates.length, (refine candidates[j]).score ≤ (refine candidates[i]).score) →
        (∀ j < i, (refine candidates[j]).score < (refine candidates[i]).score) → i ∈ kept) ∧
      (∀ i : Fin candidates.length, (∀ j : Fin candidates.length, j ≠ i →
        isDup (0.10 * toneSpacingHz) (refine candidates[i]).position (refine candidates[j]).position = false) → i ∈ kept) ∧
      ∀ p q : F × Int, |p.2 - q.2| < 2^31 →
        (isDup (0.10 * toneSpacingHz) p q = true ↔ F32.abs (p.1 - q.1) < 0.10 * toneSpacingHz ∧ |p.2 - q.2| ≤ 2) := by
  obtain ⟨order,horder,hperm⟩ := exists_placeOrder sorter refine candidates
  let close := closeAt (0.10 * toneSpacingHz) refine candidates
  have hmem {i : Fin candidates.length} :
      i ∈ (List.finRange candidates.length).filter (fun i => i ∈ greedySelect close order) ↔ i ∈ greedySelect close order := by
    simp
  have hcover {i : Fin candidates.length} (hi : i ∉ greedySelect close order) : ∃ j ∈ greedySelect close order,
      close i j = true ∧ [j.val,i.val].Sublist (scoreOrder sorter refine candidates) := by
    obtain ⟨j,hj,hclose,hbefore⟩ := greedySelect_covers close (hperm.mem_iff.2 (List.mem_finRange i)) hi
    exact ⟨j,hj,hclose,horder ▸ hbefore.map Fin.val⟩
  refine ⟨_,(List.pairwise_lt_finRange _).filter _,
    dedupRefinedCandidates_eq sorter toneSpacingHz refine candidates horder,?_,?_,?_,?_,
    fun p q hfits => isDup_eq_true_iff _ p q hfits⟩
  · intro i hi j hj hij
    have hsymm : Std.Symm fun i j => close i j = false := ⟨fun i j h => (isDup_comm hieee _ _ _).trans h⟩
    have hpair : (greedySelect close order).Pairwise fun i j => close i j = false :=
      (greedySelect_pairwise close order).imp fun {a b} h => hsymm.symm b a h
    exact hpair.forall (hmem.1 hi) (hmem.1 hj) hij
  · intro i hi
    obtain ⟨j,hj,hclose,hbefore⟩ := hcover fun h => hi (hmem.2 h)
    exact ⟨j,hmem.2 hj,hclose,(scoreOrder_spec sorter refine candidates hieee hnumber hbefore).1⟩
  · intro i hbest hfirst
    refine hmem.2 (by_contra fun hi => ?_)
    obtain ⟨j,-,-,hbefore⟩ := hcover hi
    have hnumbers (k : Fin candidates.length) : number (refine candidates[k]).score := hnumber _ (List.getElem_mem _)
    -- One that comes before the best scores the same, so it stood before it, where all score lower.
    obtain ⟨hle,htie⟩ := scoreOrder_spec sorter refine candidates hieee hnumber hbefore
    have hlt := hfirst j (htie ((hieee.le_iff (hnumbers j) (hnumbers i)).1 (hbest j)))
    exact (hieee.le_iff (hnumbers i) (hnumbers j)).1 hle hlt
  · intro i halone
    refine hmem.2 (by_contra fun hi => ?_)
    obtain ⟨j,hj,hclose,-⟩ := hcover hi
    have hne : j ≠ i := fun h => hi (h ▸ hj)
    exact Bool.false_ne_true ((halone j hne).symm.trans hclose)

theorem dedup_three_candidates : letI := rationalF32
    ∃ kept : List (Fin 3), kept.Pairwise (· < ·) ∧
      dedupRefinedCandidates stableInsertionSort (1 : Rat) (fun c : Nat => (⟨(),0,c,c⟩ : Refined Unit Rat)) [0,3,1] =
        kept.map fun i => ([0,3,1][i],⟨(),0,([0,3,1][i] : Nat),([0,3,1][i] : Nat)⟩) := by
  let _ := rationalF32
  obtain ⟨kept,hkept,heq,-⟩ := dedup_is_maximal_greedy stableInsertionSort (1 : Rat)
    (fun c : Nat => (⟨(),0,c,c⟩ : Refined Unit Rat)) [0,3,1] (fun _ => True) ieee_rationalF32 fun _ _ => trivial
  exact ⟨kept,hkept,heq⟩

end Dedup

end MfskCore.Engine
