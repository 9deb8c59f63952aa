import Mathlib.Data.List.Sort

/-! `slice::sort_unstable_by`. It leaves a permutation of the slice, in order when the comparison is a
total preorder; which of two equal elements comes first is not specified. -/
namespace MfskCore.Rust

/-- The comparison orders any two elements, consistently. -/
def TotalPreorder (cmp : Nat → Nat → Ordering) : Prop :=
  (∀ a b, cmp a b = (cmp b a).swap) ∧ ∀ a b c, cmp a b ≠ .gt → cmp b c ≠ .gt → cmp a c ≠ .gt

/-- A sort that meets the contract. -/
structure SortUnstable where
  sortBy : (Nat → Nat → Ordering) → List Nat → List Nat
  perm : ∀ cmp l, (sortBy cmp l).Perm l
  sorted : ∀ cmp l, TotalPreorder cmp → (sortBy cmp l).Pairwise fun a b => cmp a b ≠ .gt

/-- Insertion meets the contract. -/
def insertionSort : SortUnstable where
  sortBy cmp l := l.insertionSort fun a b => cmp a b ≠ .gt
  perm _ l := List.perm_insertionSort _ l
  sorted cmp l h := by
    have htotal : Std.Total fun a b => cmp a b ≠ .gt := ⟨fun a b => by
      rw [h.1 b a]
      cases cmp a b <;> simp⟩
    have htrans : IsTrans Nat fun a b => cmp a b ≠ .gt := ⟨h.2⟩
    exact List.pairwise_insertionSort _ l

/-- `slice::sort_by`, which also keeps equal elements in the order they came in. -/
structure SortStable extends SortUnstable where
  stable : ∀ cmp l, TotalPreorder cmp → ∀ a b, cmp a b = .eq → [a,b].Sublist l → [a,b].Sublist (sortBy cmp l)

/-- Insertion is stable. -/
def stableInsertionSort : SortStable where
  toSortUnstable := insertionSort
  stable _ _ _ _ _ hab hl := List.pair_sublist_insertionSort (by simp [hab]) hl

theorem pair_sublist_range {i j n : Nat} (hij : i < j) (hj : j < n) : [i,j].Sublist (List.range n) := by
  refine List.Sublist.trans ?_ (List.range_sublist.2 hj)
  rw [List.range_succ]
  exact (List.singleton_sublist.2 (List.mem_range.2 hij)).append (List.Sublist.refl [j])

/-- Two elements are in one order only. -/
theorem not_sublist_swap {α : Type*} {a b : α} {l : List α} (hl : l.Nodup) (hab : [a,b].Sublist l) : ¬[b,a].Sublist l := by
  intro hba
  induction l with
  | nil => cases hab
  | cons c l ih =>
    rw [List.nodup_cons] at hl
    cases hab with
    | cons _ hab =>
      cases hba with
      | cons _ hba => exact ih hl.2 hab hba
      | cons_cons _ _ => exact hl.1 (hab.subset (by simp))
    | cons_cons _ hb =>
      cases hba with
      | cons _ hba => exact hl.1 (hba.subset (by simp))
      | cons_cons _ _ => exact hl.1 (hb.subset (by simp))

/-- `partial_cmp` with equality where the values do not compare. -/
def partialCmp {F : Type} [LT F] [DecidableLT F] (x y : F) : Ordering :=
  if x < y then .lt else if y < x then .gt else .eq

theorem partialCmp_ne_gt {K : Type} [LinearOrder K] (x y : K) : partialCmp x y ≠ .gt ↔ x ≤ y := by
  unfold partialCmp
  split
  · rename_i h
    simp [h.le]
  · split
    · rename_i h
      simp [h]
    · rename_i h
      simp [not_lt.mp h]

/-- Comparing the images of indices in a linear order is a total preorder. -/
theorem totalPreorder_partialCmp {K : Type} [LinearOrder K] (f : Nat → K) :
    TotalPreorder fun a b => partialCmp (f b) (f a) := by
  refine ⟨fun a b => ?_,fun a b c hab hbc => ?_⟩
  · unfold partialCmp
    rcases lt_trichotomy (f a) (f b) with h | h | h
    · simp [h,h.not_gt]
    · simp [h]
    · simp [h,h.not_gt]
  · rw [partialCmp_ne_gt] at *
    exact hbc.trans hab

end MfskCore.Rust
