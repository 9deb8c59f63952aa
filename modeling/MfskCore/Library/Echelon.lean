import Mathlib.LinearAlgebra.Finsupp.LinearCombination
import Mathlib.LinearAlgebra.Dimension.Constructions
import Mathlib.Data.List.GetD

/-! Reduced echelon forms, and the greedy basis of an ordered family of vectors. The pivots of a reduced
echelon form of a matrix are the greedy basis of its columns. -/
namespace MfskCore.Library
variable {F : Type*} [Field F]

section Greedy
variable {V ι : Type*} [AddCommGroup V] [Module F V]

open Classical in
/-- Take the vectors in order and keep those that do not depend on the ones kept. -/
noncomputable def greedyBasis (F : Type*) {V ι : Type*} [Field F] [AddCommGroup V] [Module F V] (v : ι → V)
    (order : List ι) : List ι :=
  order.foldl (fun kept i => if v i ∈ Submodule.span F (v '' {j | j ∈ kept}) then kept else kept ++ [i]) []

theorem greedyBasis_append (v : ι → V) (order : List ι) (i : ι) :
    greedyBasis F v (order ++ [i]) =
      open Classical in
      if v i ∈ Submodule.span F (v '' {j | j ∈ greedyBasis F v order}) then greedyBasis F v order
      else greedyBasis F v order ++ [i] := by
  rw [greedyBasis,List.foldl_append]
  rfl

theorem greedyBasis_subset (v : ι → V) (order : List ι) : greedyBasis F v order ⊆ order := by
  induction order using List.reverseRecOn with
  | nil => simp [greedyBasis]
  | append_singleton order i ih =>
    rw [greedyBasis_append]
    split
    · exact List.subset_append_of_subset_left _ ih
    · exact List.append_subset.mpr
        ⟨List.subset_append_of_subset_left _ ih,List.subset_append_right _ _⟩

/-- What is kept stays kept. -/
theorem greedyBasis_subset_append (v : ι → V) (order later : List ι) :
    greedyBasis F v order ⊆ greedyBasis F v (order ++ later) := by
  induction later using List.reverseRecOn with
  | nil => simp
  | append_singleton later i ih =>
    rw [← List.append_assoc,greedyBasis_append]
    split
    · exact ih
    · exact List.subset_append_of_subset_left _ ih

/-- A vector is kept when some functional separates it from those before it. -/
theorem mem_greedyBasis_of_functional (v : ι → V) {before : List ι} {i : ι} (after : List ι) (φ : V →ₗ[F] F)
    (hi : φ (v i) ≠ 0) (hbefore : ∀ j ∈ before, φ (v j) = 0) : i ∈ greedyBasis F v (before ++ i :: after) := by
  have hdep : v i ∉ Submodule.span F (v '' {j | j ∈ greedyBasis F v before}) := by
    intro hmem
    have hker : Submodule.span F (v '' {j | j ∈ greedyBasis F v before}) ≤ LinearMap.ker φ := by
      refine Submodule.span_le.mpr ?_
      rintro _ ⟨j,hj,rfl⟩
      exact hbefore j (greedyBasis_subset v before hj)
    exact hi (hker hmem)
  have hsplit : before ++ i :: after = (before ++ [i]) ++ after := by simp
  rw [hsplit]
  refine greedyBasis_subset_append v _ after ?_
  rw [greedyBasis_append,if_neg hdep]
  exact List.mem_append_right _ (List.mem_singleton_self i)

/-- The greedy basis spans the family. -/
theorem mem_span_greedyBasis (v : ι → V) {order : List ι} {i : ι} (hi : i ∈ order) :
    v i ∈ Submodule.span F (v '' {j | j ∈ greedyBasis F v order}) := by
  induction order using List.reverseRecOn with
  | nil => simp at hi
  | append_singleton order k ih =>
    have hmono : Submodule.span F (v '' {j | j ∈ greedyBasis F v order}) ≤
        Submodule.span F (v '' {j | j ∈ greedyBasis F v (order ++ [k])}) :=
      Submodule.span_mono (Set.image_mono fun _ hj => greedyBasis_subset_append v order [k] hj)
    rcases List.mem_append.mp hi with hmem | hlast
    · exact hmono (ih hmem)
    · obtain rfl := List.mem_singleton.mp hlast
      by_cases hdep : v i ∈ Submodule.span F (v '' {j | j ∈ greedyBasis F v order})
      · exact hmono hdep
      · refine Submodule.subset_span ⟨i,?_,rfl⟩
        show i ∈ greedyBasis F v (order ++ [i])
        rw [greedyBasis_append,if_neg hdep]
        exact List.mem_append_right _ (List.mem_singleton_self i)

theorem span_greedyBasis (v : ι → V) (order : List ι) :
    Submodule.span F (v '' {j | j ∈ greedyBasis F v order}) = Submodule.span F (v '' {j | j ∈ order}) := by
  apply le_antisymm
  · exact Submodule.span_mono (Set.image_mono fun _ hj => greedyBasis_subset v order hj)
  · refine Submodule.span_le.mpr ?_
    rintro _ ⟨j,hj,rfl⟩
    exact mem_span_greedyBasis v hj

/-- Later vectors add only themselves. -/
theorem greedyBasis_append_subset (v : ι → V) (order later : List ι) :
    greedyBasis F v (order ++ later) ⊆ greedyBasis F v order ++ later := by
  induction later using List.reverseRecOn with
  | nil => simp
  | append_singleton later i ih =>
    have hwider : greedyBasis F v order ++ later ⊆ greedyBasis F v order ++ (later ++ [i]) := by
      rw [← List.append_assoc]
      exact List.subset_append_left _ _
    rw [← List.append_assoc,greedyBasis_append]
    split
    · exact List.Subset.trans ih hwider
    · exact List.append_subset.mpr ⟨List.Subset.trans ih hwider,by simp⟩

/-- A vector is kept exactly when it does not depend on those before it. -/
theorem mem_greedyBasis_iff (v : ι → V) {before after : List ι} {i : ι} (hnodup : (before ++ i :: after).Nodup) :
    i ∈ greedyBasis F v (before ++ i :: after) ↔ v i ∉ Submodule.span F (v '' {j | j ∈ before}) := by
  obtain ⟨-,hnot,hbefore⟩ := List.nodup_append.mp hnodup
  have hnew : i ∉ greedyBasis F v before := fun hi => hbefore i (greedyBasis_subset v before hi) i List.mem_cons_self rfl
  have hsplit : before ++ i :: after = (before ++ [i]) ++ after := by simp
  have hhere : i ∈ greedyBasis F v (before ++ i :: after) ↔ i ∈ greedyBasis F v (before ++ [i]) := by
    rw [hsplit]
    refine ⟨fun hi => ?_,fun hi => greedyBasis_subset_append v _ after hi⟩
    exact (List.mem_append.mp (greedyBasis_append_subset v _ after hi)).resolve_right (List.nodup_cons.mp hnot).1
  rw [hhere,greedyBasis_append,span_greedyBasis]
  split
  · rename_i hdep
    exact iff_of_false hnew (not_not.mpr hdep)
  · rename_i hdep
    exact iff_of_true (List.mem_append_right _ (List.mem_singleton_self i)) hdep

/-- The greedy basis depends on the vectors of the order alone. -/
theorem greedyBasis_congr {v w : ι → V} {order : List ι} (h : ∀ i ∈ order, v i = w i) :
    greedyBasis F v order = greedyBasis F w order := by
  induction order using List.reverseRecOn with
  | nil => rfl
  | append_singleton order k ih =>
    have hprev := ih fun i hi => h i (List.mem_append_left _ hi)
    have himage : v '' {j | j ∈ greedyBasis F w order} = w '' {j | j ∈ greedyBasis F w order} :=
      Set.image_congr fun j hj => h j (List.mem_append_left _ (greedyBasis_subset w order hj))
    rw [greedyBasis_append,greedyBasis_append,hprev,himage,
      h k (List.mem_append_right _ (List.mem_singleton_self k))]

/-- Renaming the family renames its greedy basis. -/
theorem greedyBasis_map {κ : Type*} (v : ι → V) (f : κ → ι) (order : List κ) :
    greedyBasis F v (order.map f) = (greedyBasis F (v ∘ f) order).map f := by
  induction order using List.reverseRecOn with
  | nil => rfl
  | append_singleton order k ih =>
    have himage : v '' {j | j ∈ (greedyBasis F (v ∘ f) order).map f} =
        (v ∘ f) '' {j | j ∈ greedyBasis F (v ∘ f) order} := by
      ext x
      simp
    rw [List.map_append,List.map_singleton,greedyBasis_append,greedyBasis_append,ih,himage]
    by_cases h : (v ∘ f) k ∈ Submodule.span F ((v ∘ f) '' {j | j ∈ greedyBasis F (v ∘ f) order})
    · rw [if_pos h]
      exact if_pos h
    · rw [if_neg h,List.map_append,List.map_singleton]
      exact if_neg h

end Greedy

section Rows
variable {k : Nat}

/-- The space spanned by the first `k` rows. -/
def rowSpace (k : Nat) (A : Nat → Nat → F) : Submodule F (Nat → F) := Submodule.span F (A '' Set.Iio k)

/-- A column, as a vector of its entries in the first `k` rows. -/
def column (k : Nat) (A : Nat → Nat → F) (c : Nat) : Fin k → F := fun r => A r c

theorem row_mem_rowSpace (A : Nat → Nat → F) {r : Nat} (h : r < k) : A r ∈ rowSpace k A :=
  Submodule.subset_span ⟨r,h,rfl⟩

theorem rowSpace_le {A B : Nat → Nat → F} (h : ∀ r < k, A r ∈ rowSpace k B) : rowSpace k A ≤ rowSpace k B := by
  refine Submodule.span_le.mpr ?_
  rintro _ ⟨r,hr,rfl⟩
  exact h r hr

/-- A vector of the row space is a combination of the rows. -/
theorem mem_rowSpace_iff (A : Nat → Nat → F) (w : Nat → F) :
    w ∈ rowSpace k A ↔ ∃ u : Nat → F, ∀ c, w c = ∑ r ∈ Finset.range k, u r * A r c := by
  have himage : A '' Set.Iio k = A '' (Finset.range k : Set Nat) := by
    rw [Finset.coe_range]
  rw [rowSpace,himage,Submodule.mem_span_image_finset_iff_exists_fun']
  constructor
  · rintro ⟨u,hu⟩
    refine ⟨u,fun c => ?_⟩
    rw [← hu]
    simp
  · rintro ⟨u,hu⟩
    refine ⟨u,?_⟩
    funext c
    rw [hu c]
    simp

/-- The linear relations among the columns depend on the row space alone: a relation is a functional on
rows, and vanishes on the whole space when it does on the rows. -/
theorem column_mem_span_of_rowSpace_le {A B : Nat → Nat → F} (h : rowSpace k A ≤ rowSpace k B) {c : Nat}
    {s : Set Nat} (hc : column k B c ∈ Submodule.span F (column k B '' s)) :
    column k A c ∈ Submodule.span F (column k A '' s) := by
  rw [Finsupp.mem_span_image_iff_linearCombination] at hc ⊢
  obtain ⟨l,hl,hsum⟩ := hc
  refine ⟨l,hl,?_⟩
  let entry (p : Nat) : (Nat → F) →ₗ[F] F := LinearMap.proj p
  let relation : (Nat → F) →ₗ[F] F := (l.sum fun p a => a • entry p) - entry c
  have hrel (w : Nat → F) : relation w = (l.sum fun p a => a * w p) - w c := by
    simp [relation,entry,Finsupp.sum]
  have hB : rowSpace k B ≤ LinearMap.ker relation := by
    refine Submodule.span_le.mpr ?_
    rintro _ ⟨r,hr,rfl⟩
    have hentry := congrFun hsum ⟨r,hr⟩
    simp only [Finsupp.linearCombination_apply,Finsupp.sum,Finset.sum_apply,Pi.smul_apply,column,
      smul_eq_mul] at hentry
    rw [SetLike.mem_coe,LinearMap.mem_ker,hrel,Finsupp.sum,hentry,sub_self]
  funext r
  have hker := (h.trans hB) (row_mem_rowSpace A r.isLt)
  rw [LinearMap.mem_ker,hrel,sub_eq_zero] at hker
  simpa [Finsupp.linearCombination_apply,Finsupp.sum,column] using hker

/-- The columns below `upto` are reduced: the first rows have their leading ones at the pivots, and the
other rows are clear. -/
structure Echelon (k : Nat) (A : Nat → Nat → F) (pivots : List Nat) (upto : Nat) : Prop where
  length_le : pivots.length ≤ k
  sorted : pivots.Pairwise (· < ·)
  below : ∀ p ∈ pivots, p < upto
  unit : ∀ t p, pivots[t]? = some p → ∀ r < k, A r p = if r = t then 1 else 0
  clear : ∀ r < k, pivots.length ≤ r → ∀ c < upto, A r c = 0

theorem echelon_start (k : Nat) (A : Nat → Nat → F) : Echelon k A [] 0 where
  length_le := Nat.zero_le k
  sorted := List.Pairwise.nil
  below := by simp
  unit := by simp
  clear _ _ _ c hc := absurd hc (Nat.not_lt_zero c)

namespace Echelon
variable {A B : Nat → Nat → F} {pivots : List Nat} {upto : Nat}

theorem le_pivot (h : Echelon k A pivots upto) {t p : Nat} (ht : pivots[t]? = some p) : t ≤ p := by
  induction t generalizing p with
  | zero => exact Nat.zero_le p
  | succ t ih =>
    obtain ⟨hlt,rfl⟩ := List.getElem?_eq_some_iff.mp ht
    have hprev := ih (List.getElem?_eq_getElem (Nat.lt_of_succ_lt hlt))
    exact hprev.trans_lt (List.pairwise_iff_getElem.mp h.sorted t (t + 1) _ hlt (Nat.lt_succ_self t))

/-- As long as every column has a pivot, the pivots are on the diagonal. -/
theorem diagonal (h : Echelon k A pivots upto) {d : Nat} (hall : ∀ c < d, c ∈ pivots) :
    ∀ c < d, pivots[c]? = some c := by
  intro c
  induction c using Nat.strong_induction_on with
  | _ c ih =>
    intro hc
    obtain ⟨t,ht,heq⟩ := List.getElem_of_mem (hall c hc)
    have hget : pivots[t]? = some c := heq ▸ List.getElem?_eq_getElem ht
    rcases Nat.lt_or_eq_of_le (h.le_pivot hget) with hlt | rfl
    · have hearlier := ih t hlt (hlt.trans hc)
      exact absurd (Option.some.inj (hearlier.symm.trans hget)) hlt.ne
    · exact hget

/-- A column that is clear below the pivot rows has no pivot. -/
theorem skip (h : Echelon k A pivots upto) (hclear : ∀ r < k, pivots.length ≤ r → A r upto = 0) :
    Echelon k A pivots (upto + 1) :=
  { h with
    below := fun p hp => (h.below p hp).trans (Nat.lt_succ_self upto)
    clear := fun r hr hle c hc => by
      rcases Nat.lt_succ_iff_lt_or_eq.mp hc with hlt | rfl
      · exact h.clear r hr hle c hlt
      · exact hclear r hr hle }

/-- A step that makes the column a unit vector and changes no earlier column adds a pivot. -/
theorem pivot (h : Echelon k A pivots upto) (hlt : pivots.length < k)
    (hsame : ∀ r < k, ∀ c < upto, B r c = A r c)
    (hunit : ∀ r < k, B r upto = if r = pivots.length then 1 else 0) :
    Echelon k B (pivots ++ [upto]) (upto + 1) where
  length_le := by simpa using hlt
  sorted := by
    refine List.pairwise_append.mpr ⟨h.sorted,List.pairwise_singleton _ _,fun p hp c hc => ?_⟩
    rw [List.mem_singleton.mp hc]
    exact h.below p hp
  below p hp := by
    rcases List.mem_append.mp hp with hmem | hlast
    · exact (h.below p hmem).trans (Nat.lt_succ_self upto)
    · rw [List.mem_singleton.mp hlast]
      exact Nat.lt_succ_self upto
  unit t p ht r hr := by
    by_cases htl : t < pivots.length
    · rw [List.getElem?_append_left htl] at ht
      rw [hsame r hr p (h.below p (List.mem_of_getElem? ht))]
      exact h.unit t p ht r hr
    · rw [List.getElem?_append_right (by omega)] at ht
      have hidx : t - pivots.length = 0 := by
        by_contra hne
        rw [List.getElem?_eq_none (by simp; omega)] at ht
        exact absurd ht (by simp)
      have heq : t = pivots.length := by omega
      rw [hidx] at ht
      obtain rfl : upto = p := by simpa using ht
      rw [heq]
      exact hunit r hr
  clear r hr hle c hc := by
    have hle' : pivots.length + 1 ≤ r := by simpa using hle
    rcases Nat.lt_succ_iff_lt_or_eq.mp hc with hclt | rfl
    · rw [hsame r hr c hclt]
      exact h.clear r hr (by omega) c hclt
    · rw [hunit r hr,if_neg (by omega)]

/-- A column without entries below the pivot rows is the combination of the pivot columns that it lists. -/
theorem column_mem_span (h : Echelon k A pivots upto) {c : Nat}
    (hclear : ∀ r < k, pivots.length ≤ r → A r c = 0) :
    column k A c ∈ Submodule.span F (column k A '' {p | p ∈ pivots}) := by
  have hsum : column k A c = ∑ t : Fin pivots.length, A t c • column k A pivots[t.val] := by
    funext r
    rw [Finset.sum_apply]
    have hterm (t : Fin pivots.length) :
        (A t c • column k A pivots[t.val]) r = if r.val = t.val then A t c else 0 := by
      show A t c * A r pivots[t.val] = _
      rw [h.unit t _ (List.getElem?_eq_getElem t.isLt) r r.isLt,mul_ite,mul_one,mul_zero]
    rw [Finset.sum_congr rfl fun t _ => hterm t]
    by_cases hr : r.val < pivots.length
    · rw [Finset.sum_eq_single ⟨r.val,hr⟩]
      · simp [column]
      · intro t _ hne
        rw [if_neg fun heq => hne (Fin.ext heq.symm)]
      · simp
    · have hzero (t : Fin pivots.length) : (if r.val = t.val then A t c else 0) = 0 := by
        have hlt := t.isLt
        rw [if_neg (by omega)]
      rw [Finset.sum_eq_zero fun t _ => hzero t]
      exact hclear r r.isLt (by omega)
  rw [hsum]
  refine Submodule.sum_mem _ fun t _ => Submodule.smul_mem _ _ (Submodule.subset_span ?_)
  exact ⟨pivots[t.val],List.getElem_mem t.isLt,rfl⟩

/-- A column with an entry below the pivot rows is independent of the pivot columns. -/
theorem column_not_mem_span (h : Echelon k A pivots upto) {c r : Nat} (hr : r < k)
    (hle : pivots.length ≤ r) (hentry : A r c ≠ 0) :
    column k A c ∉ Submodule.span F (column k A '' {p | p ∈ pivots}) := by
  let entry : (Fin k → F) →ₗ[F] F := LinearMap.proj ⟨r,hr⟩
  have hker : Submodule.span F (column k A '' {p | p ∈ pivots}) ≤ LinearMap.ker entry := by
    refine Submodule.span_le.mpr ?_
    rintro _ ⟨p,hp,rfl⟩
    exact h.clear r hr hle p (h.below p hp)
  intro hmem
  exact hentry (hker hmem)

/-- A vector of the row space is read off at the pivots. -/
theorem eq_sum_pivots (h : Echelon k A pivots upto) (hfull : pivots.length = k) {w : Nat → F}
    (hw : w ∈ rowSpace k A) (c : Nat) :
    w c = ∑ r ∈ Finset.range k, w (pivots.getD r 0) * A r c := by
  obtain ⟨u,hu⟩ := (mem_rowSpace_iff A w).mp hw
  rw [hu c]
  refine Finset.sum_congr rfl fun t ht => ?_
  have htk := Finset.mem_range.mp ht
  have hget : pivots[t]? = some (pivots.getD t 0) := by
    rw [List.getD_eq_getElem?_getD,List.getElem?_eq_getElem (hfull ▸ htk),Option.getD_some]
  have hvalue : w (pivots.getD t 0) = u t := by
    rw [hu,Finset.sum_congr rfl fun r hr => by rw [h.unit t _ hget r (Finset.mem_range.mp hr)]]
    simp [htk]
  rw [hvalue]

/-- A combination of the rows has its coefficients at the pivots. -/
theorem sum_at_pivot (h : Echelon k A pivots upto) (u : Nat → F) {t p : Nat} (ht : pivots[t]? = some p) :
    ∑ r ∈ Finset.range k, u r * A r p = u t := by
  have htk : t < k := (List.getElem?_eq_some_iff.mp ht).1.trans_le h.length_le
  rw [Finset.sum_congr rfl fun r hr => by rw [h.unit t p ht r (Finset.mem_range.mp hr)]]
  simp [htk]

end Echelon

/-- Exchanging two rows and adding multiples of one row to the others keeps the row space. -/
theorem rowSpace_eq_of_step {A B : Nat → Nat → F} {σ : Nat → Nat} {p : Nat} (hp : p < k)
    (hσ : ∀ r < k, σ r < k) (hinv : ∀ r < k, σ (σ r) = r) (a : Nat → F) (hpivot : B p = A (σ p))
    (hrow : ∀ r < k, r ≠ p → B r = A (σ r) + a r • A (σ p)) : rowSpace k B = rowSpace k A := by
  apply le_antisymm
  · refine rowSpace_le fun r hr => ?_
    by_cases hrp : r = p
    · rw [hrp,hpivot]
      exact row_mem_rowSpace A (hσ p hp)
    · rw [hrow r hr hrp]
      exact Submodule.add_mem _ (row_mem_rowSpace A (hσ r hr))
        (Submodule.smul_mem _ _ (row_mem_rowSpace A (hσ p hp)))
  · have hswapped (r : Nat) (hr : r < k) : A (σ r) ∈ rowSpace k B := by
      by_cases hrp : r = p
      · rw [hrp,← hpivot]
        exact row_mem_rowSpace B hp
      · have hsub : A (σ r) = B r - a r • B p := by
          rw [hrow r hr hrp,hpivot,add_sub_cancel_right]
        rw [hsub]
        exact Submodule.sub_mem _ (row_mem_rowSpace B hr)
          (Submodule.smul_mem _ _ (row_mem_rowSpace B hp))
    refine rowSpace_le fun r hr => ?_
    have h := hswapped (σ r) (hσ r hr)
    rwa [hinv r hr] at h

/-- `B` is `A` with the columns below `upto` reduced, and the pivots are the greedy basis of those columns
of `A`. -/
structure Reduces (k : Nat) (A B : Nat → Nat → F) (pivots : List Nat) (upto : Nat) : Prop where
  echelon : Echelon k B pivots upto
  space : rowSpace k B = rowSpace k A
  greedy : pivots = greedyBasis F (column k A) (List.range upto)

theorem reduces_start (k : Nat) (A : Nat → Nat → F) : Reduces k A A [] 0 := ⟨echelon_start k A,rfl,rfl⟩

namespace Reduces
variable {A B C : Nat → Nat → F} {pivots : List Nat} {upto : Nat}

theorem skip (h : Reduces k A B pivots upto) (hclear : ∀ r < k, pivots.length ≤ r → B r upto = 0) :
    Reduces k A B pivots (upto + 1) where
  echelon := h.echelon.skip hclear
  space := h.space
  greedy := by
    have hspan := column_mem_span_of_rowSpace_le h.space.ge (h.echelon.column_mem_span hclear)
    rw [List.range_succ,greedyBasis_append,← h.greedy,if_pos hspan]

theorem pivot (h : Reduces k A B pivots upto) (hspace : rowSpace k C = rowSpace k B)
    (hsame : ∀ r < k, ∀ c < upto, C r c = B r c)
    (hunit : ∀ r < k, C r upto = if r = pivots.length then 1 else 0) {r : Nat} (hr : r < k)
    (hle : pivots.length ≤ r) (hentry : B r upto ≠ 0) : Reduces k A C (pivots ++ [upto]) (upto + 1) where
  echelon := h.echelon.pivot (by omega) hsame hunit
  space := hspace.trans h.space
  greedy := by
    have hspan : column k A upto ∉ Submodule.span F (column k A '' {p | p ∈ pivots}) := fun hmem =>
      h.echelon.column_not_mem_span hr hle hentry (column_mem_span_of_rowSpace_le h.space.le hmem)
    rw [List.range_succ,greedyBasis_append,← h.greedy,if_neg hspan]

/-- All rows have a pivot when the columns seen span the whole space. -/
theorem full (h : Reduces k A B pivots upto)
    (hspan : ∀ r < k, ∃ c < upto, column k A c = fun r' : Fin k => if r'.val = r then 1 else 0) :
    pivots.length = k := by
  refine le_antisymm h.echelon.length_le ?_
  have htop : Submodule.span F (column k A '' {p | p ∈ pivots}) = ⊤ := by
    rw [eq_top_iff,← (Pi.basisFun F (Fin k)).span_eq]
    refine Submodule.span_le.mpr ?_
    rintro _ ⟨r,rfl⟩
    obtain ⟨c,hc,hcol⟩ := hspan r r.isLt
    have hunit : (Pi.basisFun F (Fin k)) r = column k A c := by
      rw [hcol]
      funext r'
      simp [Pi.single_apply,Fin.ext_iff]
    rw [hunit,h.greedy]
    exact mem_span_greedyBasis _ (List.mem_range.mpr hc)
  classical
  have himage : column k A '' {p | p ∈ pivots} = ((pivots.map (column k A)).toFinset : Set (Fin k → F)) := by
    ext x
    simp
  have hrank : Module.finrank F (Submodule.span F ((pivots.map (column k A)).toFinset : Set (Fin k → F))) ≤
      (pivots.map (column k A)).toFinset.card := finrank_span_finset_le_card _
  rw [← himage,htop,finrank_top,Module.finrank_fin_fun] at hrank
  have hcard := List.toFinset_card_le (pivots.map (column k A))
  rw [List.length_map] at hcard
  omega

end Reduces

end Rows

section GaussJordan
variable {k i p : Nat} {A B : Nat → Nat → F}

/-- Two rows are exchanged, the upper one is divided by its entry in the column, and it is subtracted from all others. -/
def clearColumn (A : Nat → Nat → F) (i p : Nat) : Nat → Nat → F := fun r c =>
  if r = i then A p c / A p i else A (Equiv.swap i p r) c - A (Equiv.swap i p r) i * (A p c / A p i)

/-- Only a pivot that is not zero can be divided by; then no row is lost. -/
theorem rowSpace_clearColumn (hi : i < k) (hp : p < k) (hpivot : A p i ≠ 0) :
    rowSpace k (clearColumn A i p) = rowSpace k A := by
  have hswap : ∀ r < k, Equiv.swap i p r < k := by
    intro r hr
    rw [Equiv.swap_apply_def]
    split
    · exact hp
    split
    · exact hi
    · exact hr
  have hupper : clearColumn A i p i = (A p i)⁻¹ • A p := by
    funext c
    rw [clearColumn,if_pos rfl,Pi.smul_apply,smul_eq_mul,div_eq_inv_mul]
  have hother : ∀ r, r ≠ i → clearColumn A i p r =
      A (Equiv.swap i p r) - A (Equiv.swap i p r) i • clearColumn A i p i := by
    intro r hr
    funext c
    rw [clearColumn,if_neg hr,Pi.sub_apply,Pi.smul_apply,smul_eq_mul,clearColumn,if_pos rfl]
  apply le_antisymm
  · refine rowSpace_le fun r hr => ?_
    have hscaled : clearColumn A i p i ∈ rowSpace k A := by
      rw [hupper]
      exact Submodule.smul_mem _ _ (row_mem_rowSpace A hp)
    by_cases hri : r = i
    · rwa [hri]
    · rw [hother r hri]
      exact Submodule.sub_mem _ (row_mem_rowSpace A (hswap r hr)) (Submodule.smul_mem _ _ hscaled)
  · have hrow : ∀ r < k, A (Equiv.swap i p r) ∈ rowSpace k (clearColumn A i p) := by
      intro r hr
      by_cases hri : r = i
      · have hback : A p = A p i • clearColumn A i p i := by
          rw [hupper,smul_smul,mul_inv_cancel₀ hpivot,one_smul]
        rw [hri,Equiv.swap_apply_left,hback]
        exact Submodule.smul_mem _ _ (row_mem_rowSpace _ hi)
      · have hback : A (Equiv.swap i p r) =
            clearColumn A i p r + A (Equiv.swap i p r) i • clearColumn A i p i := by
          rw [hother r hri,sub_add_cancel]
        rw [hback]
        exact Submodule.add_mem _ (row_mem_rowSpace _ hr) (Submodule.smul_mem _ _ (row_mem_rowSpace _ hi))
    refine rowSpace_le fun r hr => ?_
    have h := hrow (Equiv.swap i p r) (hswap r hr)
    rwa [Equiv.swap_apply_self] at h

/-- One column more is a unit column. -/
theorem Echelon.clearColumn (h : Echelon k A (List.range i) i) (hip : i ≤ p) (hp : p < k) (hpivot : A p i ≠ 0) :
    Echelon k (clearColumn A i p) (List.range (i + 1)) (i + 1) := by
  have hlen : (List.range i).length = i := List.length_range
  have hclear : ∀ c < i, A p c = 0 := h.clear p hp (by rwa [hlen])
  rw [List.range_succ]
  refine h.pivot (by omega) (fun r hr c hc => ?_) fun r hr => ?_
  · rw [Library.clearColumn,hclear c hc,zero_div,mul_zero,sub_zero]
    split
    · subst r
      exact (h.clear i hr (by rw [hlen]) c hc).symm
    · rw [Equiv.swap_apply_def,if_neg ‹_›]
      split
      · subst r
        rw [hclear c hc,h.clear i (by omega) (by rw [hlen]) c hc]
      · rfl
  · rw [Library.clearColumn,hlen,div_self hpivot,mul_one,sub_self]

/-- The last column of the reduced form solves the equations. -/
theorem Echelon.solves (h : Echelon k B (List.range k) k) (hspace : rowSpace k B = rowSpace k A) {r : Nat} (hr : r < k) :
    ∑ c ∈ Finset.range k, A r c * B c k = A r k := by
  have hmem : A r ∈ rowSpace k B := hspace ▸ row_mem_rowSpace A hr
  rw [h.eq_sum_pivots List.length_range hmem k]
  refine Finset.sum_congr rfl fun c hc => ?_
  have hc := Finset.mem_range.1 hc
  rw [List.getD_eq_getElem _ _ (by rwa [List.length_range]),List.getElem_range]

end GaussJordan

end MfskCore.Library
