import MfskCore.Library.Echelon
import MfskCore.Library.LeastSquares
import MfskCore.Library.LoopSum
import MfskCore.Uvpacket.Modem

/-! The equalizer of uvpacket (`uvpacket/rx.rs`): a filter of nine taps that is trained on the preamble. -/
namespace MfskCore.Uvpacket
open Rust Library

def EQ_N_TAPS : Nat := 9
def EQ_TAP_HALF : Nat := EQ_N_TAPS / 2

section Definitions
variable {F : Type} [F32Trig F]

def EQ_LS_DIAG_LOAD : F := 1e-2

/-- The symbols under the taps. -/
def tapWindow (symbols : List (Complex32 F)) (k : Nat) : Option (List (Complex32 F)) :=
  (List.range EQ_N_TAPS).mapM fun n => symbols[k + n - EQ_TAP_HALF]?

structure Correlations (F : Type) where
  rMat : List (List (Complex32 F))
  pVec : List (Complex32 F)

def Correlations.add (st : Correlations F) (x : List (Complex32 F)) (d : Complex32 F) : Correlations F where
  rMat := List.zipWith (fun row xi => List.zipWith (fun rij xj => rij.add (xi.conj.mul xj)) row x) st.rMat x
  pVec := List.zipWith (fun pi xi => pi.add (xi.conj.mul d)) st.pVec x

def Correlations.empty : Correlations F :=
  ⟨List.replicate EQ_N_TAPS (List.replicate EQ_N_TAPS .zero),List.replicate EQ_N_TAPS .zero⟩

def correlations (symbols : List (Complex32 F)) (preambleBits : List Bool) : Option (Correlations F) :=
  (List.range' EQ_TAP_HALF (preambleBits.length - EQ_TAP_HALF - EQ_TAP_HALF)).foldlM (fun st k =>
    (preambleBits[k]?).bind fun b => (tapWindow symbols k).map fun x => st.add x (chip b)) .empty

/-- A cell of the nine rows; every index that is used is in range. -/
def cell (aug : List (List (Complex32 F))) (r c : Nat) : Complex32 F := (aug.getD r []).getD c .zero

def diagonalLoad (rMat : List (List (Complex32 F))) : F :=
  EQ_LS_DIAG_LOAD * (List.range EQ_N_TAPS).foldl (fun trace i => trace + (cell rMat i i).re) 0.0 / ofUsize EQ_N_TAPS

/-- The loaded matrix with the right side as its last column. -/
def augmented (st : Correlations F) : List (List (Complex32 F)) :=
  (List.range EQ_N_TAPS).map fun i => (List.range (EQ_N_TAPS + 1)).map fun j =>
    if j = EQ_N_TAPS then st.pVec.getD i .zero
    else if j = i then (cell st.rMat i i).add ⟨diagonalLoad st.rMat,0.0⟩
    else cell st.rMat i j

/-- The row with the largest entry of the column, from the diagonal down. -/
def pivotRow (aug : List (List (Complex32 F))) (i : Nat) : Nat :=
  ((List.range' (i + 1) (EQ_N_TAPS - (i + 1))).foldl (fun (s : Nat × F) r =>
    if (cell aug r i).norm > s.2 then (r,(cell aug r i).norm) else s) (i,(cell aug i i).norm)).1

def swapRows (aug : List (List (Complex32 F))) (i piv : Nat) : List (List (Complex32 F)) :=
  if piv ≠ i then swapCells [] aug i piv else aug

def dividedCells (i : Nat) (row : List (Complex32 F)) : List (Complex32 F) :=
  row.mapIdx fun j v => if i ≤ j then v.div (row.getD i .zero) else v

def reducedCells (i : Nat) (pivotCells row : List (Complex32 F)) : List (Complex32 F) :=
  row.mapIdx fun j v => if i ≤ j then v.sub ((row.getD i .zero).mul (pivotCells.getD j .zero)) else v

/-- One pass of the elimination, unless the pivot is too small. -/
def eliminate (aug : List (List (Complex32 F))) (i : Nat) : Option (List (List (Complex32 F))) :=
  let aug := swapRows aug i (pivotRow aug i)
  if (cell aug i i).norm < 1e-12 then none
  else
    let pivotCells := dividedCells i (aug.getD i [])
    some (aug.mapIdx fun r row => if r = i then pivotCells else reducedCells i pivotCells row)

def identityEqualiser : List (Complex32 F) := (List.replicate EQ_N_TAPS .zero).set EQ_TAP_HALF ⟨1.0,0.0⟩

def trainLsEqualiser (symbols : List (Complex32 F)) (preambleBits : List Bool) : Option (List (Complex32 F)) :=
  (correlations symbols preambleBits).map fun st =>
    match (List.range EQ_N_TAPS).foldlM eliminate (augmented st) with
    | none => identityEqualiser
    | some aug => (List.range EQ_N_TAPS).map fun i => cell aug i EQ_N_TAPS

end Definitions

section Elimination
variable {aug : List (List (Complex32 Real))} {i : Nat}

/-- The complex numbers in the cells. -/
noncomputable def entries (aug : List (List (Complex32 Real))) : Nat → Nat → ℂ := fun r c => toComplex (cell aug r c)

/-- Nine rows of ten cells. -/
structure Shape (aug : List (List (Complex32 Real))) : Prop where
  rows : aug.length = EQ_N_TAPS
  cells : ∀ r < EQ_N_TAPS, (aug.getD r []).length = EQ_N_TAPS + 1

theorem entries_of_le {r : Nat} (h : Shape aug) (hr : EQ_N_TAPS ≤ r) (c : Nat) : entries aug r c = 0 := by
  rw [entries,cell,List.getD_eq_default aug [] (h.rows.symm ▸ hr)]
  exact toComplex_zero

/-- The pivot is one of the rows that are left, and no entry below the diagonal is larger. -/
theorem pivotRow_spec (aug : List (List (Complex32 Real))) (hi : i < EQ_N_TAPS) :
    i ≤ pivotRow aug i ∧ pivotRow aug i < EQ_N_TAPS ∧
      ∀ r, i ≤ r → r < EQ_N_TAPS → (cell aug r i).norm ≤ (cell aug (pivotRow aug i) i).norm := by
  let best := fun m => (List.range' (i + 1) m).foldl (fun (s : Nat × Real) r =>
    if (cell aug r i).norm > s.2 then (r,(cell aug r i).norm) else s) (i,(cell aug i i).norm)
  have hrun : ∀ m, i ≤ (best m).1 ∧ (best m).1 < i + 1 + m ∧ (best m).2 = (cell aug (best m).1 i).norm ∧
      ∀ r, i ≤ r → r < i + 1 + m → (cell aug r i).norm ≤ (best m).2 := by
    intro m
    induction m with
    | zero =>
      refine ⟨le_refl i,Nat.lt_succ_self i,rfl,fun r hle hlt => ?_⟩
      obtain rfl : r = i := by omega
      exact le_refl _
    | succ m ih =>
      obtain ⟨hle,hlt,hnorm,hmax⟩ := ih
      have hstep : best (m + 1) = if (cell aug (i + 1 + m) i).norm > (best m).2 then
          (i + 1 + m,(cell aug (i + 1 + m) i).norm) else best m := by
        show (List.range' (i + 1) (m + 1)).foldl _ _ = _
        rw [List.range'_1_concat,List.foldl_append]
        rfl
      rw [hstep]
      split
      · rename_i hgt
        refine ⟨by dsimp only; omega,by dsimp only; omega,rfl,fun r hlo hhi => ?_⟩
        rcases Nat.lt_succ_iff_lt_or_eq.1 hhi with hr | rfl
        · exact (hmax r hlo hr).trans hgt.le
        · exact le_refl _
      · rename_i hgt
        refine ⟨hle,by omega,hnorm,fun r hlo hhi => ?_⟩
        rcases Nat.lt_succ_iff_lt_or_eq.1 hhi with hr | rfl
        · exact hmax r hlo hr
        · exact not_lt.1 hgt
  obtain ⟨hle,hlt,hnorm,hmax⟩ := hrun (EQ_N_TAPS - (i + 1))
  have hpivot : pivotRow aug i = (best (EQ_N_TAPS - (i + 1))).1 := rfl
  rw [hpivot,← hnorm]
  exact ⟨hle,by omega,fun r hlo hhi => hmax r hlo (by omega)⟩

theorem getD_swapRows (h : Shape aug) (hi : i < EQ_N_TAPS) {piv : Nat} (hpiv : piv < EQ_N_TAPS) (r : Nat) :
    (swapRows aug i piv).getD r [] = aug.getD (Equiv.swap i piv r) [] := by
  have hlen := h.rows
  rw [swapRows]
  split
  · exact getD_swapCells (by omega) (by omega) r
  · rename_i heq
    rw [not_not.1 heq,Equiv.swap_self]
    rfl

theorem Shape.swapRows (h : Shape aug) (hi : i < EQ_N_TAPS) {piv : Nat} (hpiv : piv < EQ_N_TAPS) :
    Shape (swapRows aug i piv) := by
  refine ⟨?_,fun r hr => ?_⟩
  · rw [Uvpacket.swapRows]
    split
    · rw [length_swapCells,h.rows]
    · exact h.rows
  · rw [getD_swapRows h hi hpiv]
    refine h.cells _ ?_
    rw [Equiv.swap_apply_def]
    split
    · exact hpiv
    split
    · exact hi
    · exact hr

/-- A row that was divided by its entry in the column, where it is clear before the column. -/
theorem toComplex_dividedCells {row : List (Complex32 Real)} (hlen : row.length = EQ_N_TAPS + 1)
    (hclear : ∀ c < i, toComplex (row.getD c .zero) = 0) (c : Nat) :
    toComplex ((dividedCells i row).getD c .zero) = toComplex (row.getD c .zero) / toComplex (row.getD i .zero) := by
  by_cases hc : c < row.length
  · rw [dividedCells,getD_mapIdx_of_lt _ hc .zero]
    split
    · exact toComplex_div _ _
    · rw [hclear c (by omega),zero_div]
  · rw [List.getD_eq_default row _ (Nat.not_lt.1 hc),List.getD_eq_default _ _ (by rw [dividedCells,List.length_mapIdx]; omega),
      toComplex_zero,zero_div]

theorem toComplex_reducedCells {pivotCells row : List (Complex32 Real)} (hlen : row.length = EQ_N_TAPS + 1)
    (hpivot : pivotCells.length = EQ_N_TAPS + 1) (hclear : ∀ c < i, toComplex (pivotCells.getD c .zero) = 0) (c : Nat) :
    toComplex ((reducedCells i pivotCells row).getD c .zero) =
      toComplex (row.getD c .zero) - toComplex (row.getD i .zero) * toComplex (pivotCells.getD c .zero) := by
  by_cases hc : c < row.length
  · rw [reducedCells,getD_mapIdx_of_lt _ hc .zero]
    split
    · exact toComplex_sub _ _
    · rw [hclear c (by omega),mul_zero,sub_zero]
  · rw [List.getD_eq_default row _ (Nat.not_lt.1 hc),List.getD_eq_default _ _ (by rw [reducedCells,List.length_mapIdx]; omega),
      List.getD_eq_default pivotCells _ (by omega),toComplex_zero,mul_zero,sub_zero]

/-- What one pass leaves: the column is cleared with the pivot, which was not zero. -/
theorem eliminate_spec (h : Shape aug) (hi : i < EQ_N_TAPS)
    (hcleared : ∀ r, i ≤ r → r < EQ_N_TAPS → ∀ c < i, entries aug r c = 0) {aug' : List (List (Complex32 Real))}
    (hpass : eliminate aug i = some aug') : Shape aug' ∧ entries aug (pivotRow aug i) i ≠ 0 ∧
      entries aug' = clearColumn (entries aug) i (pivotRow aug i) := by
  obtain ⟨hle,hlt,-⟩ := pivotRow_spec aug hi
  rw [eliminate] at hpass
  generalize pivotRow aug i = p at *
  have hswapped := h.swapRows hi hlt
  have hrow := getD_swapRows h hi hlt
  have hupper : (swapRows aug i p).getD i [] = aug.getD p [] := by rw [hrow,Equiv.swap_apply_left]
  have hbefore : ∀ c < i, toComplex ((aug.getD p []).getD c .zero) = 0 := hcleared p hle hlt
  have hpivotCells := toComplex_dividedCells (h.cells p hlt) hbefore
  have hpivotLen : (dividedCells i (aug.getD p [])).length = EQ_N_TAPS + 1 := List.length_mapIdx.trans (h.cells p hlt)
  dsimp only at hpass
  rw [cell,hupper] at hpass
  split at hpass
  · exact absurd hpass (by simp)
  rename_i hnorm
  obtain rfl := Option.some.inj hpass
  have hget : ∀ r < EQ_N_TAPS, ((swapRows aug i p).mapIdx fun r row =>
      if r = i then dividedCells i (aug.getD p []) else reducedCells i (dividedCells i (aug.getD p [])) row).getD r [] =
      if r = i then dividedCells i (aug.getD p [])
      else reducedCells i (dividedCells i (aug.getD p [])) (aug.getD (Equiv.swap i p r) []) := by
    intro r hr
    rw [getD_mapIdx_of_lt _ (by rw [hswapped.rows]; exact hr) [],hrow]
  have hshape : Shape ((swapRows aug i p).mapIdx fun r row =>
      if r = i then dividedCells i (aug.getD p []) else reducedCells i (dividedCells i (aug.getD p [])) row) := by
    refine ⟨List.length_mapIdx.trans hswapped.rows,fun r hr => ?_⟩
    rw [hget r hr]
    split
    · exact hpivotLen
    · rw [reducedCells,List.length_mapIdx,← hrow]
      exact hswapped.cells r hr
  refine ⟨hshape,fun hzero => hnorm ?_,?_⟩
  · rw [norm_eq]
    replace hzero : toComplex ((aug.getD p []).getD i .zero) = 0 := hzero
    rw [hzero,norm_zero]
    norm_num
  · funext r c
    rw [clearColumn]
    by_cases hr : r < EQ_N_TAPS
    · rw [entries,cell,hget r hr]
      split
      · exact hpivotCells c
      · have hother : (aug.getD (Equiv.swap i p r) []).length = EQ_N_TAPS + 1 := by
          rw [← hrow]
          exact hswapped.cells r hr
        have hreduced := toComplex_reducedCells hother hpivotLen
          (fun c hc => by rw [hpivotCells,hbefore c hc,zero_div]) c
        rw [hreduced,hpivotCells]
        rfl
    · have hne : r ≠ i ∧ r ≠ p := by omega
      rw [entries_of_le hshape (Nat.not_lt.1 hr),if_neg hne.1,Equiv.swap_apply_of_ne_of_ne hne.1 hne.2,
        entries_of_le h (Nat.not_lt.1 hr),entries_of_le h (Nat.not_lt.1 hr),zero_mul,sub_zero]

/-- After some passes as many columns are unit columns, and the equations have the same solutions. -/
theorem eliminate_run (h : Shape aug) {m : Nat} (hm : m ≤ EQ_N_TAPS) {aug' : List (List (Complex32 Real))}
    (hrun : (List.range m).foldlM eliminate aug = some aug') : Shape aug' ∧
      Echelon EQ_N_TAPS (entries aug') (List.range m) m ∧
      rowSpace EQ_N_TAPS (entries aug') = rowSpace EQ_N_TAPS (entries aug) := by
  induction m generalizing aug' with
  | zero =>
    obtain rfl := Option.some.inj hrun
    exact ⟨h,echelon_start _ _,rfl⟩
  | succ m ih =>
    rw [foldlM_range_succ] at hrun
    obtain ⟨before,hbefore,hpass⟩ := Option.bind_eq_some_iff.1 hrun
    obtain ⟨hshape,hechelon,hspace⟩ := ih (Nat.le_of_succ_le hm) hbefore
    have hm : m < EQ_N_TAPS := hm
    obtain ⟨hle,hlt,-⟩ := pivotRow_spec before hm
    have hclear := hechelon.clear
    rw [List.length_range] at hclear
    obtain ⟨hshape',hpivot,hentries⟩ := eliminate_spec hshape hm (fun r hr hrN => hclear r hrN hr) hpass
    rw [hentries]
    exact ⟨hshape',hechelon.clearColumn hle hlt hpivot,(rowSpace_clearColumn hm hlt hpivot).trans hspace⟩

/-- The elimination solves its equations, or stops at a column in which all that is left is too small. -/
theorem elimination_solves (h : Shape aug) :
    (∃ i < EQ_N_TAPS, ∃ left, (List.range i).foldlM eliminate aug = some left ∧
      (List.range EQ_N_TAPS).foldlM eliminate aug = none ∧
      ∀ r, i ≤ r → r < EQ_N_TAPS → (cell left r i).norm < 1e-12) ∨
    ∃ solved, (List.range EQ_N_TAPS).foldlM eliminate aug = some solved ∧
      ∀ r < EQ_N_TAPS, ∑ c ∈ Finset.range EQ_N_TAPS, entries aug r c * entries solved c EQ_N_TAPS =
        entries aug r EQ_N_TAPS := by
  have hstops : ∀ m ≤ EQ_N_TAPS, (List.range m).foldlM eliminate aug = none →
      ∃ i < EQ_N_TAPS, ∃ left, (List.range i).foldlM eliminate aug = some left ∧ eliminate left i = none := by
    intro m hm hnone
    induction m with
    | zero => exact absurd hnone (by simp)
    | succ m ih =>
      rw [foldlM_range_succ] at hnone
      cases hbefore : (List.range m).foldlM eliminate aug with
      | none => exact ih (Nat.le_of_succ_le hm) hbefore
      | some left =>
        rw [hbefore] at hnone
        exact ⟨m,hm,left,hbefore,hnone⟩
  cases hrun : (List.range EQ_N_TAPS).foldlM eliminate aug with
  | none =>
    obtain ⟨i,hi,left,hleft,hpass⟩ := hstops _ (le_refl _) hrun
    refine .inl ⟨i,hi,left,hleft,rfl,fun r hlo hhi => ?_⟩
    obtain ⟨hle,hlt,hmax⟩ := pivotRow_spec left hi
    obtain ⟨hshape,-,-⟩ := eliminate_run h hi.le hleft
    rw [eliminate] at hpass
    dsimp only at hpass
    split at hpass
    · rename_i hsmall
      rw [cell,getD_swapRows hshape hi hlt,Equiv.swap_apply_left] at hsmall
      exact (hmax r hlo hhi).trans_lt hsmall
    · exact absurd hpass (by simp)
  | some solved =>
    obtain ⟨-,hechelon,hspace⟩ := eliminate_run h (le_refl _) hrun
    exact .inr ⟨solved,rfl,fun r hr => hechelon.solves hspace hr⟩

end Elimination

section Training
variable {symbols : List (Complex32 Real)} {preambleBits : List Bool}

/-- The symbol under a tap, counted from the first symbol that all taps reach. -/
noncomputable def tapped (symbols : List (Complex32 Real)) (k n : Nat) : ℂ := toComplex (symbols.getD (k + n) .zero)

/-- The chip that the taps are to give. -/
noncomputable def wanted (preambleBits : List Bool) (k : Nat) : ℂ :=
  toComplex (chip (preambleBits.getD (EQ_TAP_HALF + k) false))

/-- Sums over the first `m` places of the taps. -/
structure Summed (symbols : List (Complex32 Real)) (preambleBits : List Bool) (m : Nat) (st : Correlations Real) : Prop where
  rows : st.rMat.length = EQ_N_TAPS
  cells : ∀ i < EQ_N_TAPS, (st.rMat.getD i []).length = EQ_N_TAPS
  right : st.pVec.length = EQ_N_TAPS
  products : ∀ i < EQ_N_TAPS, ∀ j < EQ_N_TAPS, toComplex (cell st.rMat i j) =
    ∑ k ∈ Finset.range m, starRingEnd ℂ (tapped symbols k i) * tapped symbols k j
  chips : ∀ i < EQ_N_TAPS, toComplex (st.pVec.getD i .zero) =
    ∑ k ∈ Finset.range m, starRingEnd ℂ (tapped symbols k i) * wanted preambleBits k

theorem getD_zipWith {α β γ : Type} (f : α → β → γ) {l : List α} {l' : List β} {i : Nat} (h : i < l.length)
    (h' : i < l'.length) (a : α) (b : β) (c : γ) : (List.zipWith f l l').getD i c = f (l.getD i a) (l'.getD i b) := by
  rw [List.getD_eq_getElem _ _ (by rw [List.length_zipWith]; omega),List.getElem_zipWith,List.getD_eq_getElem _ _ h,
    List.getD_eq_getElem _ _ h']

theorem Summed.add {m : Nat} {st : Correlations Real} (h : Summed symbols preambleBits m st)
    {x : List (Complex32 Real)} (hx : x.length = EQ_N_TAPS)
    (htaps : ∀ n < EQ_N_TAPS, toComplex (x.getD n .zero) = tapped symbols m n)
    {d : Complex32 Real} (hd : toComplex d = wanted preambleBits m) : Summed symbols preambleBits (m + 1) (st.add x d) := by
  have hrow : ∀ i < EQ_N_TAPS, (st.add x d).rMat.getD i [] =
      List.zipWith (fun rij xj => rij.add ((x.getD i .zero).conj.mul xj)) (st.rMat.getD i []) x := by
    intro i hi
    rw [Correlations.add,getD_zipWith _ (h.rows.symm ▸ hi) (hx.symm ▸ hi) [] .zero []]
  refine ⟨?_,fun i hi => ?_,?_,fun i hi j hj => ?_,fun i hi => ?_⟩
  · rw [Correlations.add,List.length_zipWith,h.rows,hx,Nat.min_self]
  · rw [hrow i hi,List.length_zipWith,h.cells i hi,hx,Nat.min_self]
  · rw [Correlations.add,List.length_zipWith,h.right,hx,Nat.min_self]
  · rw [cell,hrow i hi,getD_zipWith _ ((h.cells i hi).symm ▸ hj) (hx.symm ▸ hj) .zero .zero,toComplex_add,toComplex_mul,
      toComplex_conj,htaps i hi,htaps j hj,Finset.sum_range_succ,← h.products i hi j hj]
    rfl
  · rw [Correlations.add,getD_zipWith _ (h.right.symm ▸ hi) (hx.symm ▸ hi) .zero .zero,toComplex_add,toComplex_mul,
      toComplex_conj,htaps i hi,hd,Finset.sum_range_succ,← h.chips i hi]

theorem summed_empty : Summed symbols preambleBits 0 Correlations.empty := by
  have hrow : ∀ i < EQ_N_TAPS, (Correlations.empty : Correlations Real).rMat.getD i [] =
      List.replicate EQ_N_TAPS Complex32.zero := by
    intro i hi
    rw [Correlations.empty,List.getD_eq_getElem _ _ (by rwa [List.length_replicate]),List.getElem_replicate]
  have hzero : ∀ i < EQ_N_TAPS, (List.replicate EQ_N_TAPS (Complex32.zero : Complex32 Real)).getD i .zero = .zero := by
    intro i hi
    rw [List.getD_eq_getElem _ _ (by rwa [List.length_replicate]),List.getElem_replicate]
  refine ⟨List.length_replicate,fun i hi => ?_,List.length_replicate,fun i hi j hj => ?_,fun i hi => ?_⟩
  · rw [hrow i hi,List.length_replicate]
  · rw [cell,hrow i hi,hzero j hj,toComplex_zero,Finset.sum_range_zero]
  · rw [Correlations.empty,hzero i hi,toComplex_zero,Finset.sum_range_zero]

/-- The sums of the training, none of whose reads is out of range. -/
theorem correlations_run (hlen : preambleBits.length ≤ symbols.length) : ∃ st, correlations symbols preambleBits = some st ∧
    Summed symbols preambleBits (preambleBits.length - EQ_TAP_HALF - EQ_TAP_HALF) st := by
  have hrun : ∀ m, m ≤ preambleBits.length - EQ_TAP_HALF - EQ_TAP_HALF → ∃ st,
      (List.range' EQ_TAP_HALF m).foldlM (fun (st : Correlations Real) k => (preambleBits[k]?).bind fun b =>
        (tapWindow symbols k).map fun x => st.add x (chip b)) Correlations.empty = some st ∧
      Summed symbols preambleBits m st := by
    intro m hm
    induction m with
    | zero => exact ⟨_,rfl,summed_empty⟩
    | succ m ih =>
      obtain ⟨st,hst,hsummed⟩ := ih (Nat.le_of_succ_le hm)
      have hhalf : EQ_TAP_HALF = 4 := rfl
      have hmany : EQ_N_TAPS = 9 := rfl
      have hin : EQ_TAP_HALF + m < preambleBits.length := by omega
      have hwindow : tapWindow symbols (EQ_TAP_HALF + m) =
          some ((List.range EQ_N_TAPS).map fun n => symbols.getD (m + n) Complex32.zero) := by
        refine mapM_eq_some fun n hn => ?_
        have hn := List.mem_range.1 hn
        have hplace : EQ_TAP_HALF + m + n - EQ_TAP_HALF = m + n := by omega
        rw [hplace]
        exact getElem?_eq_some_getD (by omega) Complex32.zero
      refine ⟨st.add ((List.range EQ_N_TAPS).map fun n => symbols.getD (m + n) Complex32.zero)
        (chip (preambleBits.getD (EQ_TAP_HALF + m) false)),?_,
        hsummed.add (by rw [List.length_map,List.length_range]) (fun n hn => ?_) rfl⟩
      · rw [List.range'_1_concat,List.foldlM_append,hst,Option.bind_eq_bind,Option.bind_some,List.foldlM_cons,
          getElem?_eq_some_getD hin false,Option.bind_some,hwindow]
        rfl
      · rw [getD_map_range _ _ hn]
        rfl
  exact hrun _ (Nat.le_refl _)

/-- A hundredth of the mean energy under the taps. -/
noncomputable def trainingLoad (symbols : List (Complex32 Real)) (preambleBits : List Bool) : Real :=
  1e-2 * (∑ i ∈ Finset.range EQ_N_TAPS, ∑ k ∈ Finset.range (preambleBits.length - EQ_TAP_HALF - EQ_TAP_HALF),
    Complex.normSq (tapped symbols k i)) / EQ_N_TAPS

/-- The squared distance from the preamble of what the weights make of the symbols, with a penalty on large weights. -/
noncomputable def trainingCost (symbols : List (Complex32 Real)) (preambleBits : List Bool) (w : Nat → ℂ) : Real :=
  ridgeCost (Finset.range (preambleBits.length - EQ_TAP_HALF - EQ_TAP_HALF)) (Finset.range EQ_N_TAPS) (tapped symbols)
    (wanted preambleBits) (trainingLoad symbols preambleBits) w

theorem trainingLoad_nonneg (symbols : List (Complex32 Real)) (preambleBits : List Bool) :
    0 ≤ trainingLoad symbols preambleBits :=
  div_nonneg (mul_nonneg (by norm_num) (Finset.sum_nonneg fun i _ => Finset.sum_nonneg fun k _ => Complex.normSq_nonneg _))
    (Nat.cast_nonneg _)

variable {st : Correlations Real}

theorem Summed.diagonalLoad_eq
    (h : Summed symbols preambleBits (preambleBits.length - EQ_TAP_HALF - EQ_TAP_HALF) st) :
    diagonalLoad st.rMat = trainingLoad symbols preambleBits := by
  have hdiagonal : ∀ i ∈ Finset.range EQ_N_TAPS, (cell st.rMat i i).re =
      ∑ k ∈ Finset.range (preambleBits.length - EQ_TAP_HALF - EQ_TAP_HALF), Complex.normSq (tapped symbols k i) := by
    intro i hi
    have hi := Finset.mem_range.1 hi
    have hre := congrArg Complex.re (h.products i hi i hi)
    rw [Complex.re_sum] at hre
    refine hre.trans (Finset.sum_congr rfl fun k _ => ?_)
    rw [← Complex.normSq_eq_conj_mul_self,Complex.ofReal_re]
  have htrace : (List.range EQ_N_TAPS).foldl (fun t i => t + (cell st.rMat i i).re) (0.0 : Real) =
      ∑ i ∈ Finset.range EQ_N_TAPS, (cell st.rMat i i).re := by
    rw [zero_literal,foldl_add_range,zero_add]
  rw [diagonalLoad,trainingLoad,← Finset.sum_congr rfl hdiagonal,← htrace,ofUsize_eq]
  rfl

/-- The equations that are eliminated. -/
theorem Summed.entries_augmented
    (h : Summed symbols preambleBits (preambleBits.length - EQ_TAP_HALF - EQ_TAP_HALF) st) :
    Shape (augmented st) ∧ ∀ r < EQ_N_TAPS,
      entries (augmented st) r EQ_N_TAPS = toComplex (st.pVec.getD r .zero) ∧
      ∀ c < EQ_N_TAPS, entries (augmented st) r c =
        toComplex (cell st.rMat r c) + if c = r then (trainingLoad symbols preambleBits : ℂ) else 0 := by
  have hrow : ∀ r < EQ_N_TAPS, (augmented st).getD r [] = (List.range (EQ_N_TAPS + 1)).map fun j =>
      if j = EQ_N_TAPS then st.pVec.getD r .zero
      else if j = r then (cell st.rMat r r).add ⟨diagonalLoad st.rMat,0.0⟩ else cell st.rMat r j :=
    fun r hr => getD_map_range _ _ hr
  refine ⟨⟨by rw [augmented,List.length_map,List.length_range],fun r hr => ?_⟩,fun r hr => ⟨?_,fun c hc => ?_⟩⟩
  · rw [hrow r hr,List.length_map,List.length_range]
  · rw [entries,cell,hrow r hr,getD_map_range _ _ (Nat.lt_succ_self _),if_pos rfl]
  · rw [entries,cell,hrow r hr,getD_map_range _ _ (Nat.lt_succ_of_lt hc),if_neg hc.ne]
    split
    · subst c
      rw [toComplex_add,h.diagonalLoad_eq]
      exact congrArg _ (Complex.ext rfl zero_literal)
    · rw [add_zero]

/-- What solves the eliminated equations solves the normal equations. -/
theorem Summed.normalEquations
    (h : Summed symbols preambleBits (preambleBits.length - EQ_TAP_HALF - EQ_TAP_HALF) st) {w : Nat → ℂ}
    (hsolves : ∀ r < EQ_N_TAPS, ∑ c ∈ Finset.range EQ_N_TAPS, entries (augmented st) r c * w c =
      entries (augmented st) r EQ_N_TAPS) :
    NormalEquations (Finset.range (preambleBits.length - EQ_TAP_HALF - EQ_TAP_HALF)) (Finset.range EQ_N_TAPS)
      (tapped symbols) (wanted preambleBits) (trainingLoad symbols preambleBits) w := by
  obtain ⟨-,hentries⟩ := h.entries_augmented
  intro r hr
  have hrN := Finset.mem_range.1 hr
  obtain ⟨hright,hcells⟩ := hentries r hrN
  have hsum := hsolves r hrN
  rw [hright,h.chips r hrN] at hsum
  rw [← hsum]
  have hterm : ∀ c ∈ Finset.range EQ_N_TAPS, entries (augmented st) r c * w c =
      ∑ k ∈ Finset.range (preambleBits.length - EQ_TAP_HALF - EQ_TAP_HALF),
        starRingEnd ℂ (tapped symbols k r) * (w c * tapped symbols k c) +
        if c = r then (trainingLoad symbols preambleBits : ℂ) * w c else 0 := by
    intro c hc
    have hc := Finset.mem_range.1 hc
    rw [hcells c hc,h.products r hrN c hc,add_mul,Finset.sum_mul,ite_mul,zero_mul]
    refine congrArg (· + _) (Finset.sum_congr rfl fun k _ => ?_)
    ring
  rw [Finset.sum_congr rfl hterm,Finset.sum_add_distrib,Finset.sum_comm,Finset.sum_ite_eq' _ r,if_pos hr]
  simp only [Finset.mul_sum]

/-- In exact arithmetic the training reads no symbol out of range, and gives the weights of least cost; it falls back to passing
the symbols on only at a column in which no pivot that is left reaches the smallest one. -/
theorem equaliser_least_squares (symbols : List (Complex32 Real)) (preambleBits : List Bool)
    (hlen : preambleBits.length ≤ symbols.length) : ∃ weights, trainLsEqualiser symbols preambleBits = some weights ∧
      weights.length = EQ_N_TAPS ∧
      ((∀ v, trainingCost symbols preambleBits (fun n => toComplex (weights.getD n .zero)) ≤
          trainingCost symbols preambleBits v) ∨
        weights = identityEqualiser ∧ ∃ st, correlations symbols preambleBits = some st ∧ ∃ i < EQ_N_TAPS, ∃ left,
          (List.range i).foldlM eliminate (augmented st) = some left ∧
          ∀ r, i ≤ r → r < EQ_N_TAPS → (cell left r i).norm < 1e-12) := by
  obtain ⟨st,hst,hsummed⟩ := correlations_run hlen
  obtain ⟨hshape,-⟩ := hsummed.entries_augmented
  rw [trainLsEqualiser,hst,Option.map_some]
  refine ⟨_,rfl,?_⟩
  rcases elimination_solves hshape with ⟨i,hi,left,hleft,hnone,hsmall⟩ | ⟨solved,hsolved,hsolves⟩
  · rw [hnone]
    exact ⟨rfl,.inr ⟨rfl,st,rfl,i,hi,left,hleft,hsmall⟩⟩
  · rw [hsolved]
    refine ⟨by rw [List.length_map,List.length_range],.inl fun v => ?_⟩
    have hweights : ∀ c < EQ_N_TAPS, entries solved c EQ_N_TAPS =
        toComplex (((List.range EQ_N_TAPS).map fun i => cell solved i EQ_N_TAPS).getD c .zero) := by
      intro c hc
      rw [getD_map_range _ _ hc]
      rfl
    refine (hsummed.normalEquations fun r hr => ?_).minimal (trainingLoad_nonneg _ _) v
    rw [← hsolves r hr]
    exact Finset.sum_congr rfl fun c hc => by rw [hweights c (Finset.mem_range.1 hc)]

theorem equaliser_least_squares_chips : ∃ weights : List (Complex32 Real),
    trainLsEqualiser ((preambleFor .Robust).map chip) (preambleFor .Robust) = some weights ∧ weights.length = EQ_N_TAPS ∧
    ((∀ v, trainingCost ((preambleFor .Robust).map chip) (preambleFor .Robust) (fun n => toComplex (weights.getD n .zero)) ≤
      trainingCost ((preambleFor .Robust).map chip) (preambleFor .Robust) v) ∨ weights = identityEqualiser) := by
  obtain ⟨weights,hweights,hlen,hcost⟩ :=
    equaliser_least_squares ((preambleFor .Robust).map chip) (preambleFor .Robust) (List.length_map _).ge
  exact ⟨weights,hweights,hlen,hcost.imp_right And.left⟩

end Training

end MfskCore.Uvpacket
