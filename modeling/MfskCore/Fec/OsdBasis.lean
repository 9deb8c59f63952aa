import MfskCore.Fec.LdpcCode
import MfskCore.Fec.Osd
import MfskCore.Library.Echelon
import Mathlib.Algebra.Field.ZMod

/-! The elimination of ordered-statistics decoding: its pivots are the greedy basis of the generator's
columns in the order of reliability, and its rows still span the code. -/
namespace MfskCore.Fec
open Rust Library BitRow

/-- The generator over the field of two elements. -/
def LdpcParams.generatorMatrix (P : LdpcParams) (row j : Nat) : ZMod 2 := gf2 (P.generator row j)

section Rows
variable {rows : List BitRow} {w : Nat}

theorem length_swapRows (rows : List BitRow) (a b : Nat) : (swapRows rows a b).length = rows.length := by
  simp [swapRows]

theorem length_clearColumn (rows : List BitRow) (p col : Nat) :
    (clearColumn rows p col).length = rows.length := by
  simp [clearColumn]

theorem swap_lt {a b i n : Nat} (ha : a < n) (hb : b < n) (hi : i < n) : Equiv.swap a b i < n := by
  rw [Equiv.swap_apply_def]
  split
  · exact hb
  · split
    · exact ha
    · exact hi

theorem getD_swapRows {a b : Nat} (ha : a < rows.length) (hb : b < rows.length) (i : Nat) :
    (swapRows rows a b).getD i [] = rows.getD (Equiv.swap a b i) [] := by
  unfold swapRows
  rw [List.getD_eq_getElem?_getD,List.getElem?_set,List.length_set,List.getElem?_set]
  by_cases hib : i = b
  · rw [if_pos hib.symm,if_pos hb,hib,Equiv.swap_apply_right]
    rfl
  · rw [if_neg (Ne.symm hib)]
    by_cases hia : i = a
    · rw [if_pos hia.symm,if_pos ha,hia,Equiv.swap_apply_left]
      rfl
    · rw [if_neg (Ne.symm hia),Equiv.swap_apply_of_ne_of_ne hia hib,← List.getD_eq_getElem?_getD]

theorem getD_clearColumn {p col i : Nat} (hi : i < rows.length) :
    (clearColumn rows p col).getD i [] =
      if i ≠ p ∧ (rows.getD i []).bit col then (rows.getD i []).xor (rows.getD p []) else rows.getD i [] := by
  unfold clearColumn
  rw [List.getD_eq_getElem?_getD,List.getElem?_mapIdx,List.getElem?_eq_getElem hi,Option.map_some,
    Option.getD_some,← List.getD_eq_getElem rows [] hi]

/-- All rows have `w` words. -/
def Uniform (w : Nat) (rows : List BitRow) : Prop := ∀ i < rows.length, (rows.getD i []).length = w

theorem Uniform.swapRows (h : Uniform w rows) {a b : Nat} (ha : a < rows.length) (hb : b < rows.length) :
    Uniform w (swapRows rows a b) := by
  intro i hi
  rw [length_swapRows] at hi
  rw [getD_swapRows ha hb]
  exact h _ (swap_lt ha hb hi)

theorem Uniform.clearColumn (h : Uniform w rows) {p : Nat} (hp : p < rows.length) (col : Nat) :
    Uniform w (clearColumn rows p col) := by
  intro i hi
  rw [length_clearColumn] at hi
  rw [getD_clearColumn hi]
  split
  · rw [length_xor,h i hi,h p hp,min_self]
  · exact h i hi

theorem matrix_clearColumn (h : Uniform w rows) {p col i : Nat} (hp : p < rows.length)
    (hi : i < rows.length) (c : Nat) :
    matrix (clearColumn rows p col) i c =
      matrix rows i c + (if i = p then 0 else matrix rows i col) * matrix rows p c := by
  unfold matrix
  rw [getD_clearColumn hi]
  by_cases hip : i = p
  · rw [if_neg (fun hcond => hcond.1 hip),if_pos hip,zero_mul,add_zero]
  · rw [if_neg hip]
    by_cases hbit : (rows.getD i []).bit col
    · rw [if_pos ⟨hip,hbit⟩,bit_xor ((h i hi).trans (h p hp).symm),gf2_xor,hbit,gf2_true,one_mul]
    · rw [if_neg (fun hcond => hbit hcond.2),Bool.not_eq_true] at *
      rw [hbit,gf2_false,zero_mul,add_zero]

end Rows

/-- The state of the elimination after the columns below `upto`. -/
structure Elimination.Good (k w : Nat) (A : Nat → Nat → ZMod 2) (upto : Nat) (s : Elimination) : Prop where
  length : s.rows.length = k
  uniform : Uniform w s.rows
  reduces : Reduces k A (matrix s.rows) s.pivotCol upto

/-- A row with the bit, brought to the next pivot row and cleared from the others. -/
private theorem good_pivot {k w upto r : Nat} {A : Nat → Nat → ZMod 2} {s : Elimination}
    (h : s.Good k w A upto) (hr : r < k) (hle : s.pivotCol.length ≤ r)
    (hbit : (s.rows.getD r []).bit upto = true) :
    Elimination.Good k w A (upto + 1)
      ⟨clearColumn (swapRows s.rows r s.pivotCol.length) s.pivotCol.length upto,s.pivotCol ++ [upto]⟩ := by
  let p := s.pivotCol.length
  have hp : p < k := lt_of_le_of_lt hle hr
  have hrRows : r < s.rows.length := h.length ▸ hr
  have hpRows : p < s.rows.length := h.length ▸ hp
  have huniform := h.uniform.swapRows hrRows hpRows
  have hpSwap : p < (swapRows s.rows r p).length := by rwa [length_swapRows]
  let B := matrix s.rows
  let C := matrix (clearColumn (swapRows s.rows r p) p upto)
  have hswap (i c : Nat) : matrix (swapRows s.rows r p) i c = B (Equiv.swap r p i) c := by
    simp only [matrix,B,getD_swapRows hrRows hpRows]
  have hentry (i : Nat) (hi : i < k) (c : Nat) :
      C i c = B (Equiv.swap r p i) c + (if i = p then 0 else B (Equiv.swap r p i) upto) * B r c := by
    have hclear := @matrix_clearColumn _ _ huniform p upto i hpSwap
      (show i < (swapRows s.rows r p).length by rw [length_swapRows,h.length]; exact hi) c
    rw [hswap,hswap,hswap,Equiv.swap_apply_right] at hclear
    exact hclear
  have hone : B r upto = 1 := by
    simp only [B,matrix,hbit,gf2_true]
  have hclear (i : Nat) (hi : i < k) (hpi : p ≤ i) (c : Nat) (hc : c < upto) : B i c = 0 :=
    h.reduces.echelon.clear i hi hpi c hc
  have hspace : rowSpace k C = rowSpace k B := by
    refine rowSpace_eq_of_step (σ := Equiv.swap r p) hp (fun i hi => swap_lt hr hp hi)
      (fun i _ => Equiv.swap_apply_self r p i) (fun i => if i = p then 0 else B (Equiv.swap r p i) upto) ?_ ?_
    · funext c
      rw [hentry p hp,if_pos rfl,zero_mul,add_zero]
    · intro i hi _
      funext c
      rw [hentry i hi,Equiv.swap_apply_right]
      rfl
  have hsame (i : Nat) (hi : i < k) (c : Nat) (hc : c < upto) : C i c = B i c := by
    rw [hentry i hi,hclear r hr hle c hc,mul_zero,add_zero,Equiv.swap_apply_def]
    split
    · rename_i hir
      rw [hir,hclear p hp (Nat.le_refl p) c hc,hclear r hr hle c hc]
    · split
      · rename_i hip
        rw [hip,hclear r hr hle c hc,hclear p hp (Nat.le_refl p) c hc]
      · rfl
  have hunit (i : Nat) (hi : i < k) : C i upto = if i = p then 1 else 0 := by
    rw [hentry i hi,hone,mul_one]
    split
    · rename_i hip
      rw [hip,Equiv.swap_apply_right,hone,add_zero]
    · exact CharTwo.add_self_eq_zero _
  refine ⟨?_,huniform.clearColumn hpSwap upto,?_⟩
  · rw [length_clearColumn,length_swapRows,h.length]
  · exact h.reduces.pivot hspace hsame hunit hr hle (by rw [show matrix s.rows r upto = 1 from hone]; exact one_ne_zero)

/-- One column of the elimination. -/
theorem good_eliminateColumn {k w upto : Nat} {A : Nat → Nat → ZMod 2} {s : Elimination}
    (h : s.Good k w A upto) : (eliminateColumn k s upto).Good k w A (upto + 1) := by
  unfold eliminateColumn
  dsimp only
  split
  · rename_i hfull
    exact { h with reduces := h.reduces.skip fun r hr hle => absurd hr (by omega) }
  · rename_i hfull
    split
    · rename_i hnone
      refine { h with reduces := h.reduces.skip fun r hr hle => ?_ }
      have hbit := List.find?_eq_none.mp hnone r (List.mem_range'_1.mpr ⟨hle,by omega⟩)
      rw [Bool.not_eq_true] at hbit
      rw [matrix,hbit,gf2_false]
    · rename_i r hsome
      have hmem := List.mem_range'_1.mp (List.mem_of_find?_eq_some hsome)
      exact good_pivot h (by omega) hmem.1 (by simpa using List.find?_some hsome)

theorem good_eliminate {k w : Nat} {A : Nat → Nat → ZMod 2} {s : Elimination} (h : s.Good k w A 0) (n : Nat) :
    ((List.range n).foldl (eliminateColumn k) s).Good k w A n := by
  induction n with
  | zero => exact h
  | succ n ih =>
    rw [List.range_succ,List.foldl_append]
    exact good_eliminateColumn ih

/-- The generator with its columns in an order, and nothing after the last. -/
def LdpcParams.permutedMatrix (P : LdpcParams) (perm : List Nat) (row col : Nat) : ZMod 2 :=
  if col < P.N then P.generatorMatrix row (perm.getD col 0) else 0

/-- The reduced rows of a basis. -/
def OsdBasis.gMatrix (b : OsdBasis) (P : LdpcParams) (r c : Nat) : ZMod 2 :=
  gf2 (decide (c < P.N) && b.g.getD (r * P.N + c) false)

/-- What the setup returns: a permutation of the positions, and the generator reduced in that order. -/
structure OsdBasis.Sound (P : LdpcParams) (b : OsdBasis) : Prop where
  perm : b.perm.Perm (List.range P.N)
  full : b.pivotCol.length = P.K
  echelon : Echelon P.K (b.gMatrix P) b.pivotCol P.N
  space : rowSpace P.K (b.gMatrix P) = rowSpace P.K (P.permutedMatrix b.perm)
  greedy : b.pivotCol.map (fun c => b.perm.getD c 0) =
    greedyBasis (ZMod 2) (column P.K P.generatorMatrix) b.perm

namespace OsdBasis.Sound
variable {P : LdpcParams} {b : OsdBasis}

theorem length_perm (h : b.Sound P) : b.perm.length = P.N := by
  rw [h.perm.length_eq,List.length_range]

theorem getD_lt (h : b.Sound P) {c : Nat} (hc : c < P.N) : b.perm.getD c 0 < P.N := by
  have hlt : c < b.perm.length := h.length_perm ▸ hc
  rw [List.getD_eq_getElem _ _ hlt]
  exact List.mem_range.mp (h.perm.mem_iff.mp (List.getElem_mem hlt))

theorem injective (h : b.Sound P) (a : Nat) (ha : a < P.N) (c : Nat) (hc : c < P.N)
    (heq : b.perm.getD a 0 = b.perm.getD c 0) : a = c := by
  have hnodup : b.perm.Nodup := h.perm.nodup_iff.mpr List.nodup_range
  have ha' : a < b.perm.length := h.length_perm ▸ ha
  have hc' : c < b.perm.length := h.length_perm ▸ hc
  rw [List.getD_eq_getElem _ _ ha',List.getD_eq_getElem _ _ hc'] at heq
  exact (List.Nodup.getElem_inj_iff hnodup).mp heq

theorem surjective (h : b.Sound P) {j : Nat} (hj : j < P.N) : ∃ c < P.N, b.perm.getD c 0 = j := by
  obtain ⟨c,hc,heq⟩ := List.getElem_of_mem (h.perm.mem_iff.mpr (List.mem_range.mpr hj))
  exact ⟨c,h.length_perm ▸ hc,by rw [List.getD_eq_getElem _ _ hc,heq]⟩

end OsdBasis.Sound

section Setup
variable {F : Type} [F32 F] (P : LdpcParams) (sorter : SortUnstable) (llr : List F)

theorem perm_reliabilityOrder : (reliabilityOrder P sorter llr).Perm (List.range P.N) :=
  sorter.perm _ _

private theorem getD_packedGenerator (perm : List Nat) {r : Nat} (hr : r < P.K) :
    (packedGenerator P perm).getD r [] =
      BitRow.pack ((P.N + 63) / 64) P.N fun col => P.generator r (perm.getD col 0) := by
  have hlt : r < (packedGenerator P perm).length := by simpa [packedGenerator] using hr
  rw [List.getD_eq_getElem _ _ hlt]
  simp [packedGenerator]

private theorem matrix_packedGenerator (perm : List Nat) {r : Nat} (hr : r < P.K) (c : Nat) :
    matrix (packedGenerator P perm) r c = P.permutedMatrix perm r c := by
  rw [matrix,getD_packedGenerator P perm hr,bit_pack (by omega),LdpcParams.permutedMatrix]
  split
  · rename_i hc
    rw [decide_eq_true hc,Bool.true_and]
    rfl
  · rename_i hc
    rw [decide_eq_false hc,Bool.false_and,gf2_false]

private theorem good_packedGenerator (perm : List Nat) :
    Elimination.Good P.K ((P.N + 63) / 64) (matrix (packedGenerator P perm)) 0 ⟨packedGenerator P perm,[]⟩ where
  length := by simp [packedGenerator]
  uniform i hi := by
    have hi' : i < P.K := by simpa [packedGenerator] using hi
    rw [getD_packedGenerator P perm hi',length_pack]
  reduces := reduces_start _ _

/-- Matrices with the same first rows span the same space. -/
private theorem rowSpace_congr {k : Nat} {A B : Nat → Nat → ZMod 2} (h : ∀ r < k, ∀ c, A r c = B r c) :
    rowSpace k A = rowSpace k B := by
  apply le_antisymm
  · refine rowSpace_le fun r hr => ?_
    rw [show A r = B r from funext (h r hr)]
    exact row_mem_rowSpace B hr
  · refine rowSpace_le fun r hr => ?_
    rw [show B r = A r from funext fun c => (h r hr c).symm]
    exact row_mem_rowSpace A hr

/-- The setup always succeeds, since the information columns are independent. -/
theorem osdSetup_sound (hN : P.N = P.K + P.M) :
    ∃ b, osdSetupGenericPacked P sorter llr = some b ∧ b.Sound P ∧ b.perm = reliabilityOrder P sorter llr := by
  let perm := reliabilityOrder P sorter llr
  have hperm : perm.Perm (List.range P.N) := perm_reliabilityOrder P sorter llr
  have hlength : perm.length = P.N := by rw [hperm.length_eq,List.length_range]
  have hgood := good_eliminate (good_packedGenerator P perm) P.N
  let s := eliminate P perm
  have hs : s.Good P.K ((P.N + 63) / 64) (matrix (packedGenerator P perm)) P.N := hgood
  have hcolumn (c : Nat) (hc : c < P.N) :
      column P.K (matrix (packedGenerator P perm)) c = column P.K P.generatorMatrix (perm.getD c 0) := by
    funext r
    rw [column,matrix_packedGenerator P perm r.isLt,LdpcParams.permutedMatrix,if_pos hc,column]
  have hfull : s.pivotCol.length = P.K := by
    refine hs.reduces.full fun r hr => ?_
    have hrN : r < P.N := by omega
    obtain ⟨c,hc,heq⟩ := List.getElem_of_mem (hperm.mem_iff.mpr (List.mem_range.mpr hrN))
    refine ⟨c,hlength ▸ hc,?_⟩
    rw [hcolumn c (hlength ▸ hc),List.getD_eq_getElem _ _ hc,heq]
    funext r'
    simp only [column,LdpcParams.generatorMatrix,LdpcParams.generator,if_pos hr]
    by_cases h : r'.val = r
    · simp [h]
    · simp [h]
  let b : OsdBasis :=
    { perm := perm
      g := (List.range (P.K * P.N)).map fun i => (s.rows.getD (i / P.N) []).bit (i % P.N)
      pivotCol := s.pivotCol }
  have hb : osdSetupGenericPacked P sorter llr = some b := by
    unfold osdSetupGenericPacked
    exact if_neg (by show ¬s.pivotCol.length < P.K; omega)
  have hspace := hs.reduces.space
  have hmatrix (r : Nat) (hr : r < P.K) (c : Nat) : b.gMatrix P r c = matrix s.rows r c := by
    unfold OsdBasis.gMatrix
    by_cases hc : c < P.N
    · have hpos : 0 < P.N := by omega
      have hlt : r * P.N + c < P.K * P.N := by
        have hmul : (r + 1) * P.N ≤ P.K * P.N := Nat.mul_le_mul_right P.N hr
        rw [Nat.succ_mul] at hmul
        omega
      have hdiv : (r * P.N + c) / P.N = r := by
        rw [Nat.mul_comm,Nat.mul_add_div hpos,Nat.div_eq_of_lt hc,Nat.add_zero]
      have hmod : (r * P.N + c) % P.N = c := by
        rw [Nat.mul_comm,Nat.mul_add_mod,Nat.mod_eq_of_lt hc]
      rw [decide_eq_true hc,Bool.true_and,List.getD_eq_getElem _ _ (by simpa [b] using hlt)]
      simp [b,hdiv,hmod,matrix]
    · have hzero : ∀ w ∈ rowSpace P.K (matrix s.rows), w c = 0 := by
        intro w hw
        rw [hspace,mem_rowSpace_iff] at hw
        obtain ⟨u,hu⟩ := hw
        rw [hu c]
        refine Finset.sum_eq_zero fun r' hr' => ?_
        rw [matrix_packedGenerator P perm (Finset.mem_range.mp hr'),LdpcParams.permutedMatrix,if_neg hc,mul_zero]
      rw [hzero _ (row_mem_rowSpace _ hr),decide_eq_false hc,Bool.false_and,gf2_false]
  refine ⟨b,hb,⟨hperm,hfull,?_,?_,?_⟩,rfl⟩
  · exact
      { hs.reduces.echelon with
        unit := fun t p ht r hr => (hmatrix r hr p).trans (hs.reduces.echelon.unit t p ht r hr)
        clear := fun r hr hle c hc => (hmatrix r hr c).trans (hs.reduces.echelon.clear r hr hle c hc) }
  · rw [rowSpace_congr hmatrix,hspace]
    exact rowSpace_congr fun r hr c => matrix_packedGenerator P perm hr c
  · have horder : perm = (List.range P.N).map fun c => perm.getD c 0 := by
      apply List.ext_getElem
      · simp [hlength]
      · intro i hi _
        simp [List.getElem?_eq_getElem hi]
    have hgreedy := hs.reduces.greedy
    rw [greedyBasis_congr (w := column P.K P.generatorMatrix ∘ fun c => perm.getD c 0)
      fun c hc => hcolumn c (List.mem_range.mp hc)] at hgreedy
    show s.pivotCol.map (fun c => perm.getD c 0) = greedyBasis (ZMod 2) (column P.K P.generatorMatrix) perm
    conv_rhs => rw [horder]
    rw [greedyBasis_map,← hgreedy]

end Setup

section Encoding
variable {P : LdpcParams}

theorem bitCast_toUInt8 (b : Bool) : bitCast b.toUInt8 = gf2 b := by
  cases b <;> rfl

theorem toUInt8_xor (a b : Bool) : (a ^^ b).toUInt8 = a.toUInt8 ^^^ b.toUInt8 := by
  cases a <;> cases b <;> rfl

theorem toUInt8_lt_two (b : Bool) : b.toUInt8 < 2 := by
  cases b <;> decide

/-- Every position of an encoding is the combination of the information bits that the generator gives. -/
theorem bitCast_encode (hN : P.N = P.K + P.M) {info : List UInt8} (hinfo : info.length = P.K) {j : Nat}
    (hj : j < P.N) :
    bitCast ((P.ldpcEncodeGeneric info).getD j 0) =
      ∑ r ∈ Finset.range P.K, bitCast (info.getD r 0) * P.generatorMatrix r j := by
  unfold LdpcParams.ldpcEncodeGeneric
  rw [List.getD_eq_getElem?_getD,List.getElem?_append,hinfo]
  by_cases hjk : j < P.K
  · rw [if_pos hjk,← List.getD_eq_getElem?_getD,Finset.sum_eq_single j]
    · simp [LdpcParams.generatorMatrix,LdpcParams.generator,hjk]
    · intro r _ hne
      simp [LdpcParams.generatorMatrix,LdpcParams.generator,hjk,hne]
    · intro hnot
      exact absurd (Finset.mem_range.mpr hjk) hnot
  · have hparity : j - P.K < P.M := by omega
    rw [if_neg hjk,List.getElem?_map,List.getElem?_range hparity,Option.map_some,Option.getD_some,
      LdpcParams.encodeParity,sum_bitCast_range]
    refine Finset.sum_congr rfl fun r _ => ?_
    rw [bitCast_genParity_and]
    simp only [LdpcParams.generatorMatrix,LdpcParams.generator,if_neg hjk,LdpcParams.genParity]
    split <;> simp

/-- Two words of bits with the same values are the same. -/
theorem IsBits.ext {n : Nat} {c d : List UInt8} (hc : IsBits n c) (hd : IsBits n d)
    (h : ∀ j < n, bitCast (c.getD j 0) = bitCast (d.getD j 0)) : c = d := by
  apply List.ext_getElem (hc.1.trans hd.1.symm)
  intro j hj hj'
  have heq := bitCast_inj (hc.getD_lt j) (hd.getD_lt j) (h j (hc.1 ▸ hj))
  rwa [List.getD_eq_getElem _ _ hj,List.getD_eq_getElem _ _ hj'] at heq

end Encoding

/-- A candidate that is the combination of the reduced rows with the given coefficients. -/
structure OsdBasis.Combines (b : OsdBasis) (P : LdpcParams) (cp : BitRow) (u : Nat → ZMod 2) : Prop where
  length : cp.length = OSD_WORDS
  bits : ∀ c, gf2 (cp.bit c) = ∑ r ∈ Finset.range P.K, u r * b.gMatrix P r c

namespace OsdBasis
variable {P : LdpcParams} {b : OsdBasis} {cp : BitRow} {u : Nat → ZMod 2}

/-- Positions read a candidate through the order. -/
theorem Sound.getD_scatter (h : b.Sound P) (cp : BitRow) {c : Nat} (hc : c < P.N) :
    (b.scatter P cp).getD (b.perm.getD c 0) 0 = (cp.bit c).toUInt8 := by
  have hcell := getElem?_scatterTo (fun col => b.perm.getD col 0) (fun col => (cp.bit col).toUInt8)
    (List.replicate P.N (0 : UInt8)) h.injective hc (by simpa using h.getD_lt hc)
  rw [scatter,List.getD_eq_getElem?_getD,hcell,Option.getD_some]

theorem Sound.getD_invPerm (h : b.Sound P) {c : Nat} (hc : c < P.N) :
    (b.invPerm P).getD (b.perm.getD c 0) 0 = c := by
  have hcell := getElem?_scatterTo (fun col => b.perm.getD col 0) (fun col => col)
    (List.replicate P.N 0) (h.length_perm ▸ h.injective) (h.length_perm ▸ hc) (by simpa using h.getD_lt hc)
  rw [invPerm,List.getD_eq_getElem?_getD,hcell,Option.getD_some]

theorem Sound.isBits_scatter (h : b.Sound P) (cp : BitRow) : IsBits P.N (b.scatter P cp) := by
  have hlength : (b.scatter P cp).length = P.N := by simp [scatter]
  refine ⟨hlength,fun x hx => ?_⟩
  obtain ⟨j,hj,rfl⟩ := List.getElem_of_mem hx
  obtain ⟨c,hc,rfl⟩ := h.surjective (hlength ▸ hj)
  have hcell := h.getD_scatter cp hc
  rw [List.getD_eq_getElem _ _ hj] at hcell
  rw [hcell]
  exact toUInt8_lt_two _

/-- The information bits are the first positions of the word. -/
theorem Sound.decoded_eq (h : b.Sound P) (hK : P.K ≤ P.N) (cp : BitRow) :
    b.decoded P cp = (b.scatter P cp).take P.K := by
  have hlength : (b.scatter P cp).length = P.N := (h.isBits_scatter cp).1
  apply List.ext_getElem
  · simp [decoded,hlength,hK]
  · intro i hi hi'
    have hiK : i < P.K := by simpa [decoded] using hi
    obtain ⟨c,hc,hpos⟩ := h.surjective (show i < P.N by omega)
    have hinv := h.getD_invPerm hc
    have hcell := h.getD_scatter cp hc
    rw [hpos] at hinv hcell
    rw [List.getD_eq_getElem _ _ (by omega)] at hcell
    rw [List.getElem_take,hcell]
    simp only [decoded,List.getElem_map,List.getElem_range,hinv]

theorem gf2_gPacked (hmax : P.N ≤ 256) (r c : Nat) : gf2 ((b.gPacked P r).bit c) = b.gMatrix P r c := by
  rw [gPacked,bit_pack (by simpa [OSD_WORDS] using hmax),gMatrix]

theorem length_gPacked (r : Nat) : (b.gPacked P r).length = OSD_WORDS := length_pack _ _ _

/-- Flipping a row changes its coefficient. -/
theorem Combines.flip (hc : b.Combines P cp u) (hmax : P.N ≤ 256) {k : Nat} (hk : k < P.K) :
    b.Combines P (cp.xor (b.gPacked P k)) fun r => u r + if r = k then 1 else 0 where
  length := by rw [length_xor,hc.length,length_gPacked,min_self]
  bits c := by
    rw [bit_xor (hc.length.trans (length_gPacked k).symm),gf2_xor,hc.bits c,gf2_gPacked hmax]
    simp only [add_mul,Finset.sum_add_distrib,ite_mul,one_mul,zero_mul,Finset.sum_ite_eq',
      Finset.mem_range,if_pos hk]

theorem combines_zero : b.Combines P (BitRow.zero OSD_WORDS) fun _ => 0 where
  length := length_zero _
  bits c := by simp

/-- The first candidate has the hard decisions as its coefficients. -/
theorem combines_orderZero {F : Type} [F32 F] (hmax : P.N ≤ 256) (llr : List F) :
    b.Combines P (b.orderZero P llr) fun r => gf2 (b.mrb llr r) := by
  have hfold : ∀ n ≤ P.K, b.Combines P
      ((List.range n).foldl (fun c r => if b.mrb llr r then c.xor (b.gPacked P r) else c) (BitRow.zero OSD_WORDS))
      fun r => if r < n then gf2 (b.mrb llr r) else 0 := by
    intro n
    induction n with
    | zero => exact fun _ => by simpa using combines_zero
    | succ n ih =>
      intro hn
      have hprev := ih (by omega)
      rw [List.range_succ,List.foldl_append,List.foldl_cons,List.foldl_nil]
      have hcoeff (r : Nat) : (if r < n + 1 then gf2 (b.mrb llr r) else 0) =
          (if r < n then gf2 (b.mrb llr r) else 0) + if r = n then gf2 (b.mrb llr n) else 0 := by
        rcases Nat.lt_trichotomy r n with hlt | rfl | hgt
        · simp [hlt,Nat.lt_succ_of_lt hlt,Nat.ne_of_lt hlt]
        · simp
        · have h1 : ¬r < n + 1 := by omega
          have h2 : ¬r < n := by omega
          have h3 : r ≠ n := by omega
          simp [h1,h2,h3]
      simp only [hcoeff]
      split
      · rename_i hbit
        rw [hbit,gf2_true]
        exact hprev.flip hmax (by omega)
      · rename_i hbit
        rw [Bool.not_eq_true] at hbit
        simpa [hbit] using hprev
  have h := hfold P.K (Nat.le_refl _)
  refine ⟨h.length,fun c => (h.bits c).trans ?_⟩
  exact Finset.sum_congr rfl fun r hr => by rw [if_pos (Finset.mem_range.mp hr)]

/-- The information bits of a combination are those of a word of the generator's rows, and the word is
their encoding. -/
theorem Combines.encoding (hc : b.Combines P cp u) (h : b.Sound P) (hN : P.N = P.K + P.M) :
    IsBits P.K (b.decoded P cp) ∧ b.scatter P cp = P.ldpcEncodeGeneric (b.decoded P cp) := by
  have hscatter := h.isBits_scatter cp
  have hdecoded := h.decoded_eq (by omega) cp
  have hbits : IsBits P.K (b.decoded P cp) := by
    rw [hdecoded]
    exact hscatter.take (by omega)
  refine ⟨hbits,?_⟩
  have hspace : (fun c => gf2 (cp.bit c)) ∈ rowSpace P.K (P.permutedMatrix b.perm) := by
    rw [← h.space,mem_rowSpace_iff]
    exact ⟨u,hc.bits⟩
  obtain ⟨v,hv⟩ := (mem_rowSpace_iff _ _).mp hspace
  let info : List UInt8 := (List.range P.K).map fun r => (decide (v r = 1)).toUInt8
  have hinfo : IsBits P.K info := by
    refine ⟨by simp [info],fun x hx => ?_⟩
    obtain ⟨r,_,rfl⟩ := List.mem_map.mp hx
    exact toUInt8_lt_two _
  have hvalue (r : Nat) (hr : r < P.K) : bitCast (info.getD r 0) = v r := by
    rw [List.getD_eq_getElem _ _ (by simpa [info] using hr)]
    simp only [info,List.getElem_map,List.getElem_range,bitCast_toUInt8,gf2_decide]
  have hword : b.scatter P cp = P.ldpcEncodeGeneric info := by
    refine hscatter.ext (isBits_encode hN hinfo) fun j hj => ?_
    obtain ⟨c,hcN,rfl⟩ := h.surjective hj
    rw [h.getD_scatter cp hcN,bitCast_toUInt8,hv c,bitCast_encode hN hinfo.1 hj]
    refine Finset.sum_congr rfl fun r hr => ?_
    rw [hvalue r (Finset.mem_range.mp hr),LdpcParams.permutedMatrix,if_pos hcN]
  rw [hdecoded,hword,take_encode info hinfo.1]

/-- A combination has its coefficients at the pivots. -/
theorem Combines.at_pivot (hc : b.Combines P cp u) (h : b.Sound P) {r : Nat} (hr : r < P.K) :
    bitCast ((b.scatter P cp).getD (b.perm.getD (b.pivotCol.getD r 0) 0) 0) = u r := by
  have hget : b.pivotCol[r]? = some (b.pivotCol.getD r 0) := by
    rw [List.getD_eq_getElem?_getD,List.getElem?_eq_getElem (h.full ▸ hr),Option.getD_some]
  have hlt := h.echelon.below _ (List.mem_of_getElem? hget)
  rw [h.getD_scatter cp hlt,bitCast_toUInt8,hc.bits,h.echelon.sum_at_pivot u hget]

/-- A codeword is determined by its bits at the pivots. -/
theorem Combines.eq_of_pivots (hc : b.Combines P cp u) (h : b.Sound P) (hN : P.N = P.K + P.M)
    {info : List UInt8} (hinfo : IsBits P.K info)
    (hpivots : ∀ r < P.K,
      bitCast ((P.ldpcEncodeGeneric info).getD (b.perm.getD (b.pivotCol.getD r 0) 0) 0) = u r) :
    b.scatter P cp = P.ldpcEncodeGeneric info := by
  let word (c : Nat) : ZMod 2 :=
    if c < P.N then bitCast ((P.ldpcEncodeGeneric info).getD (b.perm.getD c 0) 0) else 0
  have hspace : word ∈ rowSpace P.K (b.gMatrix P) := by
    rw [h.space,mem_rowSpace_iff]
    refine ⟨fun r => bitCast (info.getD r 0),fun c => ?_⟩
    simp only [word,LdpcParams.permutedMatrix]
    split
    · rename_i hcN
      exact bitCast_encode hN hinfo.1 (h.getD_lt hcN)
    · simp
  have hsum := h.echelon.eq_sum_pivots h.full hspace
  refine (h.isBits_scatter cp).ext (isBits_encode hN hinfo) fun j hj => ?_
  obtain ⟨c,hcN,rfl⟩ := h.surjective hj
  have hwordc : word c = bitCast ((P.ldpcEncodeGeneric info).getD (b.perm.getD c 0) 0) := if_pos hcN
  rw [h.getD_scatter cp hcN,bitCast_toUInt8,hc.bits,← hwordc,hsum c]
  refine Finset.sum_congr rfl fun r hr => ?_
  have hr := Finset.mem_range.mp hr
  have hget : b.pivotCol[r]? = some (b.pivotCol.getD r 0) := by
    rw [List.getD_eq_getElem?_getD,List.getElem?_eq_getElem (h.full ▸ hr),Option.getD_some]
  have hlt := h.echelon.below _ (List.mem_of_getElem? hget)
  rw [show word (b.pivotCol.getD r 0) = u r from (if_pos hlt).trans (hpivots r hr)]

end OsdBasis

end MfskCore.Fec
