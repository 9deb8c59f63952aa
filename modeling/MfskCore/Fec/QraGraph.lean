import MfskCore.Fec.Gf64
import MfskCore.Fec.Qra156564
import Mathlib.Algebra.BigOperators.Group.List.Basic
import Mathlib.Algebra.BigOperators.Intervals
import Mathlib.Algebra.BigOperators.Ring.Finset
import Mathlib.Data.List.GetD

/-! The encoder of Q65 against the graph of its decoder. Every factor of the graph sums one input of
the accumulator and the accumulator before and after it; the last one closes because the weights of
each information symbol sum to zero. -/
namespace MfskCore.Fec
open GF64

/-- A symbol value as a field element. -/
def fieldElement (n : Nat) : GF64 := ⟨BitVec.ofNat 6 n⟩

/-- The sum a factor node asks to be zero. -/
def factorSum (code : QraCode) (y : List Nat) (c : Nat) : GF64 :=
  ((code.factorTerms c).map fun term => α ^ term.2 * fieldElement (y.getD term.1 0)).sum

/-- The weighted input at check `k`. -/
def weightedInput (code : QraCode) (x : List Nat) (k : Nat) : GF64 :=
  α ^ code.accInputWlog.getD k 0 * fieldElement (x.getD (code.accInputIdx.getD k 0).toNat 0)

section Tables

/-- Division by `α`: a shift to the right, corrected when a bit falls out. -/
private def halve (k : Nat) : Nat := if k % 2 = 0 then k / 2 else k / 2 ^^^ 33

/-- The variable of a message: its own input, an input of the accumulator, or a state of it. -/
private def owner (e : Int) : Nat :=
  if e < 65 then e.toNat
  else if e < 116 then (QRA_ACC_INPUT_IDX.getD (e.toNat - 65) 0).toNat
  else 15 + (e.toNat - 116) / 2

/-- The logarithm of the weight of a message: only inputs of the accumulator are weighted. -/
private def messageWeight (e : Nat) : Nat := if e < 65 then 0 else QRA_ACC_INPUT_WLOG.getD (e - 65) 0

/-- The accumulator as a factor: the first and the last one have two terms, the others three. -/
private def accumulatorTerms (k : Nat) : List (Nat × Nat) :=
  ((QRA_ACC_INPUT_IDX.getD k 0).toNat,QRA_ACC_INPUT_WLOG.getD k 0) ::
    ((if k = 0 then [] else [(14 + k,0)]) ++ if k = 50 then [] else [(15 + k,0)])

/-- What the tables of the code are, entry by entry. -/
private class TableFacts : Prop where
  exp : ∀ i < 63, fieldElement (QRA_EXP.getD i 0) = power i
  logs : ∀ t < 64, t ≠ 0 → QRA_LOG.getD t 0 = (log (fieldElement t) : Int) ∧ fieldElement t ≠ 0
  input : ∀ k < 51, QRA_ACC_INPUT_WLOG.getD k 0 < 63 ∧ (QRA_ACC_INPUT_IDX.getD k 0).toNat < 15
  msgw : QRA_MSGW = List.replicate 65 0 ++ (QRA_ACC_INPUT_WLOG ++ List.replicate 100 0)
  factor : ∀ k < 51, List.Forall₂ (fun e term => owner e = term.1 ∧ 65 ≤ e ∧ e < 216 ∧
    messageWeight e.toNat = term.2) (QRA15_65_64_IRR_E23.factorEdges (65 + k)) (accumulatorTerms k)
  /-- The weights of an information symbol sum to zero. -/
  weights : ∀ j < 15, (((List.range 51).filter fun k => (QRA_ACC_INPUT_IDX.getD k 0).toNat = j).map
    fun k => (power (QRA_ACC_INPUT_WLOG.getD k 0)).symbol).foldr (· ^^^ ·) 0 = 0
  owners : ∀ entry ∈ QRA_V2CMIDX.zipIdx, entry.1 = -1 ∨ owner entry.1 = entry.2 / 5
  inputs_listed : ∀ k < 51, ((65 + k : Nat) : Int) ∈ QRA_V2CMIDX.take 75
  states_listed : QRA_V2CMIDX.drop 75 = (List.range 50).flatMap fun j =>
    [((15 + j : Nat) : Int),((116 + 2 * j : Nat) : Int),((117 + 2 * j : Nat) : Int),-1,-1]
  used : ∀ v < 65, QRA_VDEG.getD v 0 ≤ 5 ∧ ∀ e ∈ QRA15_65_64_IRR_E23.variableEdges v, e ≠ -1
  halves : ∀ k < 64, halve k < 64 ∧ (k = 0 ∨ fieldElement (halve k) ≠ 0 ∧
    power (log (fieldElement (halve k)) + 1) = fieldElement k)
  row_zero : QRA_PMAT.take 64 = List.range 64
  /-- Each row is the one before it, divided by `α`. -/
  rows_halve : QRA_PMAT.drop 64 = (QRA_PMAT.take (62 * 64)).map halve

private instance tables : TableFacts where
  exp := by decide +kernel
  logs := by decide +kernel
  input := by decide +kernel
  msgw := by decide +kernel
  factor := by decide +kernel
  weights := by decide +kernel
  owners := by decide +kernel
  inputs_listed := by decide +kernel
  states_listed := by decide +kernel
  used := by decide +kernel
  halves := by decide +kernel
  row_zero := by decide +kernel
  rows_halve := by decide +kernel

private theorem row_of_entry {e : Int} {i : Nat} (h : QRA_V2CMIDX[i]? = some e) (hne : e ≠ -1) : i / 5 = owner e :=
  ((tables.owners (e,i) (List.mk_mem_zipIdx_iff_getElem?.2 h)).resolve_left hne).symm

private theorem edgeVariable_eq_owner {e : Int} (h : e ∈ QRA_V2CMIDX) (hne : e ≠ -1) :
    QRA15_65_64_IRR_E23.edgeVariable e = owner e := row_of_entry (List.getElem?_idxOf h) hne

private theorem message_listed {e : Int} (hlow : 65 ≤ e) (hhigh : e < 216) : e ∈ QRA_V2CMIDX := by
  rcases Int.lt_or_le e 116 with hinput | hstate
  · refine List.mem_of_mem_take (i := 75) ?_
    have h := tables.inputs_listed (e.toNat - 65) (by omega)
    rwa [show ((65 + (e.toNat - 65) : Nat) : Int) = e by omega] at h
  · refine List.mem_of_mem_drop (i := 75) ?_
    rw [tables.states_listed]
    refine List.mem_flatMap.2 ⟨(e.toNat - 116) / 2,List.mem_range.2 (by omega),?_⟩
    simp only [List.mem_cons]
    omega

private theorem msgw_getD (e : Nat) : QRA_MSGW.getD e 0 = messageWeight e := by
  rw [tables.msgw,messageWeight]
  split
  · next he => rw [List.getD_append _ _ _ _ (he.trans_eq List.length_replicate.symm),List.getD_replicate _ he]
  · next he =>
    rw [List.getD_append_right _ _ _ _ (by rw [List.length_replicate]; omega),List.length_replicate]
    by_cases hin : e - 65 < QRA_ACC_INPUT_WLOG.length
    · rw [List.getD_append _ _ _ _ hin]
    · rw [List.getD_append_right _ _ _ _ (Nat.le_of_not_lt hin),
        List.getD_eq_getElem?_getD,List.getElem?_getD_replicate_default_eq,
        List.getD_eq_default _ _ (Nat.le_of_not_lt hin)]

/-- The graph is the accumulator. -/
private theorem factorTerms_eq {k : Nat} (hk : k < 51) :
    QRA15_65_64_IRR_E23.factorTerms (65 + k) = accumulatorTerms k := by
  rw [QraCode.factorTerms,← List.forall₂_eq_eq_eq,List.forall₂_map_left_iff]
  refine (tables.factor k hk).imp fun e term h => ?_
  obtain ⟨howner,hlow,hhigh,hw⟩ := h
  have hvariable := edgeVariable_eq_owner (message_listed hlow hhigh) (by omega)
  exact Prod.ext (hvariable.trans howner) ((msgw_getD e.toNat).trans hw)

private theorem symbol_sum {ι : Type} (f : ι → GF64) (l : List ι) :
    (l.map f).sum.symbol = (l.map fun i => (f i).symbol).foldr (· ^^^ ·) 0 := by
  induction l with
  | nil => rfl
  | cons i l ih =>
    rw [List.map_cons,List.sum_cons,List.map_cons,List.foldr_cons,← ih]
    rfl

private theorem weights_sum {j : Nat} (hj : j < 15) :
    ∑ k ∈ (Finset.range 51).filter (fun k => (QRA_ACC_INPUT_IDX.getD k 0).toNat = j),
      power (QRA_ACC_INPUT_WLOG.getD k 0) = 0 := by
  refine GF64.ext ?_
  exact (symbol_sum _ ((List.range 51).filter fun k => (QRA_ACC_INPUT_IDX.getD k 0).toNat = j)).trans
    (tables.weights j hj)

private theorem halve_mul {k : Nat} (hk : k < 64) :
    halve k < 64 ∧ α * fieldElement (halve k) = fieldElement k := by
  obtain ⟨hlt,rfl | ⟨hne,hlog⟩⟩ := tables.halves k hk
  · exact ⟨hlt,mul_zero α⟩
  · refine ⟨hlt,?_⟩
    rw [← hlog,power_eq,pow_succ',← power_eq,(power_log _ hne).2]

end Tables

section Accumulator
variable {x : List Nat}

private theorem fieldElement_xor (a b : Nat) : fieldElement (a ^^^ b) = fieldElement a + fieldElement b := by
  apply GF64.ext
  exact BitVec.ofNat_xor

private theorem getD_lt (hx : ∀ t ∈ x, t < 64) (i : Nat) : x.getD i 0 < 64 := by
  rw [List.getD_eq_getElem?_getD]
  cases h : x[i]? with
  | none => decide
  | some t => exact hx t (List.mem_of_getElem? h)

private theorem accumulate_eq (hx : ∀ t ∈ x, t < 64) (chk : Nat) {k : Nat} (hk : k < 51) :
    fieldElement (QRA15_65_64_IRR_E23.accumulate x chk k) =
      fieldElement chk + weightedInput QRA15_65_64_IRR_E23 x k := by
  obtain ⟨-,hidx⟩ := tables.input k hk
  have ht : x.getD (QRA_ACC_INPUT_IDX.getD k 0).toNat 0 < 64 := getD_lt hx _
  unfold QraCode.accumulate weightedInput
  change fieldElement (if x.getD (QRA_ACC_INPUT_IDX.getD k 0).toNat 0 ≠ 0 then
    chk ^^^ QRA_EXP.getD ((QRA_LOG.getD (x.getD (QRA_ACC_INPUT_IDX.getD k 0).toNat 0) 0 +
      (QRA_ACC_INPUT_WLOG.getD k 0 : Int)) % (63 : Nat)).toNat 0 else chk) = fieldElement chk +
      α ^ QRA_ACC_INPUT_WLOG.getD k 0 * fieldElement (x.getD (QRA_ACC_INPUT_IDX.getD k 0).toNat 0)
  generalize x.getD (QRA_ACC_INPUT_IDX.getD k 0).toNat 0 = t at ht ⊢
  generalize QRA_ACC_INPUT_WLOG.getD k 0 = w
  split
  · rename_i hne
    obtain ⟨hlog,hnonzero⟩ := tables.logs t ht hne
    have hlg : ((QRA_LOG.getD t 0 + (w : Int)) % (63 : Nat)).toNat = (log (fieldElement t) + w) % 63 := by
      rw [hlog]
      omega
    rw [hlg,fieldElement_xor,tables.exp _ (Nat.mod_lt _ (by decide)),power_mod,power_eq,pow_add,← power_eq,
      (power_log _ hnonzero).2,mul_comm]
  · rename_i hzero
    obtain rfl : t = 0 := not_not.1 hzero
    have hfe : fieldElement 0 = 0 := rfl
    rw [hfe,mul_zero,add_zero]

/-- The accumulator after `k` checks. -/
private def accumulator (x : List Nat) (k : Nat) : Nat :=
  (List.range k).foldl (QRA15_65_64_IRR_E23.accumulate x) 0

private theorem accumulator_eq (hx : ∀ t ∈ x, t < 64) {k : Nat} (hk : k ≤ 51) :
    fieldElement (accumulator x k) = ∑ i ∈ Finset.range k, weightedInput QRA15_65_64_IRR_E23 x i := by
  induction k with
  | zero => rfl
  | succ k ih =>
    rw [accumulator,List.range_succ,List.foldl_append,List.foldl_cons,List.foldl_nil,accumulate_eq hx _ (by omega),
      Finset.sum_range_succ,← ih (by omega)]
    rfl

private theorem encode_fold (n : Nat) :
    (List.range n).foldl (fun (s : Nat × List Nat) k =>
        (QRA15_65_64_IRR_E23.accumulateCheck x s.1 k,s.2 ++ [QRA15_65_64_IRR_E23.accumulateCheck x s.1 k])) (0,x) =
      (accumulator x n,x ++ (List.range n).map fun k => accumulator x (k + 1)) := by
  induction n with
  | zero =>
    rw [List.range_zero,List.map_nil,List.append_nil]
    rfl
  | succ n ih =>
    have hstep : accumulator x (n + 1) = QRA15_65_64_IRR_E23.accumulateCheck x (accumulator x n) n := by
      rw [accumulator,List.range_succ,List.foldl_append]
      rfl
    rw [List.range_succ,List.foldl_append,ih,List.map_append,List.foldl_cons,List.foldl_nil,← hstep,
      List.append_assoc]
    rfl

/-- The codeword: the information symbols and the accumulator after each check. -/
theorem encode_eq (x : List Nat) : QRA15_65_64_IRR_E23.encode x =
    x ++ (List.range 50).map fun k => accumulator x (k + 1) :=
  congrArg Prod.snd (encode_fold 50)

/-- All the weighted inputs together sum to zero, the terminating one included. -/
private theorem weightedInputs_sum (x : List Nat) :
    ∑ k ∈ Finset.range 51, weightedInput QRA15_65_64_IRR_E23 x k = 0 := by
  have hmaps : ∀ k ∈ Finset.range 51, (QRA_ACC_INPUT_IDX.getD k 0).toNat ∈ Finset.range 15 := fun k hk =>
    Finset.mem_range.2 (tables.input k (Finset.mem_range.1 hk)).2
  rw [← Finset.sum_fiberwise_of_maps_to hmaps]
  refine Finset.sum_eq_zero fun j hj => ?_
  have hterm : ∀ k ∈ (Finset.range 51).filter (fun k => (QRA_ACC_INPUT_IDX.getD k 0).toNat = j),
      weightedInput QRA15_65_64_IRR_E23 x k = power (QRA_ACC_INPUT_WLOG.getD k 0) * fieldElement (x.getD j 0) := by
    intro k hk
    rw [← (Finset.mem_filter.1 hk).2,power_eq]
    rfl
  rw [Finset.sum_congr rfl hterm,← Finset.sum_mul,weights_sum (Finset.mem_range.1 hj),zero_mul]

private theorem add_self (a : GF64) : a + a = 0 := add_neg_cancel a

private theorem accumulator_succ (hx : ∀ t ∈ x, t < 64) {k : Nat} (hk : k < 51) :
    weightedInput QRA15_65_64_IRR_E23 x k + (fieldElement (accumulator x k) + fieldElement (accumulator x (k + 1))) = 0 := by
  rw [accumulator_eq hx (by omega),accumulator_eq hx (by omega),Finset.sum_range_succ,← add_assoc (Finset.sum _ _),
    add_self,zero_add,add_self]

private theorem getD_encode_info (hlen : x.length = 15) {v : Nat} (hv : v < 15) :
    (QRA15_65_64_IRR_E23.encode x).getD v 0 = x.getD v 0 := by
  rw [encode_eq,List.getD_append _ _ _ _ (by omega)]

private theorem getD_encode_check (hlen : x.length = 15) {k : Nat} (hk : k < 50) :
    (QRA15_65_64_IRR_E23.encode x).getD (15 + k) 0 = accumulator x (k + 1) := by
  rw [encode_eq,List.getD_append_right _ _ _ _ (by omega),hlen,Nat.add_sub_cancel_left,List.getD_eq_getElem?_getD,
    List.getElem?_map,List.getElem?_range hk]
  rfl

/-- Every factor of the graph is met by every codeword. -/
private theorem factorSum_encode (hlen : x.length = 15) (hx : ∀ t ∈ x, t < 64) {k : Nat} (hk : k < 51) :
    factorSum QRA15_65_64_IRR_E23 (QRA15_65_64_IRR_E23.encode x) (65 + k) = 0 := by
  have hbefore : (((if k = 0 then [] else [(14 + k,0)]) : List (Nat × Nat)).map fun term =>
      α ^ term.2 * fieldElement ((QRA15_65_64_IRR_E23.encode x).getD term.1 0)).sum = fieldElement (accumulator x k) := by
    split
    · rename_i h0
      subst h0
      rfl
    · have hprev : 14 + k = 15 + (k - 1) := by omega
      rw [List.map_singleton,List.sum_singleton,pow_zero,one_mul,hprev,getD_encode_check hlen (by omega),
        Nat.sub_add_cancel (by omega)]
  have hafter : (((if k = 50 then [] else [(15 + k,0)]) : List (Nat × Nat)).map fun term =>
      α ^ term.2 * fieldElement ((QRA15_65_64_IRR_E23.encode x).getD term.1 0)).sum = fieldElement (accumulator x (k + 1)) := by
    split
    · rename_i h50
      subst h50
      rw [accumulator_eq hx (by omega),weightedInputs_sum]
      rfl
    · rw [List.map_singleton,List.sum_singleton,pow_zero,one_mul,getD_encode_check hlen (by omega)]
  rw [factorSum,factorTerms_eq hk,accumulatorTerms,List.map_cons,List.sum_cons,List.map_append,List.sum_append,hbefore,hafter,
    getD_encode_info hlen (tables.input k hk).2]
  exact accumulator_succ hx hk

end Accumulator

section Permutations
variable {β : Type} [Inhabited β] {w : Nat}

/-- Row `w` divides by `α^w`. -/
private theorem row_divides (hw : w < 63) : (QRA15_65_64_IRR_E23.gfpmatRow w).length = 64 ∧
    ∀ k < 64, (QRA15_65_64_IRR_E23.gfpmatRow w).getD k 0 < 64 ∧
      α ^ w * fieldElement ((QRA15_65_64_IRR_E23.gfpmatRow w).getD k 0) = fieldElement k := by
  induction w with
  | zero =>
    have hrow : QRA15_65_64_IRR_E23.gfpmatRow 0 = List.range 64 := tables.row_zero
    rw [hrow]
    refine ⟨List.length_range,fun k hk => ?_⟩
    rw [List.getD_eq_getElem?_getD,List.getElem?_range hk,Option.getD_some,pow_zero,one_mul]
    exact ⟨hk,rfl⟩
  | succ w ih =>
    obtain ⟨hlen,hdiv⟩ := ih (by omega)
    have hrow : QRA15_65_64_IRR_E23.gfpmatRow (w + 1) = (QRA15_65_64_IRR_E23.gfpmatRow w).map halve := by
      have hroom : 64 ≤ 62 * 64 - w * 64 := by omega
      change (QRA_PMAT.drop ((w + 1) * 64)).take 64 = ((QRA_PMAT.drop (w * 64)).take 64).map halve
      rw [Nat.succ_mul,Nat.add_comm,← List.drop_drop,tables.rows_halve,← List.map_drop,← List.map_take,List.drop_take,
        List.take_take,Nat.min_eq_left hroom]
    refine ⟨by rw [hrow,List.length_map,hlen],fun k hk => ?_⟩
    obtain ⟨hlt,hmul⟩ := hdiv k hk
    obtain ⟨hhalf,hα⟩ := halve_mul hlt
    have hget : (QRA15_65_64_IRR_E23.gfpmatRow (w + 1)).getD k 0 =
        halve ((QRA15_65_64_IRR_E23.gfpmatRow w).getD k 0) := by
      rw [hrow,List.getD_eq_getElem?_getD,List.getElem?_map,List.getD_eq_getElem?_getD,
        List.getElem?_eq_getElem (by omega)]
      rfl
    rw [hget,pow_succ,mul_assoc,hα]
    exact ⟨hhalf,hmul⟩

private theorem fieldElement_toNat (x : GF64) : fieldElement x.symbol.toNat = x := by
  apply GF64.ext
  exact BitVec.eq_of_toNat_eq ((BitVec.toNat_ofNat _ 6).trans (Nat.mod_eq_of_lt x.symbol.isLt))

private theorem toNat_fieldElement {n : Nat} (h : n < 64) : (fieldElement n).symbol.toNat = n :=
  (BitVec.toNat_ofNat n 6).trans (Nat.mod_eq_of_lt h)

/-- Entry `α^w x` of row `w` is `x`. -/
private theorem row_mul (hw : w < 63) (x : GF64) :
    (QRA15_65_64_IRR_E23.gfpmatRow w).getD (α ^ w * x).symbol.toNat 0 = x.symbol.toNat := by
  obtain ⟨hlt,hmul⟩ := (row_divides hw).2 _ (α ^ w * x).symbol.isLt
  rw [fieldElement_toNat] at hmul
  have hx := congrArg (fun z : GF64 => z.symbol.toNat) (mul_left_cancel₀ (pow_ne_zero w α_ne_zero) hmul)
  exact (toNat_fieldElement hlt).symm.trans hx

private theorem getD_fwdperm {src : List β} {perm : List Nat} {k : Nat} (hk : k < perm.length) :
    (fwdperm src perm).getD k default = src.getD (perm.getD k 0) default := by
  rw [fwdperm,List.getD_eq_getElem?_getD,List.getElem?_map,List.getElem?_eq_getElem hk,Option.map_some,
    Option.getD_some,List.getD_eq_getElem _ _ hk]

/-- Writes to other cells. -/
private theorem scatter_other {dst src : List β} {pos : Nat → Nat} {n j : Nat} (h : ∀ i < src.length, pos (n + i) ≠ j) :
    ((src.zipIdx n).foldl (fun dst sk => dst.set (pos sk.2) sk.1) dst).getD j default = dst.getD j default := by
  induction src generalizing dst n with
  | nil => rfl
  | cons s src ih =>
    rw [List.zipIdx_cons,List.foldl_cons,ih]
    · have hfirst : pos n ≠ j := h 0 (by simp)
      rw [List.getD_eq_getElem?_getD,List.getElem?_set_ne hfirst,List.getD_eq_getElem?_getD]
    · intro i hi
      have hnext := h (i + 1) (by simpa using hi)
      rwa [← Nat.add_assoc,Nat.add_right_comm] at hnext

/-- The cell that is written by index `i` and by no other. -/
private theorem scatter_own (pos : Nat → Nat) (dst : List β) {src : List β} {n i : Nat} (hi : i < src.length)
    (hroom : pos (n + i) < dst.length) (hinj : ∀ i' < src.length, pos (n + i') = pos (n + i) → i' = i) :
    ((src.zipIdx n).foldl (fun dst sk => dst.set (pos sk.2) sk.1) dst).getD (pos (n + i)) default =
      src.getD i default := by
  induction src generalizing dst n i with
  | nil => exact absurd hi (Nat.not_lt_zero i)
  | cons s src ih =>
    rw [List.zipIdx_cons,List.foldl_cons]
    cases i with
    | zero =>
      rw [scatter_other]
      · rw [List.getD_eq_getElem?_getD,Nat.add_zero,List.getElem?_set_self (by simpa using hroom)]
        rfl
      · intro i' hi' heq
        have hzero := hinj (i' + 1) (by simpa using hi') (by rw [← heq]; congr 1; omega)
        omega
    | succ i =>
      have hshift : n + (i + 1) = n + 1 + i := by omega
      rw [hshift] at hroom hinj ⊢
      rw [ih _ (by simpa using hi) (by simpa using hroom)]
      · rfl
      · intro i' hi' heq
        have hsucc := hinj (i' + 1) (by simpa using hi') (by rw [← heq]; congr 1; omega)
        omega

omit [Inhabited β] in
private theorem length_scatter (dst src : List β) (pos : Nat → Nat) (n : Nat) :
    ((src.zipIdx n).foldl (fun dst sk => dst.set (pos sk.2) sk.1) dst).length = dst.length := by
  induction src generalizing dst n with
  | nil => rfl
  | cons s src ih => rw [List.zipIdx_cons,List.foldl_cons,ih,List.length_set]

/-- Forward is multiplication: the entry of `x` moves to `α^w x`. -/
private theorem fwdperm_mul (hw : w < 63) (src : List β) (x : GF64) :
    (fwdperm src (QRA15_65_64_IRR_E23.gfpmatRow w)).getD (α ^ w * x).symbol.toNat default =
      src.getD x.symbol.toNat default := by
  rw [getD_fwdperm ((row_divides hw).1 ▸ (α ^ w * x).symbol.isLt),row_mul hw]

/-- Backward is division: the entry of `α^w x` moves to `x`. -/
private theorem bwdperm_div (hw : w < 63) {dst src : List β} (hdst : dst.length = 64) (hsrc : src.length = 64) (x : GF64) :
    (bwdperm dst src (QRA15_65_64_IRR_E23.gfpmatRow w)).getD x.symbol.toNat default =
      src.getD (α ^ w * x).symbol.toNat default := by
  obtain ⟨-,hdiv⟩ := row_divides hw
  have hpos : (QRA15_65_64_IRR_E23.gfpmatRow w).getD (0 + (α ^ w * x).symbol.toNat) 0 = x.symbol.toNat := by
    rw [Nat.zero_add,row_mul hw]
  have hinj : ∀ i < src.length, (QRA15_65_64_IRR_E23.gfpmatRow w).getD (0 + i) 0 =
      (QRA15_65_64_IRR_E23.gfpmatRow w).getD (0 + (α ^ w * x).symbol.toNat) 0 → i = (α ^ w * x).symbol.toNat := by
    intro i hi heq
    rw [hsrc] at hi
    rw [hpos,Nat.zero_add] at heq
    have hmul := (hdiv i hi).2
    rw [heq,fieldElement_toNat] at hmul
    rw [hmul,toNat_fieldElement hi]
  have hown := scatter_own (fun k => (QRA15_65_64_IRR_E23.gfpmatRow w).getD k 0) dst
    (hsrc ▸ (α ^ w * x).symbol.isLt) (by rw [hpos,hdst]; exact x.symbol.isLt) hinj
  rw [hpos] at hown
  exact hown

private theorem eq_of_entries {l l' : List β} (hl : l.length = 64) (hl' : l'.length = 64)
    (h : ∀ x : GF64, l.getD x.symbol.toNat default = l'.getD x.symbol.toNat default) : l = l' := by
  refine List.ext_getElem (hl.trans hl'.symm) fun k hk hk' => ?_
  have hx := h (fieldElement k)
  rwa [toNat_fieldElement (hl ▸ hk),List.getD_eq_getElem _ _ hk,List.getD_eq_getElem _ _ hk'] at hx

/-- The two permutations undo each other. -/
private theorem permutations_inverse (hw : w < 63) {dst src : List β} (hdst : dst.length = 64) (hsrc : src.length = 64) :
    bwdperm dst (fwdperm src (QRA15_65_64_IRR_E23.gfpmatRow w)) (QRA15_65_64_IRR_E23.gfpmatRow w) = src ∧
    fwdperm (bwdperm dst src (QRA15_65_64_IRR_E23.gfpmatRow w)) (QRA15_65_64_IRR_E23.gfpmatRow w) = src := by
  have hrow := (row_divides hw).1
  have hfwd : ∀ l : List β, (fwdperm l (QRA15_65_64_IRR_E23.gfpmatRow w)).length = 64 := fun l =>
    List.length_map _ |>.trans hrow
  have hbwd : ∀ l : List β, (bwdperm dst l (QRA15_65_64_IRR_E23.gfpmatRow w)).length = 64 := fun l =>
    (length_scatter dst l (fun k => (QRA15_65_64_IRR_E23.gfpmatRow w).getD k 0) 0).trans hdst
  constructor
  · refine eq_of_entries (hbwd _) hsrc fun x => ?_
    rw [bwdperm_div hw hdst (hfwd src),fwdperm_mul hw]
  · refine eq_of_entries (hfwd _) hsrc fun x => ?_
    obtain ⟨z,rfl⟩ : ∃ z, α ^ w * z = x := ⟨(α ^ w)⁻¹ * x,mul_inv_cancel_left₀ (pow_ne_zero w α_ne_zero) x⟩
    rw [fwdperm_mul hw,bwdperm_div hw hdst hsrc]

end Permutations

/-- Encoder and decoder describe one code: a codeword meets every factor of the graph, and row `w` of
the permutation table is multiplication by `α^w`, undone by its backward use. -/
theorem encode_meets_graph (x : List Nat) (hlen : x.length = 15) (hx : ∀ t ∈ x, t < 64) :
    (QRA15_65_64_IRR_E23.encode x).length = 65 ∧
    (∀ c, QRA15_65_64_IRR_E23.V ≤ c → c < QRA15_65_64_IRR_E23.C →
      factorSum QRA15_65_64_IRR_E23 (QRA15_65_64_IRR_E23.encode x) c = 0) ∧
    ∀ (β : Type) [Inhabited β] (w : Nat), w < 63 → ∀ dst src : List β, dst.length = 64 → src.length = 64 →
      let row := QRA15_65_64_IRR_E23.gfpmatRow w
      (∀ z : GF64, (fwdperm src row).getD (α ^ w * z).symbol.toNat default = src.getD z.symbol.toNat default) ∧
      (∀ z : GF64, (bwdperm dst src row).getD z.symbol.toNat default = src.getD (α ^ w * z).symbol.toNat default) ∧
      bwdperm dst (fwdperm src row) row = src ∧ fwdperm (bwdperm dst src row) row = src := by
  refine ⟨?_,?_,?_⟩
  · rw [encode_eq,List.length_append,hlen,List.length_map,List.length_range]
  · intro c hlo hhi
    obtain ⟨k,rfl⟩ := Nat.exists_eq_add_of_le hlo
    exact factorSum_encode hlen hx (Nat.lt_of_add_lt_add_left hhi)
  · intro β _ w hw dst src hdst hsrc
    exact ⟨fwdperm_mul hw src,bwdperm_div hw hdst hsrc,permutations_inverse hw hdst hsrc⟩

/-- The terminating factor at work on one message. -/
theorem encode_meets_graph_counting :
    factorSum QRA15_65_64_IRR_E23 (QRA15_65_64_IRR_E23.encode (List.range 15)) 115 = 0 :=
  (encode_meets_graph (List.range 15) rfl (by decide)).2.1 115 (by decide) (by decide)

end MfskCore.Fec
