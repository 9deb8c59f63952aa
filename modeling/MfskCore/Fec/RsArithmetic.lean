import MfskCore.Fec.Gf64
import MfskCore.Library.ErrorLocator
import Mathlib.Data.List.GetD

/-! What the table arithmetic of the Reed-Solomon codec computes in the field: sums of products
accumulated under zero tests, coefficient lists as polynomials, syndromes as power sums. -/
namespace MfskCore.Fec
open Polynomial Library
open GF64 (α)

/-- A symbol as a field element. -/
abbrev gf (x : Symbol) : GF64 := ⟨x⟩

theorem modnnLoop_eq (fuel x : Nat) (h : x ≤ fuel) : modnnLoop fuel x = x % 63 := by
  induction fuel generalizing x with
  | zero =>
    obtain rfl : x = 0 := by omega
    rfl
  | succ fuel ih =>
    rw [modnnLoop]
    split
    · rename_i hge
      have hNN : NN = 63 := rfl
      have hMM : MM = 6 := rfl
      rw [hNN] at hge ⊢
      rw [hMM]
      have hand : (x - 63) &&& 63 = (x - 63) % 2^6 := Nat.and_two_pow_sub_one_eq_mod (x - 63) 6
      have hshift : (x - 63) >>> 6 = (x - 63) / 2^6 := Nat.shiftRight_eq_div_pow _ _
      dsimp only
      rw [hand,hshift,ih _ (by omega)]
      omega
    · rename_i hlt
      have hNN : NN = 63 := rfl
      rw [hNN] at hlt
      exact (Nat.mod_eq_of_lt (by omega)).symm

/-- The shift loop is the remainder. -/
theorem modnn_eq (x : Nat) : modnn x = x % 63 := modnnLoop_eq x x le_rfl

namespace Rs6312

theorem new_alphaTo : new.alphaTo = GF64.powTable := by
  rw [new,GF64.tables_eq]

theorem new_indexOf : new.indexOf = GF64.logTable := by
  rw [new,GF64.tables_eq]

/-- A reduced exponent looked up in the power table. -/
theorem gf_pow_modnn (n : Nat) : gf (new.pow (modnn n)) = α ^ n := by
  rw [← GF64.power_eq,GF64.power,pow,alpha,new_alphaTo,modnn_eq]

theorem log_eq (x : Symbol) : new.log x = GF64.log (gf x) := by
  rw [log,index,new_indexOf,GF64.log]

theorem log_zero : new.log 0 = A0 := by
  rw [log_eq]
  decide

theorem log_lt {x : Symbol} (hx : x ≠ 0) : new.log x < 63 := by
  rw [log_eq]
  refine (GF64.power_log (gf x) ?_).1
  intro h
  exact hx (congrArg GF64.symbol h)

theorem log_eq_A0 {x : Symbol} : new.log x = A0 ↔ x = 0 := by
  constructor
  · intro h
    by_contra hx
    have hlt := log_lt hx
    rw [h] at hlt
    exact absurd hlt (by decide)
  · rintro rfl
    exact log_zero

theorem α_pow_log {x : Symbol} (hx : x ≠ 0) : α ^ new.log x = gf x := by
  rw [log_eq,← GF64.power_eq]
  refine (GF64.power_log (gf x) ?_).2
  intro h
  exact hx (congrArg GF64.symbol h)

end Rs6312

open Rs6312

/-- The element an index stands for. -/
def ofIndex (n : Nat) : GF64 := if n = A0 then 0 else α ^ n

@[simp] theorem ofIndex_A0 : ofIndex A0 = 0 := if_pos rfl

@[simp] theorem ofIndex_log (x : Symbol) : ofIndex (new.log x) = gf x := by
  by_cases hx : x = 0
  · subst hx
    rw [log_zero]
    rfl
  · rw [ofIndex,if_neg (fun h => hx (log_eq_A0.1 h)),α_pow_log hx]

theorem ofIndex_modnn (n : Nat) : ofIndex (modnn n) = α ^ n := by
  have hlt : modnn n < 63 := by
    rw [modnn_eq]
    exact Nat.mod_lt n (by decide)
  have hne : modnn n ≠ A0 := by
    rw [A0,NN]
    omega
  rw [ofIndex,if_neg hne,modnn_eq,← GF64.power_eq,← GF64.power_eq,GF64.power_mod]

theorem gf_xor (x y : Symbol) : gf (x ^^^ y) = gf x + gf y := rfl

theorem gf_eq_zero {x : Symbol} : gf x = 0 ↔ x = 0 :=
  ⟨fun h => congrArg GF64.symbol h,fun h => congrArg GF64.mk h⟩

section Accumulate
variable (acc x : Symbol) (a c : Nat)

/-- Adding a product whose second factor is in index form, guarded by its zero test. -/
theorem gf_add_index : gf (if c ≠ A0 then acc ^^^ new.pow (modnn (a + c)) else acc) =
    gf acc + α ^ a * ofIndex c := by
  by_cases hc : c = A0
  · rw [if_neg (not_not.2 hc),hc,ofIndex_A0,mul_zero,add_zero]
  · rw [if_pos hc,gf_xor,gf_pow_modnn,ofIndex,if_neg hc,pow_add]

/-- The same with the index first. -/
theorem gf_add_index' : gf (if c ≠ A0 then acc ^^^ new.pow (modnn (c + a)) else acc) =
    gf acc + ofIndex c * α ^ a := by
  rw [Nat.add_comm,gf_add_index,mul_comm]

/-- Adding a product of a symbol and an index, each guarded by its zero test. -/
theorem gf_add_log_index :
    gf (if x ≠ 0 ∧ c ≠ A0 then acc ^^^ new.pow (modnn (new.log x + c)) else acc) =
      gf acc + gf x * ofIndex c := by
  by_cases hx : x = 0
  · subst hx
    rw [if_neg (fun h => h.1 rfl)]
    exact (add_zero (gf acc)).symm.trans (by rw [← zero_mul (ofIndex c)]; rfl)
  · have hiff : (x ≠ 0 ∧ c ≠ A0) ↔ c ≠ A0 := by
      constructor
      · exact fun h => h.2
      · exact fun h => ⟨hx,h⟩
    rw [if_congr hiff rfl rfl,gf_add_index,α_pow_log hx]

/-- Adding a product of two indices. -/
theorem gf_add_index_index (d : Nat) :
    gf (if c ≠ A0 ∧ d ≠ A0 then acc ^^^ new.pow (modnn (c + d)) else acc) =
      gf acc + ofIndex c * ofIndex d := by
  by_cases hc : c = A0
  · rw [if_neg (fun h => h.1 hc),hc,ofIndex_A0,zero_mul,add_zero]
  · have hiff : (c ≠ A0 ∧ d ≠ A0) ↔ d ≠ A0 := by
      constructor
      · exact fun h => h.2
      · exact fun h => ⟨hc,h⟩
    have hof : ofIndex c = α ^ c := if_neg hc
    rw [if_congr hiff rfl rfl,gf_add_index,hof]

end Accumulate

section Folds
variable {β : Type*}

/-- A fold that adds a term per element adds their sum. -/
theorem gf_foldl (l : List β) (f : Symbol → β → Symbol) (g : β → GF64)
    (h : ∀ acc b, gf (f acc b) = gf acc + g b) (acc : Symbol) :
    gf (l.foldl f acc) = gf acc + (l.map g).sum := by
  induction l generalizing acc with
  | nil => simp
  | cons b l ih => rw [List.foldl_cons,ih,h,List.map_cons,List.sum_cons,add_assoc]

theorem gf_foldr (l : List β) (f : β → Symbol → Symbol) (g : β → GF64)
    (h : ∀ b ∈ l, ∀ acc, gf (f b acc) = gf acc + g b) (acc : Symbol) :
    gf (l.foldr f acc) = gf acc + (l.map g).sum := by
  induction l with
  | nil => simp
  | cons b l ih =>
    rw [List.foldr_cons,h b List.mem_cons_self,ih fun c hc => h c (List.mem_cons_of_mem b hc),
      List.map_cons,List.sum_cons,add_assoc,add_comm (l.map g).sum]

theorem sum_map_range (n : Nat) (g : Nat → GF64) :
    ((List.range n).map g).sum = ∑ i ∈ Finset.range n, g i := by
  induction n with
  | zero => rfl
  | succ n ih => rw [List.range_succ,List.map_append,List.sum_append,ih,Finset.sum_range_succ,
      List.map_singleton,List.sum_singleton]

/-- Cell by cell, a fold of whole-array updates is a fold on the cell. -/
theorem getD_foldl_mapIdx {γ : Type*} (l : List β) (f : β → Nat → γ → γ) (s : List γ) (i : Nat) (d : γ)
    (hi : i < s.length) :
    (l.foldl (fun s b => s.mapIdx (f b)) s).getD i d = l.foldl (fun x b => f b i x) (s.getD i d) := by
  induction l generalizing s with
  | nil => rfl
  | cons b l ih =>
    rw [List.foldl_cons,ih _ (by simpa using hi),List.foldl_cons]
    congr 1
    simp [List.getD_eq_getElem?_getD,hi]

end Folds

/-- The polynomial with the coefficients of a list, lowest first. -/
noncomputable def ofCoeffs (l : List GF64) : GF64[X] := ∑ i ∈ Finset.range l.length, C (l.getD i 0) * X ^ i

@[simp] theorem coeff_ofCoeffs (l : List GF64) (i : Nat) : (ofCoeffs l).coeff i = l.getD i 0 := by
  rw [ofCoeffs,Polynomial.finsetSum_coeff]
  simp only [Polynomial.coeff_C_mul,Polynomial.coeff_X_pow,mul_ite,mul_one,mul_zero]
  rw [Finset.sum_ite_eq]
  split
  · rfl
  · rename_i hi
    rw [List.getD_eq_default _ _ (by simpa using hi)]

/-- The polynomial of an array of symbols. -/
noncomputable def symbolPoly (l : List Symbol) : GF64[X] := ofCoeffs (l.map gf)

/-- The polynomial of an array of indices. -/
noncomputable def indexPoly (l : List Nat) : GF64[X] := ofCoeffs (l.map ofIndex)

@[simp] theorem coeff_symbolPoly (l : List Symbol) (i : Nat) :
    (symbolPoly l).coeff i = gf (l.getD i 0) := by
  rw [symbolPoly,coeff_ofCoeffs]
  exact List.getD_map _ _ gf

theorem coeff_indexPoly (l : List Nat) (i : Nat) (hi : i < l.length) :
    (indexPoly l).coeff i = ofIndex (l.getD i 0) := by
  rw [indexPoly,coeff_ofCoeffs]
  simp [List.getD_eq_getElem?_getD,hi]

theorem coeff_indexPoly_of_le (l : List Nat) (i : Nat) (hi : l.length ≤ i) : (indexPoly l).coeff i = 0 := by
  rw [indexPoly,coeff_ofCoeffs,List.getD_eq_default _ _ (by simpa using hi)]

@[simp] theorem indexPoly_map_log (l : List Symbol) : indexPoly (l.map new.log) = symbolPoly l := by
  rw [indexPoly,symbolPoly,List.map_map]
  congr 1
  apply List.map_congr_left
  intro x _
  exact ofIndex_log x

section Syndromes

/-- The locator of a symbol position. -/
def point (p : Fin NN) : GF64 := α ^ (62 - p.val)

/-- A word's symbols weighted for the first root of the generator polynomial. -/
def weighted (w : Word) (p : Fin NN) : GF64 := gf (w p) * point p ^ 3

/-- The syndromes of a word, as a power series. -/
noncomputable def syndromeSeries (w : Word) : PowerSeries GF64 := powerSums Finset.univ point (weighted w)

theorem coeff_syndromeSeries (w : Word) (i : Nat) :
    PowerSeries.coeff i (syndromeSeries w) = ∑ p, gf (w p) * point p ^ (3 + i) := by
  rw [syndromeSeries,powerSums,PowerSeries.coeff_mk]
  apply Finset.sum_congr rfl
  intro p _
  rw [weighted,mul_assoc,← pow_add]

private theorem ofFn_eq_cons {n : Nat} {β : Type*} (f : Fin (n + 1) → β) :
    List.ofFn f = f 0 :: (List.ofFn f).tail := by
  rw [List.ofFn_succ]
  rfl

/-- Horner's rule over an array. -/
private theorem foldl_horner {n : Nat} (f : Fin n → GF64) (β : GF64) :
    (List.ofFn f).foldl (fun v a => a + v * β) 0 = ∑ p, f p * β ^ (n - 1 - p.val) := by
  induction n with
  | zero => simp
  | succ n ih =>
    rw [List.ofFn_succ',List.concat_eq_append,List.foldl_append,ih,List.foldl_cons,List.foldl_nil,
      Fin.sum_univ_castSucc,Finset.sum_mul,add_comm]
    congr 1
    · apply Finset.sum_congr rfl
      intro p _
      have hexp : n + 1 - 1 - p.castSucc.val = (n - 1 - p.val) + 1 := by
        have := p.isLt
        simp only [Fin.val_castSucc]
        omega
      rw [hexp,pow_succ,mul_assoc]
    · simp

/-- A syndrome by Horner's rule over the word. -/
theorem coeff_syndromeSeries_horner (w : Word) (i : Nat) :
    PowerSeries.coeff i (syndromeSeries w) =
      (List.ofFn fun p => gf (w p)).foldl (fun v a => a + v * α ^ (3 + i)) 0 := by
  rw [foldl_horner,coeff_syndromeSeries]
  refine Finset.sum_congr rfl fun p _ => ?_
  rw [point,← pow_mul,← pow_mul,Nat.mul_comm]
  rfl

/-- Each syndrome the code computes is the word's power sum. -/
theorem gf_syndromes (w : Word) (i : Nat) (hi : i < NROOTS) :
    gf ((new.syndromes w).getD i 0) = PowerSeries.coeff i (syndromeSeries w) := by
  let f (v symbol : Symbol) : Symbol :=
    if v = 0 then symbol else symbol ^^^ new.pow (modnn (new.log v + (FCR + i) * PRIM))
  have hstep : ∀ v symbol, gf (f v symbol) = gf symbol + gf v * α ^ (3 + i) := by
    intro v symbol
    by_cases hv : v = 0
    · have hf : f v symbol = symbol := if_pos hv
      rw [hf,gf_eq_zero.2 hv,zero_mul,add_zero]
    · have hf : f v symbol = symbol ^^^ new.pow (modnn (new.log v + (FCR + i) * PRIM)) := if_neg hv
      have hprim : (FCR + i) * PRIM = 3 + i := by rw [FCR,PRIM,Nat.mul_one]
      rw [hf,gf_xor,gf_pow_modnn,pow_add,α_pow_log hv,hprim]
  have hfold : ∀ (l : List Symbol) (v : Symbol),
      gf (l.foldl f v) = (l.map gf).foldl (fun v a => a + v * α ^ (3 + i)) (gf v) := by
    intro l
    induction l with
    | nil => exact fun v => rfl
    | cons symbol l ih =>
      intro v
      rw [List.foldl_cons,ih,hstep]
      rfl
  have hword : List.ofFn w = w ⟨0,by decide⟩ :: (List.ofFn w).tail := ofFn_eq_cons (n := 62) w
  have hhorner := coeff_syndromeSeries_horner w i
  have hmap : List.ofFn (fun p => gf (w p)) = (List.ofFn w).map gf := List.map_ofFn.symm
  rw [hmap,hword,List.map_cons,List.foldl_cons,zero_mul,add_zero,← hfold] at hhorner
  have hcell : (new.syndromes w).getD i 0 = (List.ofFn w).tail.foldl f (w ⟨0,by decide⟩) := by
    rw [syndromes,getD_foldl_mapIdx _ (fun symbol i si => if si = 0 then symbol
      else symbol ^^^ new.pow (modnn (new.log si + (FCR + i) * PRIM))) _ _ _ (by simpa using hi),
      List.getD_replicate _ hi]
  rw [hcell,hhorner]

end Syndromes

end MfskCore.Fec
