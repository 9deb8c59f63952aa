import MfskCore.Fec.RsArithmetic

/-! The decoder's first half against the shift-register library: the erasure loop multiplies
out the erasure locator, and each Berlekamp-Massey step on index-form arrays is a step of
`Register` on polynomials, with no coefficient lost to the array bounds. -/
namespace MfskCore.Fec
open Polynomial Library Rs6312
open GF64 (α)

/-- The erasure locator, one factor for each listed position. -/
noncomputable def erasureFactor (eras : List Nat) : GF64[X] :=
  (eras.map fun pos => 1 - C (α ^ (62 - pos)) * X).prod

theorem erasureFactor_cons (pos : Nat) (rest : List Nat) :
    erasureFactor (pos :: rest) = (1 - C (α ^ (62 - pos)) * X) * erasureFactor rest := by
  rw [erasureFactor,List.map_cons,List.prod_cons]
  rfl

section Erasures

theorem α_pow_modnn (n : Nat) : α ^ modnn n = α ^ n := by
  rw [modnn_eq,← GF64.power_eq,← GF64.power_eq,GF64.power_mod]

private theorem α_pow_locatorExponent (pos : Nat) : α ^ locatorExponent pos = α ^ (62 - pos) := by
  rw [locatorExponent,α_pow_modnn,PRIM,Nat.one_mul,NN]

private theorem coeff_mul_factor (p : GF64[X]) (β : GF64) (j : Nat) :
    (p * (1 - C β * X)).coeff (j + 1) = p.coeff (j + 1) + β * p.coeff j := by
  have hring : p * (1 - C β * X) = p - C β * (p * X) := by ring
  rw [hring,Polynomial.coeff_sub,Polynomial.coeff_C_mul,Polynomial.coeff_mul_X]
  rfl

/-- One pass of the erasure loop multiplies by one factor. -/
private theorem symbolPoly_erasureStep (lambda : List Symbol) (i pos : Nat) (hlen : lambda.length = 52)
    (hdeg : (symbolPoly lambda).natDegree ≤ i) (hi : i + 1 ≤ 51) :
    symbolPoly (lambda.mapIdx fun j x =>
      if 1 ≤ j ∧ j ≤ i + 1 then
        let tmp := new.log (lambda.getD (j - 1) 0)
        if tmp ≠ A0 then x ^^^ new.pow (modnn (locatorExponent pos + tmp)) else x
      else x) = symbolPoly lambda * (1 - C (α ^ (62 - pos)) * X) := by
  apply Polynomial.ext
  intro j
  rw [coeff_symbolPoly]
  have hhigh : ∀ k, i < k → gf (lambda.getD k 0) = 0 := by
    intro k hk
    rw [← coeff_symbolPoly]
    exact Polynomial.coeff_eq_zero_of_natDegree_lt (lt_of_le_of_lt hdeg hk)
  cases j with
  | zero =>
    have hget : 0 < lambda.length := by omega
    rw [Polynomial.mul_coeff_zero]
    simp [List.getD_eq_getElem?_getD,hget]
  | succ j =>
    rw [coeff_mul_factor,coeff_symbolPoly,coeff_symbolPoly]
    by_cases hj : j + 1 < 52
    · have hget : (lambda.mapIdx fun j x =>
          if 1 ≤ j ∧ j ≤ i + 1 then
            let tmp := new.log (lambda.getD (j - 1) 0)
            if tmp ≠ A0 then x ^^^ new.pow (modnn (locatorExponent pos + tmp)) else x
          else x).getD (j + 1) 0 =
          if 1 ≤ j + 1 ∧ j + 1 ≤ i + 1 then
            if new.log (lambda.getD j 0) ≠ A0 then
              lambda.getD (j + 1) 0 ^^^ new.pow (modnn (locatorExponent pos + new.log (lambda.getD j 0)))
            else lambda.getD (j + 1) 0
          else lambda.getD (j + 1) 0 := by
        have hin : j + 1 < lambda.length := by omega
        simp [List.getD_eq_getElem?_getD,hin]
      rw [hget]
      by_cases hji : j ≤ i
      · rw [if_pos (by omega),gf_add_index,ofIndex_log,α_pow_locatorExponent]
      · rw [if_neg (by omega),hhigh j (by omega),mul_zero,add_zero]
    · have hout : ∀ l : List Symbol, l.length = 52 → l.getD (j + 1) 0 = 0 := by
        intro l hl
        exact List.getD_eq_default _ _ (by omega)
      rw [hout _ (by simpa using hlen),hout _ hlen,hhigh j (by omega),mul_zero,add_zero]

theorem length_erasureLoop (i : Nat) (eras : List Nat) (lambda : List Symbol) :
    (new.erasureLoop i eras lambda).length = lambda.length := by
  induction eras generalizing i lambda with
  | nil => rfl
  | cons pos rest ih => rw [erasureLoop,ih,List.length_mapIdx]

private theorem natDegree_mul_factor (p : GF64[X]) (β : GF64) {i : Nat} (h : p.natDegree ≤ i) :
    (p * (1 - C β * X)).natDegree ≤ i + 1 := by
  rw [Polynomial.natDegree_le_iff_coeff_eq_zero]
  intro j hj
  obtain ⟨j,rfl⟩ : ∃ k, j = k + 1 := ⟨j - 1,by omega⟩
  rw [coeff_mul_factor,Polynomial.coeff_eq_zero_of_natDegree_lt (by omega),
    Polynomial.coeff_eq_zero_of_natDegree_lt (by omega),mul_zero,add_zero]

theorem symbolPoly_erasureLoop (i : Nat) (eras : List Nat) (lambda : List Symbol)
    (hlen : lambda.length = 52) (hdeg : (symbolPoly lambda).natDegree ≤ i) (hi : i + eras.length ≤ 51) :
    symbolPoly (new.erasureLoop i eras lambda) = symbolPoly lambda * erasureFactor eras := by
  induction eras generalizing i lambda with
  | nil =>
    rw [erasureLoop,erasureFactor,List.map_nil,List.prod_nil,mul_one]
  | cons pos rest ih =>
    rw [List.length_cons] at hi
    have hstep := symbolPoly_erasureStep lambda i pos hlen hdeg (by omega)
    rw [erasureLoop]
    dsimp only at hstep ⊢
    rw [ih (i + 1) _ (by simpa using hlen) (by rw [hstep]; exact natDegree_mul_factor _ _ hdeg) (by omega),
      hstep,erasureFactor_cons,mul_assoc]

private theorem getD_replicate_zero (n j : Nat) : (List.replicate n (0 : Symbol)).getD j 0 = 0 := by
  by_cases hj : j < n
  · exact List.getD_replicate 0 hj
  · exact List.getD_eq_default _ _ (by simpa using hj)

theorem symbolPoly_one : symbolPoly (1 :: List.replicate NROOTS 0) = 1 := by
  apply Polynomial.ext
  intro j
  rw [coeff_symbolPoly,Polynomial.coeff_one]
  cases j with
  | zero => rfl
  | succ j =>
    rw [if_neg (by omega),List.getD_cons_succ,getD_replicate_zero]
    rfl

/-- The erasure loop computes the erasure locator. -/
theorem symbolPoly_erasureLocator (eras : List Nat) (h : eras.length ≤ 51) :
    symbolPoly (new.erasureLocator eras) = erasureFactor eras := by
  cases eras with
  | nil => exact symbolPoly_one
  | cons pos rest =>
    have hlist : (1 :: List.replicate NROOTS 0).set 1 (new.pow (locatorExponent pos)) =
        1 :: new.pow (locatorExponent pos) :: List.replicate 50 0 := rfl
    have hpow : gf (new.pow (locatorExponent pos)) = α ^ (62 - pos) := by
      rw [locatorExponent,gf_pow_modnn,PRIM,Nat.one_mul,NN]
    have hfirst : symbolPoly ((1 :: List.replicate NROOTS 0).set 1 (new.pow (locatorExponent pos))) =
        1 * (1 - C (α ^ (62 - pos)) * X) := by
      apply Polynomial.ext
      intro j
      rw [hlist,coeff_symbolPoly]
      rcases j with _ | _ | j
      · rw [Polynomial.mul_coeff_zero]
        simp
        rfl
      · rw [coeff_mul_factor,Polynomial.coeff_one,Polynomial.coeff_one]
        simpa using hpow
      · rw [coeff_mul_factor,Polynomial.coeff_one,Polynomial.coeff_one,if_neg (by omega),
          if_neg (by omega),List.getD_cons_succ,List.getD_cons_succ,getD_replicate_zero,mul_zero,add_zero]
        rfl
    rw [erasureLocator]
    rw [symbolPoly_erasureLoop 1 rest _ (by simp [NROOTS]) ?_ (by rw [List.length_cons] at h; omega),
      hfirst,one_mul,erasureFactor_cons]
    rw [hfirst]
    exact natDegree_mul_factor 1 _ (by simp)

theorem length_erasureLocator (eras : List Nat) : (new.erasureLocator eras).length = 52 := by
  cases eras with
  | nil => rfl
  | cons pos rest =>
    rw [erasureLocator,length_erasureLoop]
    rfl

theorem coeff_erasureFactor_zero (eras : List Nat) : (erasureFactor eras).coeff 0 = 1 := by
  induction eras with
  | nil => simp [erasureFactor]
  | cons pos rest ih =>
    rw [erasureFactor_cons,Polynomial.mul_coeff_zero,ih]
    simp

theorem natDegree_erasureFactor (eras : List Nat) : (erasureFactor eras).natDegree = eras.length := by
  have hfactor : ∀ n : Nat, (1 - C (α ^ n) * X : GF64[X]).natDegree = 1 := fun n =>
    natDegree_factor (pow_ne_zero n GF64.α_ne_zero)
  induction eras with
  | nil => simp [erasureFactor]
  | cons pos rest ih =>
    have hne : ∀ p : GF64[X], p.coeff 0 = 1 → p ≠ 0 := by
      rintro p hp rfl
      simp at hp
    rw [erasureFactor_cons,Polynomial.natDegree_mul (hne _ (by simp))
      (hne _ (coeff_erasureFactor_zero rest)),hfactor,ih,List.length_cons,Nat.add_comm]

end Erasures

section BerlekampMassey
variable {S : PowerSeries GF64} {s : List Nat} {st : Locator} {reg : Register GF64} {noEras r : Nat}

/-- The index-form syndromes of a series. -/
def SyndromesOf (S : PowerSeries GF64) (s : List Nat) : Prop :=
  ∀ j < 51, ofIndex (s.getD j 0) = PowerSeries.coeff j S

/-- The arrays of a step hold the polynomials of a register. -/
structure Refines (st : Locator) (reg : Register GF64) : Prop where
  lambda_length : st.lambda.length = 52
  b_length : st.b.length = 52
  lambda : symbolPoly st.lambda = reg.connection
  b : indexPoly st.b = reg.previous
  el : st.el = reg.len

theorem gf_discrepancy (hS : SyndromesOf S s) (lambda : List Symbol) (hr : r < 51) :
    gf (new.discrepancy s lambda (r + 1)) = residual S (symbolPoly lambda) r := by
  have hfold := gf_foldl (List.range (r + 1)) (fun discr i =>
    if lambda.getD i 0 ≠ 0 ∧ s.getD (r + 1 - i - 1) 0 ≠ A0 then
      discr ^^^ new.pow (modnn (new.log (lambda.getD i 0) + s.getD (r + 1 - i - 1) 0))
    else discr) (fun i => gf (lambda.getD i 0) * ofIndex (s.getD (r + 1 - i - 1) 0))
    (fun acc i => gf_add_log_index acc _ _) 0
  rw [discrepancy,hfold,sum_map_range,residual_eq_sum]
  refine (zero_add _).trans (Finset.sum_congr rfl fun i hi => ?_)
  have hexp : r + 1 - i - 1 = r - i := by omega
  rw [hexp,hS _ (by omega),coeff_symbolPoly]

private theorem coeff_previous_zero (h : Refines st reg) (hdeg : reg.previous.natDegree ≤ 50) (j : Nat)
    (hj : 51 ≤ j) : (indexPoly st.b).coeff j = 0 := by
  rw [h.b]
  exact Polynomial.coeff_eq_zero_of_natDegree_lt (by omega)

/-- The shifted array is the shifted polynomial. -/
private theorem indexPoly_shiftB (h : Refines st reg) (hdeg : reg.previous.natDegree ≤ 50) :
    indexPoly (shiftB st.b) = X * reg.previous := by
  have hlen := h.b_length
  have hshift : (shiftB st.b).length = 52 := by simp [shiftB,hlen]
  rw [← h.b]
  apply Polynomial.ext
  intro j
  cases j with
  | zero =>
    rw [coeff_indexPoly _ _ (by omega),Polynomial.mul_coeff_zero,Polynomial.coeff_X_zero,zero_mul]
    exact ofIndex_A0
  | succ j =>
    rw [Polynomial.coeff_X_mul]
    by_cases hj : j < 51
    · rw [coeff_indexPoly _ _ (by omega),coeff_indexPoly _ _ (by omega),shiftB,List.getD_cons_succ]
      rw [List.getD_eq_getElem?_getD,List.getD_eq_getElem?_getD,List.getElem?_dropLast,
        if_pos (by omega)]
    · rw [coeff_indexPoly_of_le _ _ (by omega),coeff_previous_zero h hdeg j (by omega)]

/-- The corrected array is the corrected polynomial. -/
private theorem symbolPoly_corrected (h : Refines st reg) (hdeg : reg.previous.natDegree ≤ 50)
    {δ : Symbol} (hδ : δ ≠ 0) :
    symbolPoly (st.lambda.getD 0 0 :: (List.range NROOTS).map fun i =>
      if st.b.getD i 0 ≠ A0 then
        st.lambda.getD (i + 1) 0 ^^^ new.pow (modnn (new.log δ + st.b.getD i 0))
      else st.lambda.getD (i + 1) 0) = reg.connection - C (gf δ) * (X * reg.previous) := by
  have hlen := h.lambda_length
  have hblen := h.b_length
  rw [← h.b,← h.lambda]
  apply Polynomial.ext
  intro j
  rw [coeff_symbolPoly,Polynomial.coeff_sub,Polynomial.coeff_C_mul]
  cases j with
  | zero =>
    rw [Polynomial.mul_coeff_zero,Polynomial.coeff_X_zero,zero_mul,mul_zero,sub_zero,coeff_symbolPoly,
      List.getD_cons_zero]
  | succ j =>
    rw [Polynomial.coeff_X_mul,List.getD_cons_succ,coeff_symbolPoly]
    by_cases hj : j < 51
    · have hget : ∀ f : Nat → Symbol, ((List.range NROOTS).map f).getD j 0 = f j := by
        intro f
        have hin : j < NROOTS := hj
        simp [List.getD_eq_getElem?_getD,hin]
      rw [hget,gf_add_index,α_pow_log hδ,coeff_indexPoly _ _ (by omega)]
      rfl
    · have hout : ∀ f : Nat → Symbol, ((List.range NROOTS).map f).getD j 0 = 0 := by
        intro f
        refine List.getD_eq_default _ _ ?_
        rw [List.length_map,List.length_range,NROOTS]
        omega
      rw [hout,coeff_previous_zero h hdeg j (by omega),List.getD_eq_default _ _ (by omega),mul_zero,
        sub_zero]

/-- The normalised array is the normalised polynomial. -/
private theorem indexPoly_normalised (h : Refines st reg) {δ : Symbol} (hδ : δ ≠ 0) :
    indexPoly ((List.range (NROOTS + 1)).map fun i =>
      if st.lambda.getD i 0 = 0 then A0 else modnn (new.log (st.lambda.getD i 0) + NN - new.log δ)) =
      C (gf δ)⁻¹ * reg.connection := by
  have hlen := h.lambda_length
  rw [← h.lambda]
  apply Polynomial.ext
  intro j
  rw [Polynomial.coeff_C_mul,coeff_symbolPoly]
  by_cases hj : j < 52
  · have hin : j < NROOTS + 1 := hj
    rw [coeff_indexPoly _ _ (by simpa using hin)]
    have hget : ∀ f : Nat → Nat, ((List.range (NROOTS + 1)).map f).getD j 0 = f j := by
      intro f
      simp [List.getD_eq_getElem?_getD,hin]
    rw [hget]
    by_cases hz : st.lambda.getD j 0 = 0
    · rw [if_pos hz,ofIndex_A0,gf_eq_zero.2 hz,mul_zero]
    · have hlt := log_lt hδ
      have hexp : new.log δ + (new.log (st.lambda.getD j 0) + NN - new.log δ) =
          new.log (st.lambda.getD j 0) + 63 := by
        rw [NN]
        omega
      have hprod : gf δ * α ^ (new.log (st.lambda.getD j 0) + NN - new.log δ) = gf (st.lambda.getD j 0) := by
        rw [← α_pow_log hδ,← pow_add,hexp,pow_add,GF64.α_pow_63,mul_one,α_pow_log hz]
      have hne : gf δ ≠ 0 := fun h0 => hδ (gf_eq_zero.1 h0)
      rw [if_neg hz,ofIndex_modnn,← hprod,inv_mul_cancel_left₀ hne]
  · rw [coeff_indexPoly_of_le _ _ (by simp [NROOTS]; omega),List.getD_eq_default _ _ (by omega)]
    exact (mul_zero _).symm

/-- One step of the code is one step of the register. -/
theorem refines_step (hS : SyndromesOf S s) (h : Refines st reg) (hdeg : reg.previous.natDegree ≤ 50)
    (hr : r < 51) : Refines (new.berlekampMasseyStep s noEras st (r + 1)) (Register.step S noEras reg r) := by
  have hdiscr : gf (new.discrepancy s st.lambda (r + 1)) = residual S reg.connection r := by
    rw [gf_discrepancy hS _ hr,h.lambda]
  rw [berlekampMasseyStep,Register.step]
  by_cases hδ : new.discrepancy s st.lambda (r + 1) = 0
  · have hz : residual S reg.connection r = 0 := by rw [← hdiscr,gf_eq_zero.2 hδ]
    rw [if_pos (log_eq_A0.2 hδ),if_pos hz]
    exact ⟨h.lambda_length,by simp [shiftB,h.b_length],h.lambda,indexPoly_shiftB h hdeg,h.el⟩
  · have hz : residual S reg.connection r ≠ 0 := by
      rw [← hdiscr]
      exact fun h0 => hδ (gf_eq_zero.1 h0)
    have hT := symbolPoly_corrected h hdeg hδ
    rw [hdiscr] at hT
    rw [if_neg (fun h0 => hδ (log_eq_A0.1 h0)),if_neg hz]
    dsimp only
    rw [h.el]
    by_cases hchange : 2 * reg.len < r + 1 + noEras
    · have hN := indexPoly_normalised h hδ
      rw [hdiscr] at hN
      rw [if_pos hchange,if_pos hchange]
      exact ⟨by simp [NROOTS],by simp [NROOTS],hT,hN,rfl⟩
    · rw [if_neg hchange,if_neg hchange]
      exact ⟨by simp [NROOTS],by simp [shiftB,h.b_length],hT,indexPoly_shiftB h hdeg,rfl⟩

/-- The whole loop of the code is a run of the register. -/
theorem refines_run (hS : SyndromesOf S s) (eras : List Nat) (h : eras.length ≤ 51) :
    Refines (new.berlekampMassey s eras)
      (Register.run S (erasureFactor eras) eras.length (51 - eras.length)) := by
  have hrun : ∀ n ≤ 51 - eras.length, Refines
      ((List.range' (eras.length + 1) n).foldl (new.berlekampMasseyStep s eras.length)
        ⟨new.erasureLocator eras,(new.erasureLocator eras).map new.log,eras.length⟩)
      (Register.run S (erasureFactor eras) eras.length n) := by
    intro n
    induction n with
    | zero =>
      intro _
      have hΓ := symbolPoly_erasureLocator eras h
      refine ⟨length_erasureLocator eras,?_,hΓ,?_,rfl⟩
      · exact (List.length_map _).trans (length_erasureLocator eras)
      · exact (indexPoly_map_log _).trans hΓ
    | succ n ih =>
      intro hn
      have hinv := Register.invariant_run (S := S) (natDegree_erasureFactor eras)
        (coeff_erasureFactor_zero eras) n
      have hdeg : (Register.run S (erasureFactor eras) eras.length n).previous.natDegree ≤ 50 := by
        have hsum := hinv.degree_previous
        have hle := hinv.le_len
        omega
      rw [List.range'_concat,List.foldl_append,Register.run,List.range'_concat,List.foldl_append,
        Nat.one_mul,Nat.add_right_comm]
      exact refines_step hS (ih (by omega)) hdeg (by omega)
  exact hrun _ le_rfl

end BerlekampMassey

end MfskCore.Fec
