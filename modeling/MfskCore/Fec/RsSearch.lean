import MfskCore.Fec.RsLocator

/-! The decoder's second half: the Chien search lists the roots of the locator in order of
position, and Forney's formula adds the quotient of evaluator and formal derivative to the
symbol at each of them. -/
namespace MfskCore.Fec
open Polynomial Library Rs6312
open GF64 (α)

section Degree

/-- The degree loop finds the degree. -/
theorem degree_eq (lambda : List Nat) (hlen : lambda.length = 52) :
    degree lambda = (indexPoly lambda).natDegree := by
  have hcoeff : ∀ i < 52, lambda.getD i 0 ≠ A0 ↔ (indexPoly lambda).coeff i ≠ 0 := by
    intro i hi
    rw [coeff_indexPoly _ _ (by omega),ofIndex]
    by_cases h : lambda.getD i 0 = A0
    · rw [if_pos h]
      exact ⟨fun hc => absurd h hc,fun hc => absurd rfl hc⟩
    · rw [if_neg h]
      exact ⟨fun _ => pow_ne_zero _ GF64.α_ne_zero,fun _ => h⟩
  have hloop : ∀ n ≤ 52,
      let d := (List.range n).foldl (fun deg i => if lambda.getD i 0 ≠ A0 then i else deg) 0
      (∀ i < n, d < i → (indexPoly lambda).coeff i = 0) ∧ (d = 0 ∨ (indexPoly lambda).coeff d ≠ 0) := by
    intro n
    induction n with
    | zero => exact fun _ => ⟨fun i hi => absurd hi (by omega),.inl rfl⟩
    | succ n ih =>
      intro hn
      obtain ⟨hzero,hlast⟩ := ih (by omega)
      rw [List.range_succ,List.foldl_append,List.foldl_cons,List.foldl_nil]
      dsimp only
      by_cases hx : lambda.getD n 0 ≠ A0
      · rw [if_pos hx]
        exact ⟨fun i hi hlt => absurd hlt (by omega),.inr ((hcoeff n (by omega)).1 hx)⟩
      · rw [if_neg hx]
        refine ⟨fun i hi hlt => ?_,hlast⟩
        by_cases hin : i = n
        · subst hin
          by_contra hne
          exact hx ((hcoeff i (by omega)).2 hne)
        · exact hzero i (by omega) hlt
  obtain ⟨hzero,hlast⟩ := hloop 52 le_rfl
  apply le_antisymm
  · rcases hlast with h0 | hne
    · exact h0.le.trans (Nat.zero_le _)
    · exact Polynomial.le_natDegree_of_ne_zero hne
  · rw [Polynomial.natDegree_le_iff_coeff_eq_zero]
    intro i hi
    by_cases hin : i < 52
    · exact hzero i hin hi
    · exact coeff_indexPoly_of_le _ _ (by omega)

end Degree

section Chien
variable {Λ : GF64[X]}

theorem point_inv (p : Fin NN) : (point p)⁻¹ = α ^ (p.val + 1) := by
  have hp : p.val < 63 := p.isLt
  have hprod : point p * α ^ (p.val + 1) = 1 := by
    rw [point,← pow_add,← GF64.α_pow_63]
    congr 1
    omega
  exact inv_eq_of_mul_eq_one_right hprod

theorem point_ne_zero (p : Fin NN) : point p ≠ 0 := pow_ne_zero _ GF64.α_ne_zero

theorem point_injective : Function.Injective point := by
  intro p q h
  have hp : p.val < 63 := p.isLt
  have hq : q.val < 63 := q.isLt
  have hexp := GF64.α_pow_injOn (by omega) (by omega) h
  exact Fin.ext (by omega)

/-- The positions whose inverse points are roots, in increasing order. -/
noncomputable def rootList (Λ : GF64[X]) : List (Fin NN) :=
  (List.finRange NN).filter fun p => Λ.eval (point p)⁻¹ = 0

noncomputable def rootSet (Λ : GF64[X]) : Finset (Fin NN) := (rootList Λ).toFinset

theorem mem_rootList {p : Fin NN} : p ∈ rootList Λ ↔ Λ.eval (point p)⁻¹ = 0 := by
  simp [rootList]

theorem mem_rootSet {p : Fin NN} : p ∈ rootSet Λ ↔ Λ.eval (point p)⁻¹ = 0 := by
  rw [rootSet,List.mem_toFinset,mem_rootList]

theorem nodup_rootList (Λ : GF64[X]) : (rootList Λ).Nodup := (List.nodup_finRange NN).filter _

theorem length_rootList (Λ : GF64[X]) : (rootList Λ).length = (rootSet Λ).card :=
  (List.toFinset_card_of_nodup (nodup_rootList Λ)).symm

theorem card_rootSet_le (h0 : Λ ≠ 0) : (rootSet Λ).card ≤ Λ.natDegree := by
  have hinj : Function.Injective fun p => (point p)⁻¹ := fun p q h => point_injective (inv_injective h)
  rw [← Finset.card_image_of_injective (rootSet Λ) hinj]
  apply Polynomial.card_le_degree_of_subset_roots
  intro a ha
  rw [Finset.mem_val] at ha
  obtain ⟨p,hp,rfl⟩ := Finset.mem_image.1 ha
  exact (Polynomial.mem_roots h0).2 (mem_rootSet.1 hp)

/-- The registers of the search before exponent `k + 1`. -/
def ChienRegisters (Λ : GF64[X]) (k : Nat) (reg : List Nat) : Prop :=
  reg.length = 52 ∧ ∀ j, 1 ≤ j → j ≤ Λ.natDegree → ofIndex (reg.getD j 0) = Λ.coeff j * α ^ (j * k)

private theorem chienRegisters_next {k : Nat} {reg : List Nat} (h : ChienRegisters Λ k reg)
    (hdeg : Λ.natDegree ≤ 51) :
    ChienRegisters Λ (k + 1) (reg.mapIdx fun j x =>
      if 1 ≤ j ∧ j ≤ Λ.natDegree ∧ x ≠ A0 then modnn (x + j) else x) := by
  refine ⟨by simpa using h.1,fun j hj hjd => ?_⟩
  have hin : j < reg.length := by
    rw [h.1]
    omega
  have hget : (reg.mapIdx fun j x =>
      if 1 ≤ j ∧ j ≤ Λ.natDegree ∧ x ≠ A0 then modnn (x + j) else x).getD j 0 =
      if 1 ≤ j ∧ j ≤ Λ.natDegree ∧ reg.getD j 0 ≠ A0 then modnn (reg.getD j 0 + j) else reg.getD j 0 := by
    simp [List.getD_eq_getElem?_getD,hin]
  rw [hget,Nat.mul_succ,pow_add,← mul_assoc,← h.2 j hj hjd]
  by_cases hx : reg.getD j 0 = A0
  · rw [if_neg (fun hc => hc.2.2 hx),hx,ofIndex_A0,zero_mul]
  · have hof : ofIndex (reg.getD j 0) = α ^ reg.getD j 0 := if_neg hx
    rw [if_pos ⟨hj,hjd,hx⟩,ofIndex_modnn,hof,pow_add]

/-- The sum the search tests is the value of the locator. -/
private theorem gf_chien_sum {k : Nat} {reg : List Nat} (h : ChienRegisters Λ k reg)
    (hdeg : Λ.natDegree ≤ 51) (h0 : Λ.coeff 0 = 1) :
    gf ((List.range' 1 Λ.natDegree).foldr (fun j q =>
      if reg.getD j 0 ≠ A0 then q ^^^ new.pow ((reg.mapIdx fun j x =>
        if 1 ≤ j ∧ j ≤ Λ.natDegree ∧ x ≠ A0 then modnn (x + j) else x).getD j 0) else q) 1) =
      Λ.eval (α ^ (k + 1)) := by
  have hnext := chienRegisters_next h hdeg
  rw [gf_foldr _ _ (fun j => Λ.coeff j * α ^ (j * (k + 1)))]
  · rw [List.range'_eq_map_range,List.map_map,sum_map_range,Polynomial.eval_eq_sum_range,
      Finset.sum_range_succ',h0,pow_zero,mul_one,add_comm]
    congr 1
    apply Finset.sum_congr rfl
    intro j _
    rw [Function.comp_apply,Nat.add_comm 1 j,Nat.mul_comm,pow_mul]
  · intro j hj acc
    rw [List.mem_range'_1] at hj
    rw [← hnext.2 j hj.1 (by omega)]
    have hin : j < reg.length := by
      rw [h.1]
      omega
    have hget : (reg.mapIdx fun j x =>
        if 1 ≤ j ∧ j ≤ Λ.natDegree ∧ x ≠ A0 then modnn (x + j) else x).getD j 0 =
        if 1 ≤ j ∧ j ≤ Λ.natDegree ∧ reg.getD j 0 ≠ A0 then modnn (reg.getD j 0 + j)
        else reg.getD j 0 := by
      simp [List.getD_eq_getElem?_getD,hin]
    rw [hget]
    by_cases hx : reg.getD j 0 = A0
    · rw [if_neg (not_not.2 hx),if_neg (fun hc => hc.2.2 hx),hx,ofIndex_A0,add_zero]
    · rw [if_pos hx,if_pos ⟨hj.1,by omega,hx⟩,ofIndex_modnn,gf_xor,gf_pow_modnn]

/-- The roots from position `k` on. -/
private noncomputable def rootsFrom (Λ : GF64[X]) (k n : Nat) : List Nat :=
  (List.range' k n).filter fun p => Λ.eval (α ^ (p + 1)) = 0

private theorem modnn_succ (k : Nat) : modnn (k % 63 + findIprim) = (k + 1) % 63 := by
  have hiprim : findIprim = 1 := by decide
  rw [modnn_eq,hiprim,Nat.mod_add_mod]

/-- The search appends the roots that are left, as long as there are no more than it expects. -/
private theorem chienSearch_eq (n k : Nat) (reg : List Nat) (found : List (Nat × Nat))
    (h : ChienRegisters Λ k reg) (hdeg : Λ.natDegree ≤ 51) (h0 : Λ.coeff 0 = 1) (hkn : k + n = 63)
    (hroom : found.length + (rootsFrom Λ k n).length ≤ Λ.natDegree) :
    new.chienSearch Λ.natDegree (List.range' (k + 1) n) reg (k % 63) found =
      found ++ (rootsFrom Λ k n).map fun p => (p + 1,p) := by
  induction n generalizing k reg found with
  | zero => simp [chienSearch,rootsFrom]
  | succ n ih =>
    have hsum := gf_chien_sum h hdeg h0
    have hnext := chienRegisters_next h hdeg
    rw [List.range'_succ,chienSearch]
    dsimp only
    have hk : k % 63 = k := Nat.mod_eq_of_lt (by omega)
    by_cases hroot : Λ.eval (α ^ (k + 1)) = 0
    · have hlist : rootsFrom Λ k (n + 1) = k :: rootsFrom Λ (k + 1) n := by
        rw [rootsFrom,List.range'_succ,List.filter_cons_of_pos (by simpa using hroot),rootsFrom]
      rw [hlist,List.length_cons] at hroom
      rw [hroot,gf_eq_zero] at hsum
      rw [if_neg (not_not.2 hsum),hlist,List.map_cons]
      have happ : found ++ [(k + 1,k % 63)] ++ (rootsFrom Λ (k + 1) n).map (fun p => (p + 1,p)) =
          found ++ (k + 1,k) :: (rootsFrom Λ (k + 1) n).map fun p => (p + 1,p) := by
        rw [hk,List.append_assoc,List.singleton_append]
      rw [← happ]
      split
      · rename_i hfull
        have hnil : rootsFrom Λ (k + 1) n = [] := by
          rw [List.length_append,List.length_singleton] at hfull
          exact List.eq_nil_of_length_eq_zero (by omega)
        rw [hnil,List.map_nil,List.append_nil]
      · rw [modnn_succ]
        exact ih (k + 1) _ _ hnext (by omega) (by rw [List.length_append,List.length_singleton]; omega)
    · have hlist : rootsFrom Λ k (n + 1) = rootsFrom Λ (k + 1) n := by
        rw [rootsFrom,List.range'_succ,List.filter_cons_of_neg (by simpa using hroot),rootsFrom]
      rw [hlist] at hroom ⊢
      have hne : _ ≠ (0 : Symbol) := fun hz => hroot (hsum.symm.trans (gf_eq_zero.2 hz))
      rw [if_pos hne,modnn_succ]
      exact ih (k + 1) _ _ hnext (by omega) hroom

/-- The search finds all roots, with their positions. -/
theorem roots_eq (lambda : List Nat) (hlen : lambda.length = 52) (hΛ : indexPoly lambda = Λ)
    (h0 : Λ.coeff 0 = 1) (hdeg : Λ.natDegree ≤ 51) :
    new.roots Λ.natDegree lambda = (rootList Λ).map fun p => (p.val + 1,p.val) := by
  have hne : Λ ≠ 0 := by
    rintro rfl
    simp at h0
  have hlist : rootsFrom Λ 0 63 = (rootList Λ).map Fin.val := by
    have hrange : List.range' 0 63 = (List.finRange NN).map Fin.val := by decide
    rw [rootsFrom,hrange,List.filter_map,rootList]
    refine congrArg (List.map Fin.val) (List.filter_congr fun p _ => ?_)
    rw [Function.comp_apply,point_inv]
  have hlength : (rootsFrom Λ 0 63).length ≤ Λ.natDegree := by
    rw [hlist,List.length_map,length_rootList]
    exact card_rootSet_le hne
  have hreg : ChienRegisters Λ 0 (0 :: lambda.tail) := by
    refine ⟨by simp [hlen],fun j hj hjd => ?_⟩
    obtain ⟨j,rfl⟩ : ∃ i, j = i + 1 := ⟨j - 1,by omega⟩
    rw [List.getD_cons_succ,Nat.mul_zero,pow_zero,mul_one,← hΛ,coeff_indexPoly _ _ (by omega)]
    congr 1
    rw [List.getD_eq_getElem?_getD,List.getD_eq_getElem?_getD,List.getElem?_tail]
  have hstart : modnn (findIprim + NN - 1) = 0 % 63 := by decide
  rw [Rs6312.roots,hstart,show List.range' 1 NN = List.range' (0 + 1) 63 from rfl,
    chienSearch_eq 63 0 _ [] hreg hdeg h0 (by omega) (by simpa using hlength),hlist,List.map_map,
    List.nil_append]
  rfl

end Chien

section Forney
variable {S : PowerSeries GF64} {s lambda : List Nat} {Λ : GF64[X]}

/-- The evaluator array holds the residuals of the locator. -/
theorem coeff_omega (hS : SyndromesOf S s) (hΛ : indexPoly lambda = Λ) (hlen : lambda.length = 52)
    {degOmega i : Nat} (hi : i ≤ degOmega) (hd : degOmega < 51) :
    (indexPoly (new.omega s lambda degOmega)).coeff i = residual S Λ i := by
  have hfold := gf_foldl (List.range (i + 1)) (fun tmp j =>
    if s.getD (i - j) 0 ≠ A0 ∧ lambda.getD j 0 ≠ A0 then
      tmp ^^^ new.pow (modnn (s.getD (i - j) 0 + lambda.getD j 0))
    else tmp) (fun j => ofIndex (s.getD (i - j) 0) * ofIndex (lambda.getD j 0))
    (fun acc j => gf_add_index_index acc _ _) 0
  have hget : (new.omega s lambda degOmega).getD i 0 = new.log ((List.range (i + 1)).foldl (fun tmp j =>
      if s.getD (i - j) 0 ≠ A0 ∧ lambda.getD j 0 ≠ A0 then
        tmp ^^^ new.pow (modnn (s.getD (i - j) 0 + lambda.getD j 0))
      else tmp) 0) := by
    have hin : i < degOmega + 1 := by omega
    simp [omega,List.getD_eq_getElem?_getD,hin]
  rw [coeff_indexPoly _ _ (by simp [omega]; omega),hget,ofIndex_log,hfold,sum_map_range,residual_eq_sum]
  refine (zero_add _).trans (Finset.sum_congr rfl fun j hj => ?_)
  rw [Finset.mem_range] at hj
  rw [hS _ (by omega),← hΛ,coeff_indexPoly _ _ (by omega),mul_comm]

theorem length_omega (degOmega : Nat) : (new.omega s lambda degOmega).length = degOmega + 1 := by
  simp [omega]

private theorem eval_indexPoly (l : List Nat) (x : GF64) :
    (indexPoly l).eval x = ∑ i ∈ Finset.range l.length, ofIndex (l.getD i 0) * x ^ i := by
  rw [indexPoly,ofCoeffs,Polynomial.eval_finsetSum,List.length_map]
  refine Finset.sum_congr rfl fun i hi => ?_
  rw [← coeff_indexPoly l i (Finset.mem_range.1 hi),indexPoly,coeff_ofCoeffs]
  simp

/-- The numerator loop evaluates the evaluator. -/
private theorem gf_numerator (l : List Nat) (root : Nat) :
    gf ((List.range l.length).foldr (fun i num1 =>
      if l.getD i 0 ≠ A0 then num1 ^^^ new.pow (modnn (l.getD i 0 + i * root)) else num1) 0) =
      (indexPoly l).eval (α ^ root) := by
  rw [gf_foldr _ _ (fun i => ofIndex (l.getD i 0) * α ^ (i * root)) fun i _ acc => gf_add_index' acc _ _,
    sum_map_range,eval_indexPoly]
  refine (zero_add _).trans (Finset.sum_congr rfl fun i _ => ?_)
  rw [← pow_mul,Nat.mul_comm]

private theorem sum_range_double (f : Nat → GF64) (m : Nat) :
    ∑ n ∈ Finset.range (2 * m), f n = ∑ h ∈ Finset.range m, (f (2 * h) + f (2 * h + 1)) := by
  induction m with
  | zero => rfl
  | succ m ih =>
    rw [Nat.mul_succ,Finset.sum_range_succ,Finset.sum_range_succ,ih,Finset.sum_range_succ,add_assoc]

private theorem cast_double (h : Nat) : ((2 * h : Nat) : GF64) = 0 := by
  have htwo : ((2 : Nat) : GF64) = 0 := by decide
  rw [Nat.cast_mul,htwo,zero_mul]

/-- In characteristic two the formal derivative keeps the odd terms. -/
private theorem eval_derivative_odd (hdeg : Λ.natDegree ≤ 51) (x : GF64) :
    (derivative Λ).eval x =
      ∑ h ∈ Finset.range (min Λ.natDegree 50 / 2 + 1), Λ.coeff (2 * h + 1) * x ^ (2 * h) := by
  rw [Polynomial.derivative_eval,Polynomial.sum_over_range' _ _ (2 * 26) (by omega),sum_range_double]
  · have hterm : ∀ h, Λ.coeff (2 * h) * ((2 * h : Nat) : GF64) * x ^ (2 * h - 1) +
        Λ.coeff (2 * h + 1) * ((2 * h + 1 : Nat) : GF64) * x ^ (2 * h + 1 - 1) =
        Λ.coeff (2 * h + 1) * x ^ (2 * h) := by
      intro h
      rw [Nat.cast_succ,cast_double,Nat.add_sub_cancel]
      ring
    rw [Finset.sum_congr rfl fun h _ => hterm h]
    symm
    apply Finset.sum_subset
    · intro h hh
      rw [Finset.mem_range] at hh ⊢
      omega
    · intro h hh hout
      rw [Finset.mem_range] at hh hout
      rw [Polynomial.coeff_eq_zero_of_natDegree_lt (by omega),zero_mul]
  · intro n
    simp

/-- The denominator loop evaluates the formal derivative. -/
private theorem gf_denominator (hΛ : indexPoly lambda = Λ) (hlen : lambda.length = 52)
    (hdeg : Λ.natDegree ≤ 51) (root : Nat) :
    gf ((List.range (min Λ.natDegree (NROOTS - 1) / 2 + 1)).foldr (fun half den =>
      let i := 2 * half
      if lambda.getD (i + 1) 0 ≠ A0 then den ^^^ new.pow (modnn (lambda.getD (i + 1) 0 + i * root))
      else den) 0) = (derivative Λ).eval (α ^ root) := by
  rw [gf_foldr _ _ (fun h => ofIndex (lambda.getD (2 * h + 1) 0) * α ^ (2 * h * root))
    fun h _ acc => gf_add_index' acc _ _,sum_map_range,eval_derivative_odd hdeg]
  refine (zero_add _).trans (Finset.sum_congr rfl fun h hh => ?_)
  have hlt : 2 * h + 1 < lambda.length := by
    rw [Finset.mem_range] at hh
    omega
  rw [← hΛ,coeff_indexPoly _ _ hlt,← pow_mul,Nat.mul_comm root]

/-- The value Forney's formula adds at a position. -/
noncomputable def errorValue (Λ Ω : GF64[X]) (p : Fin NN) : GF64 :=
  Ω.eval (point p)⁻¹ * (point p)⁻¹ ^ 2 / (derivative Λ).eval (point p)⁻¹

/-- The quotient in index form. -/
private theorem gf_quotient {num1 num2 den : Symbol} (h1 : num1 ≠ 0) (h2 : num2 ≠ 0) (hd : den ≠ 0) :
    gf (new.pow (modnn (new.log num1 + new.log num2 + NN - new.log den))) =
      gf num1 * gf num2 / gf den := by
  have hlt := log_lt hd
  have hne : gf den ≠ 0 := fun h0 => hd (gf_eq_zero.1 h0)
  have hexp : new.log num1 + new.log num2 + NN - new.log den + new.log den =
      new.log num1 + new.log num2 + 63 := by
    rw [NN]
    omega
  rw [eq_div_iff hne,gf_pow_modnn,← α_pow_log hd,← pow_add,hexp,pow_add,pow_add,GF64.α_pow_63,mul_one,α_pow_log h1,α_pow_log h2]

/-- One root's correction. -/
theorem forney_eq (hΛ : indexPoly lambda = Λ) (hlen : lambda.length = 52) (hdeg : Λ.natDegree ≤ 51)
    {omega : List Nat} {degOmega : Nat} (homega : omega.length = degOmega + 1) (recd : Word) (p : Fin NN)
    (hden : (derivative Λ).eval (point p)⁻¹ ≠ 0) :
    new.forney lambda omega Λ.natDegree degOmega recd (p.val + 1,p.val) =
      some fun q => if q = p then recd q ^^^ (errorValue Λ (indexPoly omega) p).symbol else recd q := by
  have hn := gf_numerator omega (p.val + 1)
  have hd := gf_denominator hΛ hlen hdeg (p.val + 1)
  rw [homega] at hn
  rw [← point_inv] at hn hd
  rw [forney]
  dsimp only at hn hd ⊢
  generalize (List.range (degOmega + 1)).foldr _ _ = num1 at hn ⊢
  generalize (List.range (min Λ.natDegree (NROOTS - 1) / 2 + 1)).foldr _ _ = den at hd ⊢
  have hden0 : den ≠ 0 := fun h0 => hden (hd.symm.trans (gf_eq_zero.2 h0))
  rw [if_neg hden0]
  by_cases hnum : num1 = 0
  · have hzero : errorValue Λ (indexPoly omega) p = 0 := by
      rw [errorValue,← hn,gf_eq_zero.2 hnum,zero_mul,zero_div]
    rw [if_neg (not_not.2 hnum),hzero]
    refine congrArg some (funext fun q => ?_)
    split
    · exact BitVec.xor_zero.symm
    · rfl
  · have hnum2 : gf (new.pow (modnn ((p.val + 1) * (FCR - 1) + NN))) = (point p)⁻¹ ^ 2 := by
      have hexp : (p.val + 1) * (FCR - 1) + NN = (p.val + 1) * 2 + 63 := rfl
      rw [gf_pow_modnn,hexp,pow_add,GF64.α_pow_63,mul_one,pow_mul,point_inv]
    have hne2 : new.pow (modnn ((p.val + 1) * (FCR - 1) + NN)) ≠ 0 := by
      intro h0
      rw [gf_eq_zero.2 h0] at hnum2
      exact pow_ne_zero 2 (inv_ne_zero (point_ne_zero p)) hnum2.symm
    have hval := gf_quotient hnum hne2 hden0
    rw [hn,hnum2,hd,← errorValue] at hval
    rw [if_pos hnum,if_pos p.isLt,← hval]
    refine congrArg some (funext fun q => ?_)
    simp only [Fin.ext_iff]

/-- Forney's corrections at a list of different positions. -/
theorem foldlM_forney (hΛ : indexPoly lambda = Λ) (hlen : lambda.length = 52) (hdeg : Λ.natDegree ≤ 51)
    {omega : List Nat} {degOmega : Nat} (homega : omega.length = degOmega + 1) (ps : List (Fin NN))
    (hps : ps.Nodup) (hden : ∀ p ∈ ps, (derivative Λ).eval (point p)⁻¹ ≠ 0) (recd : Word) :
    (ps.map fun p => (p.val + 1,p.val)).foldlM (new.forney lambda omega Λ.natDegree degOmega) recd =
      some fun q => if q ∈ ps then recd q ^^^ (errorValue Λ (indexPoly omega) q).symbol else recd q := by
  induction ps generalizing recd with
  | nil => simp
  | cons p ps ih =>
    rw [List.nodup_cons] at hps
    rw [List.map_cons,List.foldlM_cons,forney_eq hΛ hlen hdeg homega recd p (hden p List.mem_cons_self)]
    refine (ih hps.2 (fun q hq => hden q (List.mem_cons_of_mem p hq)) _).trans ?_
    refine congrArg some (funext fun q => ?_)
    by_cases hq : q = p
    · subst hq
      rw [if_neg hps.1,if_pos rfl,if_pos List.mem_cons_self]
    · rw [if_neg hq]
      simp only [List.mem_cons,hq,false_or]

end Forney

end MfskCore.Fec
