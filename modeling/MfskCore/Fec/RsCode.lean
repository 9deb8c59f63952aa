import MfskCore.Fec.RsSearch
import Mathlib.InformationTheory.Hamming

/-! The code itself: words with zero syndromes. Its minimum distance is 52, and the encoder
returns the one codeword that begins with the information symbols. -/
namespace MfskCore.Fec
open Polynomial Library Rs6312
open GF64 (α)

/-- A word that vanishes at the 51 roots of the generator polynomial. -/
def IsCodeword (w : Word) : Prop := ∀ i < 51, PowerSeries.coeff i (syndromeSeries w) = 0

section Distance

/-- The syndromes of two words differ by the power sums of what they differ by. -/
theorem coeff_syndromeSeries_sub {v w : Word} {P : Finset (Fin NN)} (h : ∀ p, p ∉ P → v p = w p) (i : Nat) :
    PowerSeries.coeff i (syndromeSeries v) - PowerSeries.coeff i (syndromeSeries w) =
      ∑ p ∈ P, (gf (v p) - gf (w p)) * point p ^ 3 * point p ^ i := by
  have hall : ∑ p ∈ P, (gf (v p) - gf (w p)) * point p ^ 3 * point p ^ i =
      ∑ p, (gf (v p) - gf (w p)) * point p ^ 3 * point p ^ i := by
    apply Finset.sum_subset (Finset.subset_univ P)
    intro p _ hp
    rw [h p hp,sub_self,zero_mul,zero_mul]
  rw [hall,coeff_syndromeSeries,coeff_syndromeSeries,← Finset.sum_sub_distrib]
  refine Finset.sum_congr rfl fun p _ => ?_
  ring

/-- Codewords that agree outside 51 positions are equal. -/
theorem codeword_eq_of_agree {v w : Word} (hv : IsCodeword v) (hw : IsCodeword w) {P : Finset (Fin NN)}
    (hP : P.card ≤ 51) (h : ∀ p, p ∉ P → v p = w p) : v = w := by
  have hsums : ∀ i < 51, ∑ p ∈ P, (gf (v p) - gf (w p)) * point p ^ 3 * point p ^ i = 0 := by
    intro i hi
    rw [← coeff_syndromeSeries_sub h,hv i hi,hw i hi,sub_zero]
  have hzero := eq_zero_of_powerSums (fun p _ => point_ne_zero p) point_injective.injOn hP hsums
  funext p
  by_cases hp : p ∈ P
  · have hdiff := (mul_eq_zero.1 (hzero p hp)).resolve_right (pow_ne_zero 3 (point_ne_zero p))
    exact congrArg GF64.symbol (sub_eq_zero.1 hdiff)
  · exact h p hp

/-- Codewords that differ in at most 51 positions are equal. -/
theorem codeword_eq_of_dist {v w : Word} (hv : IsCodeword v) (hw : IsCodeword w)
    (h : hammingDist v w ≤ 51) : v = w := by
  refine codeword_eq_of_agree hv hw h fun p hp => ?_
  simpa using hp

theorem codeword_eq_of_infoOf {v w : Word} (hv : IsCodeword v) (hw : IsCodeword w)
    (h : infoOf v = infoOf w) : v = w := by
  apply codeword_eq_of_dist hv hw
  have hsub : (Finset.univ.filter fun p : Fin NN => v p ≠ w p) ⊆
      Finset.univ.filter fun p : Fin NN => 12 ≤ p.val := by
    intro p hp
    rw [Finset.mem_filter] at hp ⊢
    refine ⟨hp.1,?_⟩
    by_contra hlt
    exact hp.2 (congrFun h ⟨p.val,Nat.lt_of_not_le hlt⟩)
  have hcard : (Finset.univ.filter fun p : Fin NN => 12 ≤ p.val).card = 51 := by decide
  exact (Finset.card_le_card hsub).trans hcard.le

end Distance

section Generator

/-- The generator polynomial with its first `n` roots. -/
noncomputable def generator (n : Nat) : GF64[X] := ∏ k ∈ Finset.range n, (X + C (α ^ (3 + k)))

theorem generator_succ (n : Nat) : generator (n + 1) = generator n * (X + C (α ^ (3 + n))) :=
  Finset.prod_range_succ _ n

theorem monic_generator (n : Nat) : (generator n).Monic :=
  Polynomial.monic_prod_of_monic _ _ fun _ _ => Polynomial.monic_X_add_C _

theorem natDegree_generator (n : Nat) : (generator n).natDegree = n := by
  rw [generator,Polynomial.natDegree_prod_of_monic _ _ fun _ _ => Polynomial.monic_X_add_C _,
    Finset.sum_congr rfl fun _ _ => Polynomial.natDegree_X_add_C _]
  simp

theorem coeff_generator_zero_ne (n : Nat) : (generator n).coeff 0 ≠ 0 := by
  rw [Polynomial.coeff_zero_eq_eval_zero,generator,Polynomial.eval_prod,Finset.prod_ne_zero_iff]
  intro k _
  simpa using pow_ne_zero (3 + k) GF64.α_ne_zero

theorem eval_generator {i n : Nat} (hi : i < n) : (generator n).eval (α ^ (3 + i)) = 0 := by
  rw [generator,Polynomial.eval_prod,Finset.prod_eq_zero_iff]
  refine ⟨i,Finset.mem_range.2 hi,?_⟩
  rw [Polynomial.eval_add,Polynomial.eval_X,Polynomial.eval_C]
  exact sub_self _

private theorem coeff_mul_root (p : GF64[X]) (β : GF64) (j : Nat) :
    (p * (X + C β)).coeff (j + 1) = p.coeff j + p.coeff (j + 1) * β := by
  rw [mul_add,Polynomial.coeff_add,Polynomial.coeff_mul_X,Polynomial.coeff_mul_C]

/-- One cell after a pass of the generator loop. -/
private theorem getD_genpolyStep {g : List Symbol} {n j : Nat} (hlen : g.length = 52) (hj : j < 52) :
    let x := (g.set (n + 1) 1).getD j 0
    let below := (g.set (n + 1) 1).getD (j - 1) 0
    (genpolyStep GF64.powTable GF64.logTable g n).getD j 0 =
      if j = 0 then new.pow (modnn (new.log x + (3 + n)))
      else if j ≤ n then
        if x ≠ 0 then below ^^^ new.pow (modnn (new.log x + (3 + n))) else below
      else x := by
  have hin : j < (g.set (n + 1) 1).length := by
    rw [List.length_set]
    omega
  have hroot : FCR * PRIM + n * PRIM = 3 + n := by rw [FCR,PRIM,Nat.mul_one,Nat.mul_one]
  intro x below
  have hx : (g.set (n + 1) 1)[j]? = some x := by
    simp only [x,List.getD_eq_getElem?_getD,List.getElem?_eq_getElem hin,Option.getD_some]
  rw [genpolyStep,List.getD_eq_getElem?_getD,List.getElem?_mapIdx,hx,Option.map_some,Option.getD_some,
    hroot]
  simp only [Rs6312.pow,log,new_alphaTo,new_indexOf]
  rfl

/-- One pass of the generator loop adds one root. -/
private theorem symbolPoly_genpolyStep {g : List Symbol} {n : Nat} (hlen : g.length = 52)
    (hg : symbolPoly g = generator n) (hn : n < 51) :
    symbolPoly (genpolyStep GF64.powTable GF64.logTable g n) = generator (n + 1) := by
  have hcell : ∀ j, gf (g.getD j 0) = (generator n).coeff j := by
    intro j
    rw [← hg,coeff_symbolPoly]
  have hset : ∀ j, j ≠ n + 1 → (g.set (n + 1) 1).getD j 0 = g.getD j 0 := by
    intro j hj
    rw [List.getD_eq_getElem?_getD,List.getD_eq_getElem?_getD,List.getElem?_set_ne (Ne.symm hj)]
  have hhigh : ∀ j, n < j → (generator n).coeff j = 0 := by
    intro j hj
    exact Polynomial.coeff_eq_zero_of_natDegree_lt (by rwa [natDegree_generator])
  apply Polynomial.ext
  intro j
  rw [coeff_symbolPoly,generator_succ]
  by_cases hj : j < 52
  · rw [getD_genpolyStep hlen hj]
    match j with
    | 0 =>
      have hne : g.getD 0 0 ≠ 0 := by
        intro h0
        apply coeff_generator_zero_ne n
        rw [← hcell,h0]
        rfl
      rw [if_pos rfl,hset 0 (by omega),gf_pow_modnn,pow_add,α_pow_log hne,hcell,
        Polynomial.mul_coeff_zero,Polynomial.coeff_add,Polynomial.coeff_X_zero,Polynomial.coeff_C_zero,
        zero_add]
    | j + 1 =>
      rw [if_neg (by omega),coeff_mul_root,Nat.add_sub_cancel]
      rcases Nat.lt_trichotomy j n with hlt | heq | hgt
      · rw [if_pos (by omega),hset _ (by omega),hset _ (by omega),← hcell,← hcell]
        by_cases hx : g.getD (j + 1) 0 = 0
        · rw [if_neg (not_not.2 hx),gf_eq_zero.2 hx,zero_mul,add_zero]
        · rw [if_pos hx,gf_xor,gf_pow_modnn,pow_add,α_pow_log hx]
      · subst heq
        have hone : (g.set (j + 1) 1).getD (j + 1) 0 = 1 := by
          rw [List.getD_eq_getElem?_getD,List.getElem?_set_self (by omega),Option.getD_some]
        have hlead : (generator j).coeff j = 1 := by
          have hm := monic_generator j
          rwa [Polynomial.Monic,Polynomial.leadingCoeff,natDegree_generator] at hm
        rw [if_neg (by omega),hone,hlead,hhigh (j + 1) (by omega),zero_mul,add_zero]
        rfl
      · rw [if_neg (by omega),hset _ (by omega),hcell,hhigh (j + 1) (by omega),hhigh j hgt,zero_mul,
          add_zero]
  · obtain ⟨j,rfl⟩ : ∃ k, j = k + 1 := ⟨j - 1,by omega⟩
    rw [coeff_mul_root,hhigh (j + 1) (by omega),hhigh j (by omega),zero_mul,add_zero,
      List.getD_eq_default _ _ (by simp [genpolyStep,hlen]; omega)]
    rfl

/-- The table in the codec holds the logarithms of the generator polynomial. -/
theorem new_genpoly : ∃ g : List Symbol, g.length = 52 ∧ symbolPoly g = generator 51 ∧
    new.genpoly = g.map new.log := by
  have hloop : ∀ n ≤ 51,
      let g := (List.range n).foldl (genpolyStep GF64.powTable GF64.logTable)
        ((List.replicate (NROOTS + 1) 0).set 0 1)
      g.length = 52 ∧ symbolPoly g = generator n := by
    intro n
    induction n with
    | zero =>
      intro _
      exact ⟨rfl,symbolPoly_one.trans (Finset.prod_range_zero _).symm⟩
    | succ n ih =>
      intro hn
      obtain ⟨hlen,hg⟩ := ih (by omega)
      rw [List.range_succ,List.foldl_append,List.foldl_cons,List.foldl_nil]
      exact ⟨by simpa [genpolyStep] using hlen,symbolPoly_genpolyStep hlen hg (by omega)⟩
  obtain ⟨hlen,hg⟩ := hloop 51 le_rfl
  refine ⟨_,hlen,hg,?_⟩
  have hnew : new.genpoly = ((List.range NROOTS).foldl (genpolyStep GF64.powTable GF64.logTable)
      ((List.replicate (NROOTS + 1) 0).set 0 1)).map (index GF64.logTable) := by
    rw [new,GF64.tables_eq]
  rw [hnew]
  apply List.map_congr_left
  intro x _
  rw [log,new_indexOf]

theorem sum_word (f : Nat → GF64) : ∑ p : Fin NN, f (62 - p.val) = ∑ k ∈ Finset.range 63, f k := by
  have hfin := Fin.sum_univ_eq_sum_range (fun p => f (62 - p)) 63
  have hreflect := Finset.sum_range_reflect f 63
  exact hfin.trans hreflect

/-- No coefficient of the generator polynomial vanishes: it would be a codeword of weight 51. -/
theorem coeff_generator_ne_zero {k : Nat} (hk : k ≤ 51) : (generator 51).coeff k ≠ 0 := by
  intro hzero
  let w : Word := fun p => ((generator 51).coeff (62 - p.val)).symbol
  have hw : IsCodeword w := by
    intro i hi
    rw [coeff_syndromeSeries]
    have hterm : ∀ p : Fin NN, gf (w p) * point p ^ (3 + i) =
        (generator 51).coeff (62 - p.val) * (α ^ (3 + i)) ^ (62 - p.val) := by
      intro p
      rw [point,← pow_mul,← pow_mul,Nat.mul_comm]
    rw [Finset.sum_congr rfl fun p _ => hterm p,
      sum_word fun k => (generator 51).coeff k * (α ^ (3 + i)) ^ k,
      ← Polynomial.eval_eq_sum_range' (by rw [natDegree_generator]; omega),eval_generator hi]
  have h0 : IsCodeword (fun _ => 0) := by
    intro i _
    rw [coeff_syndromeSeries]
    exact Finset.sum_eq_zero fun p _ => zero_mul _
  have hdist : hammingDist w (fun _ => 0) ≤ 51 := by
    let q : Fin NN := ⟨62 - k,by rw [NN]; omega⟩
    have hsub : (Finset.univ.filter fun p : Fin NN => w p ≠ 0) ⊆
        (Finset.univ.filter fun p : Fin NN => 11 ≤ p.val).erase q := by
      intro p hp
      rw [Finset.mem_filter] at hp
      rw [Finset.mem_erase,Finset.mem_filter]
      have hp63 : p.val < 63 := p.isLt
      refine ⟨?_,Finset.mem_univ p,?_⟩
      · rintro rfl
        apply hp.2
        have hexp : 62 - (62 - k) = k := by omega
        change ((generator 51).coeff (62 - (62 - k))).symbol = 0
        rw [hexp,hzero]
        rfl
      · by_contra hlt
        apply hp.2
        have hhigh : (generator 51).coeff (62 - p.val) = 0 :=
          Polynomial.coeff_eq_zero_of_natDegree_lt (by rw [natDegree_generator]; omega)
        change ((generator 51).coeff (62 - p.val)).symbol = 0
        rw [hhigh]
        rfl
    have hcard : (Finset.univ.filter fun p : Fin NN => 11 ≤ p.val).card = 52 := by decide
    have hmem : q ∈ Finset.univ.filter fun p : Fin NN => 11 ≤ p.val := by
      rw [Finset.mem_filter]
      exact ⟨Finset.mem_univ q,show 11 ≤ 62 - k by omega⟩
    have hle := Finset.card_le_card hsub
    rw [Finset.card_erase_of_mem hmem,hcard] at hle
    exact hle
  have heq := congrFun (codeword_eq_of_dist hw h0 hdist) ⟨11,by decide⟩
  have hlead : (generator 51).coeff 51 = 1 := by
    have hm := monic_generator 51
    rwa [Polynomial.Monic,Polynomial.leadingCoeff,natDegree_generator] at hm
  change ((generator 51).coeff 51).symbol = 0 at heq
  rw [hlead] at heq
  exact absurd heq (by decide)

end Generator

section Encoder
variable {bb : List Symbol} {β : GF64}

/-- The feedback symbol times a coefficient of the generator polynomial. -/
private theorem gf_feedback {f : Symbol} (hf : f ≠ 0) {k : Nat} (hk : k ≤ 51) :
    gf (new.pow (modnn (new.log f + new.genpoly.getD k 0))) = gf f * (generator 51).coeff k := by
  obtain ⟨g,hlen,hg,hgen⟩ := new_genpoly
  have hcoeff : gf (g.getD k 0) = (generator 51).coeff k := by rw [← hg,coeff_symbolPoly]
  have hne : g.getD k 0 ≠ 0 := by
    intro h0
    apply coeff_generator_ne_zero hk
    rw [← hcoeff,h0]
    rfl
  have hget : new.genpoly.getD k 0 = new.log (g.getD k 0) := by
    have hin : k < g.length := by omega
    rw [hgen]
    simp [List.getD_eq_getElem?_getD,hin]
  rw [hget,gf_pow_modnn,pow_add,α_pow_log hf,α_pow_log hne,hcoeff]

private theorem getD_tail_append (l : List Symbol) (x : Symbol) (hlen : l.length = 51) :
    (∀ j < 50, (l.tail ++ [x]).getD j 0 = l.getD (j + 1) 0) ∧ (l.tail ++ [x]).getD 50 0 = x := by
  have htail : l.tail.length = 50 := by simp [hlen]
  refine ⟨fun j hj => ?_,?_⟩
  · rw [List.getD_append _ _ _ _ (by omega),List.getD_eq_getElem?_getD,List.getElem?_tail,
      List.getD_eq_getElem?_getD]
  · rw [List.getD_append_right _ _ _ _ (by omega),htail]
    rfl

/-- One cell of the parity register after a step. -/
private theorem gf_encodeStep (hlen : bb.length = 51) (symbol : Symbol) :
    (∀ j < 50, gf ((new.encodeStep bb symbol).getD j 0) =
      gf (bb.getD (j + 1) 0) + gf (symbol ^^^ bb.getD 0 0) * (generator 51).coeff (50 - j)) ∧
    gf ((new.encodeStep bb symbol).getD 50 0) =
      gf (symbol ^^^ bb.getD 0 0) * (generator 51).coeff 0 := by
  rw [encodeStep]
  by_cases hf : symbol ^^^ bb.getD 0 0 = 0
  · have hA0 := log_eq_A0.2 hf
    obtain ⟨hlow,hlast⟩ := getD_tail_append bb 0 hlen
    simp only [hA0,ne_eq,not_true_eq_false,↓reduceIte]
    rw [gf_eq_zero.2 hf]
    refine ⟨fun j hj => ?_,?_⟩
    · rw [hlow j hj,zero_mul,add_zero]
    · rw [hlast,zero_mul]
      rfl
  · have hA0 : new.log (symbol ^^^ bb.getD 0 0) ≠ A0 := fun h0 => hf (log_eq_A0.1 h0)
    simp only [hA0,ne_eq,not_false_eq_true,↓reduceIte]
    obtain ⟨hlow,hlast⟩ := getD_tail_append (bb.mapIdx fun j x => if 1 ≤ j then
      x ^^^ new.pow (modnn (new.log (symbol ^^^ bb.getD 0 0) + new.genpoly.getD (NROOTS - j) 0)) else x)
      (new.pow (modnn (new.log (symbol ^^^ bb.getD 0 0) + new.genpoly.getD 0 0))) (by simpa using hlen)
    refine ⟨fun j hj => ?_,?_⟩
    · have hin : j + 1 < bb.length := by omega
      have hcell : (bb.mapIdx fun j x => if 1 ≤ j then
          x ^^^ new.pow (modnn (new.log (symbol ^^^ bb.getD 0 0) + new.genpoly.getD (NROOTS - j) 0))
          else x).getD (j + 1) 0 = bb.getD (j + 1) 0 ^^^
          new.pow (modnn (new.log (symbol ^^^ bb.getD 0 0) + new.genpoly.getD (NROOTS - (j + 1)) 0)) := by
        simp [List.getD_eq_getElem?_getD,hin]
      have hexp : NROOTS - (j + 1) = 50 - j := by
        rw [NROOTS]
        omega
      rw [hlow j hj,hcell,gf_xor,gf_feedback hf (by rw [NROOTS]; omega),hexp]
    · rw [hlast,gf_feedback hf (by omega)]

theorem length_encodeStep (hlen : bb.length = 51) (symbol : Symbol) :
    (new.encodeStep bb symbol).length = 51 := by
  rw [encodeStep]
  split <;> simp [hlen]

/-- Horner's rule over a list, as a sum. -/
private theorem foldl_horner_eq (β : GF64) (l : List GF64) (v : GF64) :
    l.foldl (fun v a => a + v * β) v =
      v * β ^ l.length + ∑ j ∈ Finset.range l.length, l.getD j 0 * β ^ (l.length - 1 - j) := by
  induction l generalizing v with
  | nil => simp
  | cons a l ih =>
    rw [List.foldl_cons,ih,List.length_cons,Finset.sum_range_succ',pow_succ]
    have hterm : ∀ j, (a :: l).getD (j + 1) 0 * β ^ (l.length + 1 - 1 - (j + 1)) =
        l.getD j 0 * β ^ (l.length - 1 - j) := by
      intro j
      rw [List.getD_cons_succ]
      congr 2
      omega
    rw [Finset.sum_congr rfl fun j _ => hterm j,List.getD_cons_zero,Nat.sub_zero,Nat.add_sub_cancel]
    ring

/-- Feeding a symbol multiplies the value at a root of the generator by that root. -/
private theorem horner_encodeStep (hlen : bb.length = 51) (hβ : (generator 51).eval β = 0) (symbol : Symbol)
    (v : GF64) :
    ((new.encodeStep bb symbol).map gf).foldl (fun v a => a + v * β) (gf symbol + v * β) =
      (bb.map gf).foldl (fun v a => a + v * β) v * β := by
  obtain ⟨hlow,hlast⟩ := gf_encodeStep hlen symbol
  have hmap : ∀ (l : List Symbol) j, (l.map gf).getD j 0 = gf (l.getD j 0) := fun l j =>
    List.getD_map _ _ gf
  have htwo : (2 : GF64) = 0 := by decide
  have hgen : (∑ j ∈ Finset.range 50, (generator 51).coeff (50 - j) * β ^ (50 - j)) +
      (generator 51).coeff 0 + β ^ 51 = 0 := by
    have hreflect := Finset.sum_range_reflect (fun k => (generator 51).coeff k * β ^ k) 51
    have hlead : (generator 51).coeff 51 = 1 := by
      have hm := monic_generator 51
      rwa [Polynomial.Monic,Polynomial.leadingCoeff,natDegree_generator] at hm
    rw [Polynomial.eval_eq_sum_range,natDegree_generator,Finset.sum_range_succ,← hreflect,
      Finset.sum_range_succ,hlead,one_mul] at hβ
    simpa using hβ
  have hshift : (∑ j ∈ Finset.range 50, gf (bb.getD (j + 1) 0) * β ^ (51 - 1 - (j + 1))) * β =
      ∑ j ∈ Finset.range 50, gf (bb.getD (j + 1) 0) * β ^ (50 - j) := by
    rw [Finset.sum_mul]
    refine Finset.sum_congr rfl fun j hj => ?_
    rw [Finset.mem_range] at hj
    have hexp : 50 - j = 51 - 1 - (j + 1) + 1 := by omega
    rw [hexp,pow_succ,mul_assoc]
  have hcells : ∑ j ∈ Finset.range 50, gf ((new.encodeStep bb symbol).getD j 0) * β ^ (51 - 1 - j) =
      (∑ j ∈ Finset.range 50, gf (bb.getD (j + 1) 0) * β ^ (50 - j)) + gf (symbol ^^^ bb.getD 0 0) *
        ∑ j ∈ Finset.range 50, (generator 51).coeff (50 - j) * β ^ (50 - j) := by
    rw [Finset.mul_sum,← Finset.sum_add_distrib]
    refine Finset.sum_congr rfl fun j hj => ?_
    rw [hlow j (Finset.mem_range.1 hj)]
    ring
  rw [foldl_horner_eq,foldl_horner_eq,List.length_map,List.length_map,length_encodeStep hlen,hlen]
  simp only [hmap]
  rw [Finset.sum_range_succ,hcells,hlast,
    Finset.sum_range_succ' (fun j => gf (bb.getD j 0) * β ^ (51 - 1 - j)) 50,gf_xor]
  linear_combination (gf symbol + gf (bb.getD 0 0)) * hgen - gf (bb.getD 0 0) * β ^ 51 * htwo - hshift

/-- The parity register keeps the value of the word so far at zero. -/
private theorem horner_parity (hβ : (generator 51).eval β = 0) (l : List Symbol) (bb : List Symbol)
    (hlen : bb.length = 51) (v : GF64) (hv : (bb.map gf).foldl (fun v a => a + v * β) v = 0) :
    ((l.foldl new.encodeStep bb).map gf).foldl (fun v a => a + v * β)
      ((l.map gf).foldl (fun v a => a + v * β) v) = 0 := by
  induction l generalizing bb v with
  | nil => exact hv
  | cons symbol l ih =>
    rw [List.foldl_cons,List.map_cons,List.foldl_cons]
    apply ih _ (length_encodeStep hlen symbol)
    rw [horner_encodeStep hlen hβ,hv,zero_mul]

theorem length_parity (info : Info) : (new.parity info).length = 51 := by
  have hfold : ∀ (l : List Symbol) (bb : List Symbol), bb.length = 51 →
      (l.foldl new.encodeStep bb).length = 51 := by
    intro l
    induction l with
    | nil => exact fun bb h => h
    | cons symbol l ih => exact fun bb h => ih _ (length_encodeStep h symbol)
  exact hfold _ _ (by simp [NROOTS])

/-- The encoder's output, symbol by symbol. -/
private theorem ofFn_encodeNative (info : Info) :
    List.ofFn (new.encodeNative info) = List.ofFn info ++ new.parity info := by
  have hlen := length_parity info
  apply List.ext_getElem
  · rw [List.length_ofFn,List.length_append,List.length_ofFn,hlen]
    rfl
  · intro n h1 h2
    rw [List.getElem_ofFn]
    by_cases hn : n < K_SYMBOLS
    · rw [List.getElem_append_left (by rwa [List.length_ofFn]),List.getElem_ofFn]
      exact dif_pos hn
    · rw [List.getElem_append_right (by rw [List.length_ofFn]; omega)]
      simp only [List.length_ofFn]
      have hin : n - K_SYMBOLS < (new.parity info).length := by
        rw [List.length_append,List.length_ofFn] at h2
        omega
      refine (dif_neg hn).trans ?_
      rw [List.getD_eq_getElem?_getD,List.getElem?_eq_getElem hin,Option.getD_some]

private theorem horner_zero (β : GF64) (n : Nat) :
    ((List.replicate n (0 : Symbol)).map gf).foldl (fun v a => a + v * β) 0 = 0 := by
  induction n with
  | zero => rfl
  | succ n ih =>
    rw [List.replicate_succ,List.map_cons,List.foldl_cons,zero_mul,add_zero]
    exact ih

/-- Encoded words are codewords. -/
theorem isCodeword_encodeNative (info : Info) : IsCodeword (new.encodeNative info) := by
  intro i hi
  have hβ := eval_generator hi
  have hmap : (List.ofFn fun p => gf (new.encodeNative info p)) =
      (List.ofFn (new.encodeNative info)).map gf := List.map_ofFn.symm
  rw [coeff_syndromeSeries_horner,hmap,ofFn_encodeNative,List.map_append,List.foldl_append]
  apply horner_parity hβ
  · simp [NROOTS]
  · exact horner_zero _ NROOTS

theorem infoOf_encodeNative (info : Info) : infoOf (new.encodeNative info) = info := by
  funext i
  exact dif_pos i.isLt

/-- The encoder returns the codeword that begins with the information symbols. -/
theorem eq_encodeNative {w : Word} (hw : IsCodeword w) : w = new.encodeNative (infoOf w) :=
  codeword_eq_of_infoOf hw (isCodeword_encodeNative _) (infoOf_encodeNative _).symm

end Encoder

end MfskCore.Fec
