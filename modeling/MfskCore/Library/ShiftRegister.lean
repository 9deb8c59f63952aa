import Mathlib.Algebra.Polynomial.Degree.Lemmas
import Mathlib.Algebra.Polynomial.FieldDivision
import Mathlib.RingTheory.PrincipalIdealDomain
import Mathlib.RingTheory.PowerSeries.Basic

/-! Shortest linear recurrences of a sequence, with a factor fixed in advance. `Register.step`
is Berlekamp and Massey's update on polynomials; `Register.Invariant` is what it keeps, and says
that the register is the shortest one through the symbols read so far. -/
namespace MfskCore.Library
open Polynomial

variable {K : Type*} [Field K]

/-- The coefficient of `Λ S` at `j`: how far `Λ` is from predicting symbol `j` of `S`. -/
noncomputable def residual (S : PowerSeries K) (Λ : K[X]) (j : ℕ) : K :=
  PowerSeries.coeff j ((Λ : PowerSeries K) * S)

section Residual
variable (S : PowerSeries K)

theorem residual_eq_sum (Λ : K[X]) (j : ℕ) :
    residual S Λ j = ∑ i ∈ Finset.range (j + 1), Λ.coeff i * PowerSeries.coeff (j - i) S := by
  rw [residual,PowerSeries.coeff_mul,Finset.Nat.sum_antidiagonal_eq_sum_range_succ_mk]
  simp only [Polynomial.coeff_coe]

theorem residual_sub (p q : K[X]) (j : ℕ) : residual S (p - q) j = residual S p j - residual S q j := by
  rw [residual,Polynomial.coe_sub,sub_mul,map_sub]
  rfl

theorem residual_C_mul (c : K) (p : K[X]) (j : ℕ) : residual S (C c * p) j = c * residual S p j := by
  rw [residual,Polynomial.coe_mul,Polynomial.coe_C,mul_assoc,PowerSeries.coeff_C_mul]
  rfl

theorem residual_X_mul_succ (p : K[X]) (j : ℕ) : residual S (X * p) (j + 1) = residual S p j := by
  rw [residual,Polynomial.coe_mul,Polynomial.coe_X,mul_assoc,PowerSeries.coeff_succ_X_mul]
  rfl

/-- A short factor sees only the last residuals of the other. -/
theorem residual_mul_of_tail {p q : K[X]} {a r : ℕ} (hp : p.natDegree ≤ a)
    (hq : ∀ j, r ≤ j + a → j < r → residual S q j = 0) :
    residual S (p * q) r = p.coeff 0 * residual S q r := by
  have hassoc : ((p * q : K[X]) : PowerSeries K) * S = (p : PowerSeries K) * ((q : PowerSeries K) * S) := by
    rw [Polynomial.coe_mul,mul_assoc]
  rw [residual,hassoc,PowerSeries.coeff_mul,Finset.sum_eq_single (0,r)]
  · simp [residual]
  · rintro ⟨i,j⟩ hij hne
    rw [Finset.HasAntidiagonal.mem_antidiagonal] at hij
    simp only at hij
    by_cases hi : a < i
    · rw [Polynomial.coeff_coe,Polynomial.coeff_eq_zero_of_natDegree_lt (lt_of_le_of_lt hp hi),zero_mul]
    · have hi0 : i ≠ 0 := by
        rintro rfl
        exact hne (by simpa using hij)
      have hz := hq j (by omega) (by omega)
      rw [residual] at hz
      rw [hz,mul_zero]
  · intro h
    simp at h

end Residual

/-- `Λ` predicts the symbols of `S` from index `M` on, up to `r`, with a register of length `M`. -/
structure Generates (S : PowerSeries K) (Λ : K[X]) (M r : ℕ) : Prop where
  degree_le : Λ.natDegree ≤ M
  predicts : ∀ j, M ≤ j → j < r → residual S Λ j = 0

theorem Generates.mono {S : PowerSeries K} {Λ : K[X]} {M r r' : ℕ} (h : Generates S Λ M r)
    (hr : r' ≤ r) : Generates S Λ M r' :=
  ⟨h.degree_le,fun j hM hj => h.predicts j hM (by omega)⟩

/-- Only the symbols below `r` matter. -/
theorem Generates.congr {S S' : PowerSeries K} {Λ : K[X]} {M r : ℕ} (h : Generates S Λ M r)
    (hS : ∀ i < r, PowerSeries.coeff i S' = PowerSeries.coeff i S) : Generates S' Λ M r := by
  refine ⟨h.degree_le,fun j hM hj => ?_⟩
  rw [← h.predicts j hM hj,residual_eq_sum,residual_eq_sum]
  refine Finset.sum_congr rfl fun i _ => ?_
  rw [hS (j - i) (by omega)]

section Gap
variable {S : PowerSeries K} {Γ : K[X]} {ρ : ℕ}

/-- What is left of a register's length beside a fixed factor. -/
theorem natDegree_cofactor {Λ Λ' : K[X]} {M : ℕ} (hΓ : Γ.natDegree = ρ) (hΓ0 : Γ ≠ 0)
    (hΛ : Λ = Γ * Λ') (h0 : Λ.coeff 0 ≠ 0) (hM : Λ.natDegree ≤ M) : Λ'.natDegree + ρ ≤ M := by
  have hne : Λ' ≠ 0 := by
    rintro rfl
    simp [hΛ] at h0
  rw [hΛ,Polynomial.natDegree_mul hΓ0 hne] at hM
  omega

/-- Two registers with a common factor that agree up to a symbol and differ there are long. -/
theorem le_len_of_discrepancy {Λ Λ₂ : K[X]} {L M r : ℕ} (hΓ : Γ.natDegree = ρ) (hΓ0 : Γ ≠ 0)
    (hd : Γ ∣ Λ) (hd₂ : Γ ∣ Λ₂) (h0 : Λ.coeff 0 ≠ 0) (h0₂ : Λ₂.coeff 0 ≠ 0)
    (hg : Generates S Λ L r) (hg₂ : Generates S Λ₂ M (r + 1)) (hδ : residual S Λ r ≠ 0) :
    r + 1 + ρ ≤ M + L := by
  obtain ⟨Λ',hΛ⟩ := hd
  obtain ⟨Λ₂',hΛ₂⟩ := hd₂
  have hdeg := natDegree_cofactor hΓ hΓ0 hΛ h0 hg.degree_le
  have hdeg₂ := natDegree_cofactor hΓ hΓ0 hΛ₂ h0₂ hg₂.degree_le
  by_contra hlt
  have hleft : residual S (Λ' * Λ₂) r = Λ'.coeff 0 * residual S Λ₂ r := by
    apply residual_mul_of_tail S (a := L - ρ) (by omega)
    intro j hj hjr
    exact hg₂.predicts j (by omega) (by omega)
  have hright : residual S (Λ₂' * Λ) r = Λ₂'.coeff 0 * residual S Λ r := by
    apply residual_mul_of_tail S (a := M - ρ) (by omega)
    intro j hj hjr
    exact hg.predicts j (by omega) hjr
  have hcomm : Λ' * Λ₂ = Λ₂' * Λ := by
    rw [hΛ,hΛ₂]
    ring
  have hzero : residual S Λ₂ r = 0 := hg₂.predicts r (by omega) (by omega)
  rw [hcomm,hright,hzero,mul_zero,mul_eq_zero] at hleft
  rcases hleft with h | h
  · apply h0₂
    rw [hΛ₂,Polynomial.mul_coeff_zero,h,mul_zero]
  · exact hδ h

end Gap

/-- A recurrence through the symbols of `S` below `r`, with the factor `Γ` and as short as any. -/
structure Shortest (S : PowerSeries K) (Γ Λ : K[X]) (L r : ℕ) : Prop where
  constant : Λ.coeff 0 = 1
  dvd : Γ ∣ Λ
  generates : Generates S Λ L r
  least : ∀ Λ' M, Γ ∣ Λ' → Λ'.coeff 0 ≠ 0 → Generates S Λ' M r → L ≤ M

section Shortest
variable {S : PowerSeries K} {Γ Λ Λ' : K[X]} {L L' r : ℕ}

theorem Shortest.len_eq (h : Shortest S Γ Λ L r) (h' : Shortest S Γ Λ' L' r) : L = L' :=
  le_antisymm (h.least Λ' L' h'.dvd (by simp [h'.constant]) h'.generates)
    (h'.least Λ L h.dvd (by simp [h.constant]) h.generates)

private theorem residual_X_pow_mul (S : PowerSeries K) (p : K[X]) (k j : ℕ) :
    residual S (X ^ k * p) (j + k) = residual S p j := by
  induction k with
  | zero => rw [pow_zero,one_mul,Nat.add_zero]
  | succ k ih => rw [pow_succ',mul_assoc,← Nat.add_assoc,residual_X_mul_succ,ih]

/-- A polynomial with nonzero constant that divides a shifted one divides it unshifted. -/
private theorem dvd_of_dvd_X_pow_mul {p : K[X]} (hΓ : Γ.coeff 0 ≠ 0) {k : ℕ} (h : Γ ∣ X ^ k * p) : Γ ∣ p := by
  have hX : ¬(X : K[X]) ∣ Γ := by rwa [Polynomial.X_dvd_iff]
  have hcoprime : IsCoprime Γ X := ((Polynomial.irreducible_X (R := K)).coprime_iff_not_dvd.2 hX).symm
  exact hcoprime.pow_right.dvd_of_dvd_mul_left h

/-- The first symbol a recurrence gets wrong, if it gets one wrong. -/
private theorem exists_discrepancy {p : K[X]} {M a b : ℕ} (h : Generates S p M a) (hb : ¬Generates S p M b) :
    ∃ j, a ≤ j ∧ j < b ∧ Generates S p M j ∧ residual S p j ≠ 0 := by
  induction b with
  | zero => exact absurd (h.mono (Nat.zero_le a)) hb
  | succ b ih =>
    by_cases hgen : Generates S p M b
    · have hwrong : ¬(M ≤ b → residual S p b = 0) := by
        intro hright
        refine hb ⟨hgen.degree_le,fun j hM hj => ?_⟩
        rcases Nat.lt_succ_iff_lt_or_eq.1 hj with hlt | rfl
        · exact hgen.predicts j hM hlt
        · exact hright hM
      rw [Classical.not_imp] at hwrong
      have hab : a ≤ b := by
        by_contra hlt
        exact hwrong.2 (h.predicts b hwrong.1 (by omega))
      exact ⟨b,hab,Nat.lt_succ_self b,hgen,hwrong.2⟩
    · obtain ⟨j,ha,hj,hrest⟩ := ih hgen
      exact ⟨j,ha,by omega,hrest⟩

/-- A word of twice the length, less the fixed factor, leaves one shortest recurrence. -/
theorem Shortest.unique {ρ : ℕ} (hΓ : Γ.natDegree = ρ) (hΓ0 : Γ.coeff 0 = 1) (h : Shortest S Γ Λ L r)
    (h' : Shortest S Γ Λ' L r) (hr : 2 * L ≤ r + ρ) : Λ = Λ' := by
  by_contra hne
  have hsub : Λ - Λ' ≠ 0 := sub_ne_zero.2 hne
  obtain ⟨D,hD,hX⟩ := Polynomial.exists_eq_pow_rootMultiplicity_mul_and_not_dvd (Λ - Λ') hsub 0
  rw [Polynomial.C_0,sub_zero] at hD hX
  generalize hk : Polynomial.rootMultiplicity 0 (Λ - Λ') = k at hD
  have hD0 : D.coeff 0 ≠ 0 := by rwa [Polynomial.X_dvd_iff] at hX
  have hΓne : Γ ≠ 0 := by
    rintro rfl
    simp at hΓ0
  -- the difference has no constant term, so a true shift is left
  have hpos : 1 ≤ k := by
    by_contra hzero
    obtain rfl : k = 0 := by omega
    rw [pow_zero,one_mul] at hD
    rw [← hD,Polynomial.coeff_sub,h.constant,h'.constant,sub_self] at hD0
    exact hD0 rfl
  have hdeg : D.natDegree + k ≤ L := by
    have hle := (Polynomial.natDegree_sub_le Λ Λ').trans (max_le h.generates.degree_le h'.generates.degree_le)
    rw [hD,Polynomial.natDegree_X_pow_mul k (by rintro rfl; simp at hD0)] at hle
    exact hle
  have hdvd : Γ ∣ D := dvd_of_dvd_X_pow_mul (by simp [hΓ0]) (hD ▸ dvd_sub h.dvd h'.dvd)
  have hgen : Generates S D (L - k) (r - k) := by
    refine ⟨by omega,fun j hj hjr => ?_⟩
    rw [← residual_X_pow_mul S D k j,← hD,residual_sub,h.generates.predicts _ (by omega) (by omega),
      h'.generates.predicts _ (by omega) (by omega),sub_self]
  have hfail : ¬Generates S D (L - k) r := by
    intro hlong
    have := h.least D (L - k) hdvd hD0 hlong
    omega
  obtain ⟨j,hj,hjr,hgenj,hres⟩ := exists_discrepancy hgen hfail
  have hgap := le_len_of_discrepancy hΓ hΓne hdvd h.dvd hD0 (by simp [h.constant]) hgenj
    (h.generates.mono (by omega)) hres
  omega

end Shortest

/-- The connection polynomial, its length, and the polynomial kept from the last change of length. -/
structure Register (K : Type*) [Field K] where
  connection : K[X]
  previous : K[X]
  len : ℕ

namespace Register

open Classical in
/-- Read symbol `r`; `ρ` is the degree of the factor fixed in advance. -/
noncomputable def step (S : PowerSeries K) (ρ : ℕ) (st : Register K) (r : ℕ) : Register K :=
  let δ := residual S st.connection r
  if δ = 0 then { st with previous := X * st.previous }
  else if 2 * st.len < r + 1 + ρ then
    ⟨st.connection - C δ * (X * st.previous),C δ⁻¹ * st.connection,r + 1 + ρ - st.len⟩
  else
    ⟨st.connection - C δ * (X * st.previous),X * st.previous,st.len⟩

/-- The register that starts from the fixed factor alone. -/
def init (Γ : K[X]) (ρ : ℕ) : Register K := ⟨Γ,Γ,ρ⟩

/-- Symbols `ρ` to `ρ + n - 1` read. -/
noncomputable def run (S : PowerSeries K) (Γ : K[X]) (ρ n : ℕ) : Register K :=
  (List.range' ρ n).foldl (step S ρ) (init Γ ρ)

/-- What holds after the symbols below `r` have been read. -/
structure Invariant (S : PowerSeries K) (Γ : K[X]) (ρ : ℕ) (st : Register K) (r : ℕ) : Prop where
  constant : st.connection.coeff 0 = 1
  generates : Generates S st.connection st.len r
  dvd_connection : Γ ∣ st.connection
  dvd_previous : Γ ∣ st.previous
  le_len : ρ ≤ st.len
  len_le : st.len ≤ r
  degree_previous : st.previous.natDegree + st.len ≤ r + ρ
  previous_spec : st.len = ρ ∨ (1 ≤ r ∧ residual S st.previous (r - 1) = 1 ∧
    ∀ j, r + ρ ≤ j + st.len → j + 1 < r → residual S st.previous j = 0)
  shortest : ∀ Λ M, Γ ∣ Λ → Λ.coeff 0 ≠ 0 → Generates S Λ M r → st.len ≤ M

section Steps
variable {S : PowerSeries K} {Γ : K[X]} {ρ r : ℕ} {st : Register K}

theorem Invariant.isShortest (h : Invariant S Γ ρ st r) : Shortest S Γ st.connection st.len r :=
  ⟨h.constant,h.dvd_connection,h.generates,h.shortest⟩

theorem invariant_init (hΓ : Γ.natDegree = ρ) (h0 : Γ.coeff 0 = 1) : Invariant S Γ ρ (init Γ ρ) ρ where
  constant := h0
  generates := ⟨hΓ.le,fun j hj hj' => absurd hj' (by simpa [init] using hj)⟩
  dvd_connection := dvd_rfl
  dvd_previous := dvd_rfl
  le_len := le_rfl
  len_le := le_rfl
  degree_previous := by simp [init,hΓ]
  previous_spec := .inl rfl
  shortest := by
    intro Λ M hd hne hg
    have hΛ0 : Λ ≠ 0 := by
      rintro rfl
      simp at hne
    have hle := Polynomial.natDegree_le_of_dvd hd hΛ0
    exact (hΓ ▸ hle).trans hg.degree_le

private theorem natDegree_X_mul_le (p : K[X]) : (X * p).natDegree ≤ p.natDegree + 1 := by
  have h := Polynomial.natDegree_mul_le (p := (X : K[X])) (q := p)
  rw [Polynomial.natDegree_X] at h
  omega

/-- A shift of the kept polynomial moves its last residual along. -/
private theorem previous_spec_shift (h : Invariant S Γ ρ st r) :
    st.len = ρ ∨ (1 ≤ r + 1 ∧ residual S (X * st.previous) (r + 1 - 1) = 1 ∧
      ∀ j, r + 1 + ρ ≤ j + st.len → j + 1 < r + 1 → residual S (X * st.previous) j = 0) := by
  rcases h.previous_spec with hlen | ⟨hr,hone,hzero⟩
  · exact .inl hlen
  · refine .inr ⟨by omega,?_,?_⟩
    · obtain ⟨k,rfl⟩ : ∃ k, r = k + 1 := ⟨r - 1,by omega⟩
      rw [Nat.add_sub_cancel,residual_X_mul_succ]
      simpa using hone
    · intro j hj hjr
      have hpos : 1 ≤ j := by
        have := h.len_le
        omega
      obtain ⟨k,rfl⟩ : ∃ k, j = k + 1 := ⟨j - 1,by omega⟩
      rw [residual_X_mul_succ]
      exact hzero k (by omega) (by omega)

/-- The corrected connection polynomial predicts the new symbol too. -/
private theorem generates_corrected (h : Invariant S Γ ρ st r) {M : ℕ} (hM : st.len ≤ M)
    (hM' : r + 1 + ρ ≤ M + st.len) (hvac : st.len = ρ → r < M) :
    Generates S (st.connection - C (residual S st.connection r) * (X * st.previous)) M (r + 1) := by
  refine ⟨?_,?_⟩
  · refine (Polynomial.natDegree_sub_le _ _).trans (max_le (h.generates.degree_le.trans hM) ?_)
    refine (Polynomial.natDegree_C_mul_le _ _).trans ((natDegree_X_mul_le _).trans ?_)
    have := h.degree_previous
    omega
  · intro j hj hjr
    rw [residual_sub,residual_C_mul]
    rcases previous_spec_shift h with hlen | ⟨-,hone,hzero⟩
    · have := hvac hlen
      omega
    · by_cases hlast : j = r
      · subst hlast
        rw [Nat.add_sub_cancel] at hone
        rw [hone,mul_one,sub_self]
      · rw [h.generates.predicts j (by omega) (by omega),hzero j (by omega) (by omega),mul_zero,
          sub_zero]

private theorem coeff_corrected (h : Invariant S Γ ρ st r) (δ : K) :
    (st.connection - C δ * (X * st.previous)).coeff 0 = 1 := by
  rw [Polynomial.coeff_sub,h.constant]
  simp

private theorem dvd_corrected (h : Invariant S Γ ρ st r) (δ : K) :
    Γ ∣ st.connection - C δ * (X * st.previous) :=
  dvd_sub h.dvd_connection ((h.dvd_previous.mul_left X).mul_left _)

/-- One symbol read keeps the invariant. -/
theorem invariant_step (hΓ : Γ.natDegree = ρ) (h0 : Γ.coeff 0 = 1) (h : Invariant S Γ ρ st r) :
    Invariant S Γ ρ (step S ρ st r) (r + 1) := by
  have hΓ0 : Γ ≠ 0 := by
    rintro rfl
    simp at h0
  have hle := h.le_len
  have hlr := h.len_le
  have hdeg := h.degree_previous
  have hdeg' := natDegree_X_mul_le st.previous
  rw [step]
  split
  · rename_i hδ
    refine ⟨h.constant,⟨h.generates.degree_le,?_⟩,h.dvd_connection,h.dvd_previous.mul_left X,hle,?_,?_,
      previous_spec_shift h,?_⟩
    · intro j hj hjr
      by_cases hlast : j = r
      · subst hlast
        exact hδ
      · exact h.generates.predicts j hj (by omega)
    · exact hlr.trans (Nat.le_succ r)
    · dsimp only
      omega
    · intro Λ M hd hne hg
      exact h.shortest Λ M hd hne (hg.mono (Nat.le_succ r))
  · rename_i hδ
    split
    · rename_i hchange
      have hgen := generates_corrected h (M := r + 1 + ρ - st.len) (by omega) (by omega) (by omega)
      refine ⟨coeff_corrected h _,hgen,dvd_corrected h _,h.dvd_connection.mul_left _,?_,?_,?_,
        .inr ⟨?_,?_,?_⟩,?_⟩
      · dsimp only
        omega
      · dsimp only
        omega
      · have hc := Polynomial.natDegree_C_mul_le (residual S st.connection r)⁻¹ st.connection
        have hd := h.generates.degree_le
        dsimp only
        omega
      · omega
      · rw [Nat.add_sub_cancel,residual_C_mul,inv_mul_cancel₀ hδ]
      · intro j hj hjr
        dsimp only at hj
        rw [residual_C_mul,h.generates.predicts j (by omega) (by omega),mul_zero]
      · intro Λ M hd hne hg
        have hgap := le_len_of_discrepancy hΓ hΓ0 h.dvd_connection hd (by simp [h.constant]) hne
          h.generates hg hδ
        dsimp only
        omega
    · rename_i hkeep
      have hgen := generates_corrected h (M := st.len) le_rfl (by omega) (by omega)
      refine ⟨coeff_corrected h _,hgen,dvd_corrected h _,h.dvd_previous.mul_left X,hle,?_,?_,
        previous_spec_shift h,?_⟩
      · exact hlr.trans (Nat.le_succ r)
      · dsimp only
        omega
      · intro Λ M hd hne hg
        exact h.shortest Λ M hd hne (hg.mono (Nat.le_succ r))

/-- The invariant holds after any number of symbols. -/
theorem invariant_run (hΓ : Γ.natDegree = ρ) (h0 : Γ.coeff 0 = 1) (n : ℕ) :
    Invariant S Γ ρ (run S Γ ρ n) (ρ + n) := by
  induction n with
  | zero => exact invariant_init hΓ h0
  | succ n ih =>
    rw [run,List.range'_concat,List.foldl_append,Nat.one_mul]
    exact invariant_step hΓ h0 ih

end Steps

end Register
end MfskCore.Library
