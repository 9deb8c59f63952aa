import MfskCore.Fec.RsCode
import Mathlib.Algebra.Field.GeomSum

/-! The decoder as a whole. It accepts when the locator has as many roots as its degree and does
not compare that degree with the length of the register; the corrected word is a codeword
whenever the two agree. The condition is put on the syndromes of the word: on the shortest
recurrences through them, of which there is one within the decoding radius. -/
namespace MfskCore.Fec
open Polynomial Library Rs6312
open GF64 (α)

section Syndromes
variable (data : Word)

private theorem length_foldl_mapIdx (f : Symbol → Nat → Symbol → Symbol) (l s : List Symbol) :
    (l.foldl (fun s symbol => s.mapIdx (f symbol)) s).length = s.length := by
  induction l generalizing s with
  | nil => rfl
  | cons symbol l ih => rw [List.foldl_cons,ih,List.length_mapIdx]

theorem length_syndromes : (new.syndromes data).length = 51 := by
  rw [syndromes,length_foldl_mapIdx fun symbol i si => if si = 0 then symbol
    else symbol ^^^ new.pow (modnn (new.log si + (FCR + i) * PRIM)),List.length_replicate,NROOTS]

private theorem getD_map {β γ : Type} (f : β → γ) (l : List β) {j : Nat} (d : β) (e : γ) (hj : j < l.length) :
    (l.map f).getD j e = f (l.getD j d) := by
  simp [List.getD_eq_getElem?_getD,hj]

theorem syndromesOf_new : SyndromesOf (syndromeSeries data) ((new.syndromes data).map new.log) := by
  intro j hj
  rw [getD_map new.log (new.syndromes data) 0 0 (by rwa [length_syndromes]),ofIndex_log,
    gf_syndromes data j hj]

private theorem foldl_or_eq_zero (l : List Symbol) (acc : Symbol) :
    l.foldl (· ||| ·) acc = 0 ↔ acc = 0 ∧ ∀ x ∈ l, x = 0 := by
  induction l generalizing acc with
  | nil => simp
  | cons x l ih =>
    have hor : acc ||| x = 0 ↔ acc = 0 ∧ x = 0 := BitVec.or_eq_zero_iff
    rw [List.foldl_cons,ih,hor,and_assoc,List.forall_mem_cons]

private theorem forall_mem_iff_getD (l : List Symbol) :
    (∀ x ∈ l, x = 0) ↔ ∀ i < l.length, l.getD i 0 = 0 := by
  constructor
  · intro h i hi
    rw [List.getD_eq_getElem _ _ hi]
    exact h _ (List.getElem_mem hi)
  · intro h x hx
    obtain ⟨i,hi,rfl⟩ := List.getElem_of_mem hx
    rw [← h i hi,List.getD_eq_getElem _ _ hi]

/-- The early exit is taken for codewords. -/
theorem synError_eq_zero : (new.syndromes data).foldl (· ||| ·) 0 = 0 ↔ IsCodeword data := by
  rw [foldl_or_eq_zero,forall_mem_iff_getD,length_syndromes]
  constructor
  · rintro ⟨-,h⟩ i hi
    rw [← gf_syndromes data i hi,gf_eq_zero,h i hi]
  · intro h
    refine ⟨rfl,fun i hi => ?_⟩
    rw [← gf_eq_zero,gf_syndromes data i hi,h i hi]

end Syndromes

section Register
variable (data : Word) (eras : List Nat)

/-- The shortest register above the erasure locator for the syndromes of a word. -/
noncomputable def register : Register GF64 :=
  Register.run (syndromeSeries data) (erasureFactor eras) eras.length (51 - eras.length)

variable {data eras}

theorem register_invariant (data : Word) (h : eras.length ≤ 51) :
    Register.Invariant (syndromeSeries data) (erasureFactor eras) eras.length (register data eras) 51 := by
  have hrun := Register.invariant_run (S := syndromeSeries data) (natDegree_erasureFactor eras)
    (coeff_erasureFactor_zero eras) (51 - eras.length)
  rwa [Nat.add_sub_cancel' h] at hrun

theorem shortest_register (data : Word) (h : eras.length ≤ 51) :
    Shortest (syndromeSeries data) (erasureFactor eras) (register data eras).connection
      (register data eras).len 51 :=
  (register_invariant data h).isShortest

theorem natDegree_register_le (data : Word) (h : eras.length ≤ 51) :
    (register data eras).connection.natDegree ≤ (register data eras).len ∧ (register data eras).len ≤ 51 :=
  ⟨(register_invariant data h).generates.degree_le,(register_invariant data h).len_le⟩

/-- A locator that splits is the locator of its roots. -/
theorem eq_locator_rootSet {Λ : GF64[X]} (h0 : Λ.coeff 0 = 1) (h : Λ.natDegree = (rootSet Λ).card) :
    Λ = locator (rootSet Λ) point :=
  eq_locator (fun p _ => point_ne_zero p) point_injective.injOn h0 h.le fun _ hp => mem_rootSet.1 hp

theorem eval_derivative_ne_zero {Λ : GF64[X]} (h0 : Λ.coeff 0 = 1) (h : Λ.natDegree = (rootSet Λ).card)
    {p : Fin NN} (hp : p ∈ rootSet Λ) : (derivative Λ).eval (point p)⁻¹ ≠ 0 := by
  have hd := eval_derivative_locator (fun q _ => point_ne_zero q) hp
  rw [← eq_locator_rootSet h0 h] at hd
  rw [hd]
  exact mul_ne_zero (neg_ne_zero.2 (point_ne_zero p))
    (eval_erase_ne_zero (fun q _ => point_ne_zero q) point_injective.injOn hp)

variable (data eras)

/-- The evaluator the code builds from a word's locator. -/
noncomputable def evaluatorOf : GF64[X] :=
  indexPoly (new.omega ((new.syndromes data).map new.log)
    ((new.berlekampMassey ((new.syndromes data).map new.log) eras).lambda.map new.log)
    ((register data eras).connection.natDegree - 1))

/-- The word with Forney's values added at the roots. -/
noncomputable def corrected : Word := fun q =>
  let Λ := (register data eras).connection
  if q ∈ rootSet Λ then data q ^^^ (errorValue Λ (evaluatorOf data eras) q).symbol else data q

variable {data eras}

/-- What the decoder returns for a word that is no codeword. -/
theorem decodeNativeErasures_eq (hlen : eras.length ≤ 51) (hrange : ∀ pos ∈ eras, pos < 63) (hdata : ¬IsCodeword data) :
    let Λ := (register data eras).connection
    new.decodeNativeErasures data eras =
      if Λ.natDegree ≠ (rootSet Λ).card then none
      else some (infoOf (corrected data eras),Λ.natDegree) := by
  intro Λ
  have hinv := register_invariant data hlen
  have href := refines_run (syndromesOf_new data) eras hlen
  have hlambda : ((new.berlekampMassey ((new.syndromes data).map new.log) eras).lambda.map new.log).length
      = 52 := (List.length_map _).trans href.lambda_length
  have hpoly : indexPoly ((new.berlekampMassey ((new.syndromes data).map new.log) eras).lambda.map new.log)
      = Λ := (indexPoly_map_log _).trans href.lambda
  have hdeg : Λ.natDegree ≤ 51 := (natDegree_register_le data hlen).1.trans (natDegree_register_le data hlen).2
  have hfound := roots_eq _ hlambda hpoly hinv.constant hdeg
  have hany : eras.any (· ≥ NN) = false := by
    rw [List.any_eq_false]
    intro pos hpos
    have hlt : pos < NN := hrange pos hpos
    simpa using hlt
  have hshort : ¬eras.length > NROOTS := Nat.not_lt.2 hlen
  rw [decodeNativeErasures,if_neg hshort]
  dsimp only
  rw [if_neg (fun h => hdata ((synError_eq_zero data).1 h)),hany,if_neg Bool.false_ne_true,
    degree_eq _ hlambda,hpoly,hfound,List.length_map,length_rootList]
  by_cases hcard : Λ.natDegree = (rootSet Λ).card
  · rw [if_neg (not_not.2 hcard),if_neg (not_not.2 hcard),← List.map_reverse,
      foldlM_forney hpoly hlambda hdeg (length_omega _) _ (List.nodup_reverse.2 (nodup_rootList Λ))
        (fun p hp => eval_derivative_ne_zero hinv.constant hcard
          (List.mem_toFinset.2 (List.mem_reverse.1 hp))),← hcard]
    refine congrArg (fun w => some (infoOf w,Λ.natDegree)) (funext fun q => ?_)
    simp only [corrected,evaluatorOf,rootSet,List.mem_reverse,List.mem_toFinset]
    rfl
  · rw [if_pos hcard,if_pos hcard]

/-- Away from the roots nothing is corrected. -/
theorem corrected_of_notMem {q : Fin NN} (hq : q ∉ rootSet (register data eras).connection) :
    corrected data eras q = data q := if_neg hq

private theorem evaluatorOf_spec (hlen : eras.length ≤ 51)
    (hdeg : (register data eras).connection.natDegree = (register data eras).len) :
    (evaluatorOf data eras).degree < (register data eras).len ∧ ∀ j < (register data eras).len,
      (evaluatorOf data eras).coeff j = residual (syndromeSeries data) (register data eras).connection j := by
  have hinv := register_invariant data hlen
  have href := refines_run (syndromesOf_new data) eras hlen
  have hle := (natDegree_register_le data hlen).2
  have hcoeff : ∀ j ≤ (register data eras).connection.natDegree - 1, (evaluatorOf data eras).coeff j =
      residual (syndromeSeries data) (register data eras).connection j := fun j hj =>
    coeff_omega (syndromesOf_new data) ((indexPoly_map_log _).trans href.lambda)
      ((List.length_map _).trans href.lambda_length) hj (by omega)
  refine ⟨(Polynomial.degree_lt_iff_coeff_zero _ _).2 fun j hj => ?_,fun j hj => hcoeff j (by omega)⟩
  by_cases hj0 : j = 0
  · rw [hj0,hcoeff 0 (Nat.zero_le _)]
    exact hinv.generates.predicts 0 (by omega) (by omega)
  · exact coeff_indexPoly_of_le _ _ (by rw [length_omega]; omega)

private theorem forney_cancel {x l : GF64} (a : GF64) (hx : x ≠ 0) (hl : l ≠ 0) :
    a = a * x⁻¹ ^ 2 / (x * l) * x ^ 3 * l := by
  field_simp

/-- A locator as long as its register corrects to a codeword. -/
theorem isCodeword_corrected (data : Word) (hlen : eras.length ≤ 51)
    (hdeg : (register data eras).connection.natDegree = (register data eras).len)
    (hcard : (register data eras).connection.natDegree = (rootSet (register data eras).connection).card) :
    IsCodeword (corrected data eras) := by
  have hinv := register_invariant data hlen
  have hgen := hinv.generates
  have hloc := eq_locator_rootSet hinv.constant hcard
  obtain ⟨hω,hcoeff⟩ := evaluatorOf_spec hlen hdeg
  rw [← hdeg,hcard] at hgen hω hcoeff
  have hvalue : ∀ p ∈ rootSet (register data eras).connection, (evaluatorOf data eras).eval (point p)⁻¹ =
      errorValue (register data eras).connection (evaluatorOf data eras) p * point p ^ 3 *
        (locator ((rootSet (register data eras).connection).erase p) point).eval (point p)⁻¹ := by
    intro p hp
    have hder := eval_derivative_locator (x := point) (fun q _ => point_ne_zero q) hp
    have hne := eval_erase_ne_zero (fun q _ => point_ne_zero q) point_injective.injOn hp
    have hneg : -point p = point p := rfl
    rw [← hloc,hneg] at hder
    rw [errorValue,hder]
    exact forney_cancel _ (point_ne_zero p) hne
  generalize hΛ : (register data eras).connection = Λ at *
  generalize hR : rootSet Λ = R at *
  subst hloc
  have hsums := powerSums_of_evaluator (fun p _ => point_ne_zero p) point_injective.injOn hgen hω hcoeff
    hvalue
  intro i hi
  have hsub := coeff_syndromeSeries_sub (v := corrected data eras) (w := data) (P := R)
    (fun q hq => corrected_of_notMem (by rwa [hΛ,hR])) i
  have hterm : ∀ p ∈ R, (gf (corrected data eras p) - gf (data p)) * point p ^ 3 * point p ^ i =
      errorValue (locator R point) (evaluatorOf data eras) p * point p ^ 3 * point p ^ i := by
    intro p hp
    have hcell : corrected data eras p =
        data p ^^^ (errorValue (locator R point) (evaluatorOf data eras) p).symbol := by
      rw [corrected,hΛ]
      exact if_pos (by rwa [hR])
    rw [hcell,gf_xor,add_sub_cancel_left]
  rw [Finset.sum_congr rfl hterm,← hsums i hi] at hsub
  exact (sub_eq_iff_eq_add.1 hsub).trans (sub_self _)

end Register

section Soundness
variable {data : Word} {eras : List Nat}

/-- The decoder's promise: its answer is a codeword no further off than the count it returns. -/
def Sound (data : Word) (eras : List Nat) : Prop :=
  ∀ info n, new.decodeNativeErasures data eras = some (info,n) → hammingDist (new.encodeNative info) data ≤ n

/-- A recurrence that splits, with distinct roots over the positions, has its length for degree. -/
def FullDegree (Λ : GF64[X]) (L : Nat) : Prop := Λ.natDegree = (rootSet Λ).card → Λ.natDegree = L

/-- What the syndromes of a word have to satisfy: no shortest recurrence through all 51 of them,
among those above the erasure locator, splits with a degree below its length. -/
def NonDegenerate (data : Word) (eras : List Nat) : Prop :=
  ∀ Λ L, Shortest (syndromeSeries data) (erasureFactor eras) Λ L 51 → FullDegree Λ L

theorem decode_codeword (hlen : eras.length ≤ 51) (hdata : IsCodeword data) :
    new.decodeNativeErasures data eras = some (infoOf data,0) := by
  have hshort : ¬eras.length > NROOTS := Nat.not_lt.2 hlen
  rw [decodeNativeErasures,if_neg hshort]
  exact if_pos ((synError_eq_zero data).2 hdata)

theorem length_le_of_decode {r : Info × Nat} (h : new.decodeNativeErasures data eras = some r) :
    eras.length ≤ 51 := by
  by_contra hlong
  have hlong' : eras.length > NROOTS := Nat.lt_of_not_le hlong
  rw [decodeNativeErasures,if_pos hlong'] at h
  exact absurd h (by simp)

theorem range_of_decode {r : Info × Nat} (hdata : ¬IsCodeword data)
    (h : new.decodeNativeErasures data eras = some r) : ∀ pos ∈ eras, pos < 63 := by
  intro pos hpos
  by_contra hout
  have hany : eras.any (· ≥ NN) = true := List.any_eq_true.2 ⟨pos,hpos,decide_eq_true (Nat.le_of_not_lt hout)⟩
  have hshort : ¬eras.length > NROOTS := Nat.not_lt.2 (length_le_of_decode h)
  rw [decodeNativeErasures,if_neg hshort] at h
  dsimp only at h
  rw [if_neg (fun h0 => hdata ((synError_eq_zero data).1 h0)),hany,if_pos rfl] at h
  exact absurd h (by simp)

theorem hammingDist_corrected_le :
    hammingDist (corrected data eras) data ≤ (rootSet (register data eras).connection).card := by
  apply Finset.card_le_card
  intro p hp
  by_contra hout
  exact (Finset.mem_filter.1 hp).2 (corrected_of_notMem hout)

/-- The recurrence the decoder finds decides. -/
theorem sound_of_register (h : FullDegree (register data eras).connection (register data eras).len) :
    Sound data eras := by
  intro info n hdec
  have hlen := length_le_of_decode hdec
  by_cases hdata : IsCodeword data
  · rw [decode_codeword hlen hdata] at hdec
    obtain ⟨rfl,rfl⟩ : infoOf data = info ∧ 0 = n := by simpa using hdec
    rw [← eq_encodeNative hdata,hammingDist_self]
  · rw [decodeNativeErasures_eq hlen (range_of_decode hdata hdec) hdata] at hdec
    split at hdec
    · exact absurd hdec (by simp)
    · rename_i hcard
      rw [not_not] at hcard
      obtain ⟨rfl,rfl⟩ : infoOf (corrected data eras) = info ∧
          (register data eras).connection.natDegree = n := by simpa using hdec
      rw [← eq_encodeNative (isCodeword_corrected data hlen (h hcard) hcard)]
      exact hammingDist_corrected_le.trans hcard.symm.le

/-- The syndromes see a word only through its distance from a codeword. -/
theorem generates_of_codeword {c : Word} (hc : IsCodeword c) {P : Finset (Fin NN)}
    (hP : ∀ p, p ∉ P → data p = c p) {Λ : GF64[X]} {M : Nat} :
    Generates (powerSums P point fun p => (gf (data p) - gf (c p)) * point p ^ 3) Λ M 51 ↔
      Generates (syndromeSeries data) Λ M 51 := by
  have hcoeff : ∀ i < 51, PowerSeries.coeff i (syndromeSeries data) =
      PowerSeries.coeff i (powerSums P point fun p => (gf (data p) - gf (c p)) * point p ^ 3) := by
    intro i hi
    have hsub := coeff_syndromeSeries_sub hP i
    rw [hc i hi,sub_zero] at hsub
    rw [hsub,powerSums,PowerSeries.coeff_mk]
  exact ⟨fun h => h.congr hcoeff,fun h => h.congr fun i hi => (hcoeff i hi).symm⟩

private theorem no_erasures : ([] : List Nat).length ≤ 51 := Nat.zero_le 51

/-- A register without erasures is no longer than the distance to any codeword. -/
theorem len_register_le (data : Word) {c : Word} (hc : IsCodeword c) : (register data []).len ≤ hammingDist c data := by
  have hP : ∀ p, p ∉ (Finset.univ.filter fun p => c p ≠ data p) → data p = c p := by
    intro p hp
    have heq : c p = data p := by simpa using hp
    exact heq.symm
  refine (register_invariant data no_erasures).shortest _ _ ?_ ?_ ((generates_of_codeword hc hP).1
    (generates_locator (fun p _ => point_ne_zero p) _ 51))
  · exact one_dvd _
  · rw [coeff_locator_zero]
    exact one_ne_zero

/-- Without erasures a sound answer comes from a recurrence of full degree. -/
theorem fullDegree_of_sound (h : Sound data []) :
    FullDegree (register data []).connection (register data []).len := by
  intro hcard
  have hdeg := (natDegree_register_le data no_erasures).1
  by_cases hdata : IsCodeword data
  · have hle := len_register_le data hdata
    rw [hammingDist_self] at hle
    omega
  · have hdec := decodeNativeErasures_eq no_erasures (by simp) hdata
    dsimp only at hdec
    rw [if_neg (not_not.2 hcard)] at hdec
    have hdist := h _ _ hdec
    have hlen := len_register_le data (isCodeword_encodeNative (infoOf (corrected data [])))
    omega

/-- Below half the number of syndromes there is one shortest recurrence, the decoder's. -/
theorem shortest_eq_register {Λ : GF64[X]} {L : Nat} (heras : eras.length ≤ 51)
    (h : Shortest (syndromeSeries data) (erasureFactor eras) Λ L 51) (hL : 2 * L ≤ 51 + eras.length) :
    Λ = (register data eras).connection ∧ L = (register data eras).len := by
  have hlen := h.len_eq (shortest_register data heras)
  refine ⟨h.unique (natDegree_erasureFactor eras) (coeff_erasureFactor_zero eras) ?_ hL,hlen⟩
  rw [hlen]
  exact shortest_register data heras

theorem sound_of_nonDegenerate (h : NonDegenerate data eras) : Sound data eras := by
  intro info n hdec
  have heras := length_le_of_decode hdec
  exact sound_of_register (h _ _ (shortest_register data heras)) info n hdec

end Soundness

section Radius

/-- A word with an error pattern added. -/
def addErrors (w e : Word) : Word := fun p => w p ^^^ e p

/-- The errors of a pattern outside the erased positions. -/
def errorsOutside (e : Word) (eras : List (Fin NN)) : Finset (Fin NN) :=
  Finset.univ.filter fun p => p ∉ eras ∧ e p ≠ 0

variable {info : Info} {eras : List (Fin NN)} {e : Word}

theorem erasureFactor_eq (hnodup : eras.Nodup) :
    erasureFactor (eras.map Fin.val) = locator eras.toFinset point := by
  rw [erasureFactor,List.map_map,locator,List.prod_toFinset _ hnodup]
  rfl

/-- Erasures and errors together. -/
private def pattern (e : Word) (eras : List (Fin NN)) : Finset (Fin NN) := eras.toFinset ∪ errorsOutside e eras

private theorem card_pattern (hnodup : eras.Nodup) :
    (pattern e eras).card = eras.length + (errorsOutside e eras).card := by
  rw [pattern,Finset.card_union_of_disjoint,List.toFinset_card_of_nodup hnodup]
  rw [Finset.disjoint_left]
  intro p hp hout
  exact (Finset.mem_filter.1 hout).2.1 (List.mem_toFinset.1 hp)

private theorem addErrors_of_notMem {w : Word} {p : Fin NN} (hp : p ∉ pattern e eras) :
    addErrors w e p = w p := by
  have hzero : e p = 0 := by
    by_contra hne
    apply hp
    rw [pattern,Finset.mem_union,List.mem_toFinset]
    by_cases hmem : p ∈ eras
    · exact .inl hmem
    · exact .inr (Finset.mem_filter.2 ⟨Finset.mem_univ p,hmem,hne⟩)
  rw [addErrors,hzero]
  exact BitVec.xor_zero

/-- Within the radius the one shortest recurrence is the locator of the pattern. -/
private theorem shortest_eq_locator (info : Info) (hnodup : eras.Nodup)
    (h : 2 * (errorsOutside e eras).card + eras.length ≤ 51) {Λ : GF64[X]} {L : Nat}
    (hΛ : Shortest (syndromeSeries (addErrors (new.encodeNative info) e)) (erasureFactor (eras.map Fin.val)) Λ L 51) :
    Λ = locator (pattern e eras) point ∧ L = (pattern e eras).card := by
  have hcard := card_pattern (e := e) hnodup
  have hE : eras.toFinset ⊆ pattern e eras := Finset.subset_union_left
  have hEcard := List.toFinset_card_of_nodup hnodup
  have hcode := isCodeword_encodeNative info
  have hP : ∀ p, p ∉ pattern e eras → addErrors (new.encodeNative info) e p = new.encodeNative info p :=
    fun p hp => addErrors_of_notMem hp
  have hdvd := hΛ.dvd
  rw [erasureFactor_eq hnodup] at hdvd
  have hle := hΛ.least (locator (pattern e eras) point) (pattern e eras).card
    (by rw [erasureFactor_eq hnodup,locator_eq_mul_sdiff hE]; exact dvd_mul_right _ _)
    (by rw [coeff_locator_zero]; exact one_ne_zero)
    ((generates_of_codeword hcode hP).1 (generates_locator (fun p _ => point_ne_zero p) _ 51))
  have hvalue : ∀ p ∈ pattern e eras \ eras.toFinset,
      (gf (addErrors (new.encodeNative info) e p) - gf (new.encodeNative info p)) * point p ^ 3 ≠ 0 := by
    intro p hp
    rw [Finset.mem_sdiff,pattern,Finset.mem_union] at hp
    have hne := (Finset.mem_filter.1 (hp.1.resolve_left hp.2)).2.2
    rw [addErrors,gf_xor,add_sub_cancel_left]
    exact mul_ne_zero (fun h0 => hne (gf_eq_zero.1 h0)) (pow_ne_zero 3 (point_ne_zero p))
  have heq := eq_locator_of_generates (fun p _ => point_ne_zero p) point_injective.injOn hE hvalue
    (by omega) hΛ.constant hdvd ((generates_of_codeword hcode hP).2 hΛ.generates) hle
  have hdeg := hΛ.generates.degree_le
  rw [heq,natDegree_locator fun p _ => point_ne_zero p] at hdeg
  exact ⟨heq,le_antisymm hle hdeg⟩

/-- Errors and erasures within the radius keep the condition. -/
theorem nonDegenerate_of_radius (info : Info) (hnodup : eras.Nodup)
    (h : 2 * (errorsOutside e eras).card + eras.length ≤ 51) :
    NonDegenerate (addErrors (new.encodeNative info) e) (eras.map Fin.val) := by
  intro Λ L hΛ _
  obtain ⟨rfl,rfl⟩ := shortest_eq_locator info hnodup h hΛ
  exact natDegree_locator fun p _ => point_ne_zero p

private theorem rootSet_locator (P : Finset (Fin NN)) : rootSet (locator P point) = P := by
  ext p
  rw [mem_rootSet,eval_locator_eq_zero_iff]
  constructor
  · rintro ⟨q,hq,heq⟩
    rw [mul_inv_eq_one₀ (point_ne_zero p)] at heq
    rwa [← point_injective heq]
  · exact fun hp => ⟨p,hp,mul_inv_cancel₀ (point_ne_zero p)⟩

theorem decodeNativeErasures_complete (info : Info) (e : Word) (hnodup : eras.Nodup)
    (h : 2 * (errorsOutside e eras).card + eras.length ≤ 51) :
    ∃ n, new.decodeNativeErasures (addErrors (new.encodeNative info) e) (eras.map Fin.val) = some (info,n) := by
  have hlen : (eras.map Fin.val).length ≤ 51 := by
    rw [List.length_map]
    omega
  have hcard := card_pattern (e := e) hnodup
  have hcode := isCodeword_encodeNative info
  have hsmall : (pattern e eras).card ≤ 51 := by omega
  by_cases hdata : IsCodeword (addErrors (new.encodeNative info) e)
  · have heq := codeword_eq_of_agree hdata hcode hsmall fun p hp => addErrors_of_notMem hp
    refine ⟨0,?_⟩
    rw [decode_codeword hlen hdata,heq,infoOf_encodeNative]
  · obtain ⟨hloc,hL⟩ := shortest_eq_locator info hnodup h (shortest_register _ hlen)
    have hdeg : (locator (pattern e eras) point).natDegree = (pattern e eras).card :=
      natDegree_locator fun p _ => point_ne_zero p
    have hrange : ∀ pos ∈ eras.map Fin.val, pos < 63 := by
      intro pos hpos
      obtain ⟨p,-,rfl⟩ := List.mem_map.1 hpos
      exact p.isLt
    have hcorrected := isCodeword_corrected (addErrors (new.encodeNative info) e) hlen
      (by rw [hloc,hL,hdeg]) (by rw [hloc,rootSet_locator,hdeg])
    have heq := codeword_eq_of_agree hcorrected hcode hsmall fun p hp =>
      (corrected_of_notMem (by rwa [hloc,rootSet_locator])).trans (addErrors_of_notMem hp)
    have hdec := decodeNativeErasures_eq hlen hrange hdata
    dsimp only at hdec
    rw [hloc,rootSet_locator,hdeg,if_neg (not_not.2 rfl),heq,infoOf_encodeNative] at hdec
    exact ⟨_,hdec⟩

end Radius

section Exactness

/-- A word with the syndromes `1, 0, …, 0`: the powers of `α⁻³`. -/
def skewWord : Word := fun p => new.pow (modnn (60 * (62 - p.val)))

private theorem sum_point_pow {i : Nat} (hi : i < 63) : ∑ p, point p ^ i = if i = 0 then 1 else 0 := by
  have hterm : ∀ p : Fin NN, point p ^ i = (α ^ i) ^ (62 - p.val) := by
    intro p
    rw [point,← pow_mul,← pow_mul,Nat.mul_comm]
  rw [Finset.sum_congr rfl fun p _ => hterm p,sum_word fun k => (α ^ i) ^ k]
  split
  · rename_i h0
    have hodd : 63 • (1 : GF64) = 1 := by decide
    simp only [h0,pow_zero,one_pow,Finset.sum_const,Finset.card_range,hodd]
  · rename_i h0
    have hne : α ^ i ≠ 1 := by
      rw [← pow_zero α]
      exact fun h => h0 (GF64.α_pow_injOn hi (by omega) h)
    rw [geom_sum_eq hne,← pow_mul,Nat.mul_comm,pow_mul,GF64.α_pow_63,one_pow,sub_self,zero_div]

private theorem coeff_skewWord {i : Nat} (hi : i < 51) :
    PowerSeries.coeff i (syndromeSeries skewWord) = if i = 0 then 1 else 0 := by
  rw [← sum_point_pow (by omega : i < 63),coeff_syndromeSeries]
  refine Finset.sum_congr rfl fun p _ => ?_
  have hexp : 60 * (62 - p.val) + (62 - p.val) * (3 + i) = 63 * (62 - p.val) + (62 - p.val) * i := by ring
  rw [skewWord,gf_pow_modnn,point,← pow_mul,← pow_add,hexp,pow_add,pow_mul,GF64.α_pow_63,one_pow,one_mul,
    pow_mul]

theorem not_isCodeword_skewWord : ¬IsCodeword skewWord := by
  intro h
  have h0 := h 0 (by omega)
  rw [coeff_skewWord (by omega),if_pos rfl] at h0
  exact one_ne_zero h0

private theorem residual_skewWord (Λ : GF64[X]) {j : Nat} (hj : j < 51) :
    residual (syndromeSeries skewWord) Λ j = Λ.coeff j := by
  rw [residual_eq_sum,Finset.sum_range_succ,Nat.sub_self,coeff_skewWord (by omega),if_pos rfl,mul_one]
  refine (congrArg (· + Λ.coeff j) (Finset.sum_eq_zero fun i hi => ?_)).trans (zero_add _)
  rw [Finset.mem_range] at hi
  rw [coeff_skewWord (by omega),if_neg (by omega),mul_zero]

/-- The shortest register of `1, 0, …, 0` has length 1 and no feedback. -/
private theorem connection_skewWord : (register skewWord []).connection = 1 := by
  have hinv := register_invariant skewWord no_erasures
  have hone : (1 : GF64[X]).coeff 0 ≠ 0 := by simp
  have hgen : Generates (syndromeSeries skewWord) 1 1 51 := by
    refine ⟨by simp,fun j hj hj51 => ?_⟩
    rw [residual_skewWord _ hj51,Polynomial.coeff_one,if_neg (by omega)]
  have hlen := hinv.shortest 1 1 dvd_rfl hone hgen
  apply Polynomial.ext
  intro j
  rw [Polynomial.coeff_one]
  by_cases hj : j = 0
  · rw [hj,if_pos rfl,hinv.constant]
  · rw [if_neg hj]
    by_cases hj51 : j < 51
    · rw [← residual_skewWord _ hj51]
      exact hinv.generates.predicts j (by omega) hj51
    · have hdeg := hinv.generates.degree_le
      exact Polynomial.coeff_eq_zero_of_natDegree_lt (by omega)

end Exactness

section Completeness

variable {info : Info} {eras : List (Fin NN)} {e : Word}

private theorem eq_rev {p q : Fin NN} (h : p.val + q.val = 62) : p = q.rev := by
  refine Fin.ext ((?_ : p.val = 63 - (q.val + 1)).trans (Fin.val_rev q).symm)
  omega

/-- Both wrappers reverse the word. -/
theorem nativeOrder_eq (w : Word) (p : Fin NN) : nativeOrder w p = w p.rev := by
  have hp : p.val < 63 := p.isLt
  rw [nativeOrder]
  split
  · refine congrArg w (eq_rev ?_)
    change 62 - p.val + p.val = 62
    omega
  · rename_i hk
    have hk12 : ¬p.val < 12 := hk
    refine congrArg w (eq_rev ?_)
    change 50 - (p.val - 12) + p.val = 62
    omega

theorem encodeJt65_eq (info : Info) (k : Fin NN) :
    new.encodeJt65 info k = new.encodeNative (fun i => info i.rev) k.rev := by
  have hk : k.val < 63 := k.isLt
  rw [encodeJt65]
  dsimp only
  split
  · rename_i hlt
    have hk51 : k.val < 51 := hlt
    refine congrArg (new.encodeNative _) (eq_rev ?_)
    change 12 + (50 - k.val) + k.val = 62
    omega
  · rename_i hge
    have hk51 : ¬k.val < 51 := hge
    have hval : k.rev.val = 11 - (k.val - 51) := by
      refine (Fin.val_rev k).trans (?_ : 63 - (k.val + 1) = _)
      omega
    have hrev : k.rev.val < K_SYMBOLS := by
      rw [hval,K_SYMBOLS]
      omega
    refine Eq.trans ?_ (dif_pos hrev).symm
    exact congrArg (fun i : Fin K_SYMBOLS => info i.rev) (Fin.ext hval.symm)

private theorem nativeOrder_addErrors (info : Info) (e : Word) :
    nativeOrder (addErrors (new.encodeJt65 info) e) =
      addErrors (new.encodeNative fun i => info i.rev) fun p => e p.rev := by
  funext p
  rw [nativeOrder_eq,addErrors,encodeJt65_eq,Fin.rev_rev]
  rfl

private theorem map_rev_eras (eras : List (Fin NN)) :
    ((eras.map Fin.val).filter (· < NN)).map (fun p => NN - 1 - p) = (eras.map Fin.rev).map Fin.val := by
  have hfilter : (eras.map Fin.val).filter (· < NN) = eras.map Fin.val := by
    rw [List.filter_eq_self]
    intro pos hpos
    obtain ⟨p,-,rfl⟩ := List.mem_map.1 hpos
    exact decide_eq_true p.isLt
  rw [hfilter,List.map_map,List.map_map]
  refine List.map_congr_left fun p _ => ?_
  rw [Function.comp_apply,Function.comp_apply,Fin.val_rev]
  omega

private theorem card_errorsOutside_rev (e : Word) (eras : List (Fin NN)) :
    (errorsOutside (fun p => e p.rev) (eras.map Fin.rev)).card = (errorsOutside e eras).card := by
  refine Finset.card_bij (fun p _ => p.rev) ?_ (fun p _ q _ h => Fin.rev_injective h) ?_
  · intro p hp
    obtain ⟨-,hmem,hne⟩ := Finset.mem_filter.1 hp
    refine Finset.mem_filter.2 ⟨Finset.mem_univ _,fun hin => hmem ?_,hne⟩
    exact List.mem_map.2 ⟨p.rev,hin,Fin.rev_rev p⟩
  · intro p hp
    obtain ⟨-,hmem,hne⟩ := Finset.mem_filter.1 hp
    refine ⟨p.rev,Finset.mem_filter.2 ⟨Finset.mem_univ _,fun hin => hmem ?_,?_⟩,Fin.rev_rev p⟩
    · obtain ⟨q,hq,heq⟩ := List.mem_map.1 hin
      rwa [← Fin.rev_injective heq]
    · dsimp only
      rwa [Fin.rev_rev]

theorem decodeJt65Erasures_complete (hnodup : eras.Nodup)
    (h : 2 * (errorsOutside e eras).card + eras.length ≤ 51) :
    ∃ n, new.decodeJt65Erasures (addErrors (new.encodeJt65 info) e) (eras.map Fin.val) = some (info,n) := by
  obtain ⟨n,hn⟩ := decodeNativeErasures_complete (fun i => info i.rev) (fun p => e p.rev)
    (hnodup.map Fin.rev_injective) (by rwa [card_errorsOutside_rev,List.length_map])
  refine ⟨n,?_⟩
  rw [decodeJt65Erasures]
  dsimp only
  rw [map_rev_eras,nativeOrder_addErrors,hn,Option.map_some]
  simp only [Fin.rev_rev]

/-- Errors and erasures within the radius are corrected, in either symbol order. -/
theorem decodeErasures_radius (info : Info) (eras : List (Fin NN)) (hnodup : eras.Nodup) (e : Word)
    (h : 2 * (errorsOutside e eras).card + eras.length ≤ 51) :
    (∃ n, new.decodeNativeErasures (addErrors (new.encodeNative info) e) (eras.map Fin.val) = some (info,n)) ∧
    (∃ n, new.decodeJt65Erasures (addErrors (new.encodeJt65 info) e) (eras.map Fin.val) = some (info,n)) :=
  ⟨decodeNativeErasures_complete info e hnodup h,decodeJt65Erasures_complete hnodup h⟩

theorem decodeErasures_one_of_each :
    (∃ n, new.decodeNativeErasures (addErrors (new.encodeNative fun _ => 5) fun p => if p.val = 2 then 7 else 0)
      [40] = some (fun _ => 5,n)) ∧
    (∃ n, new.decodeJt65Erasures (addErrors (new.encodeJt65 fun _ => 5) fun p => if p.val = 2 then 7 else 0)
      [40] = some (fun _ => 5,n)) :=
  decodeErasures_radius (fun _ => 5) [⟨40,by decide⟩] (by simp) (fun p => if p.val = 2 then 7 else 0) (by decide)

end Completeness

end MfskCore.Fec
