import MfskCore.Fec.OsdBasis
import MfskCore.Library.KeepBest
import MfskCore.Library.LoopSum

/-! The search around the most reliable basis tries every codeword within its order of the hard decisions,
and returns the nearest one that passes. -/
namespace MfskCore.Fec
open Rust Library BitRow

/-- The codewords whose basis bits differ from the hard decisions in at most `ndeep` positions. -/
def SearchSpace {F : Type} [F32 F] (P : LdpcParams) (llr : List F) (basis : List Nat) (ndeep : Nat)
    (c : List UInt8) : Prop :=
  (∃ info, IsBits P.K info ∧ c = P.ldpcEncodeGeneric info) ∧
    (basis.countP fun i => (c.getD i 0 == 1) != hard llr i) ≤ ndeep

section Patterns
variable (g : Nat → BitRow)

/-- A word with rows added one after another. -/
def applyFlips (c : BitRow) (S : List Nat) : BitRow := S.foldl (fun c r => c.xor (g r)) c

/-- An increasing list of rows. -/
structure Pattern (k ndeep : Nat) (S : List Nat) : Prop where
  sorted : S.Pairwise (· < ·)
  below : ∀ s ∈ S, s < k
  length_le : S.length ≤ ndeep

/-- Every candidate is the first one with some rows added. -/
theorem flips_of_mem_osdCandidates {c cp : BitRow} {k ndeep k4Limit : Nat} {k4Tail : Bool}
    (h : cp ∈ osdCandidates g c k ndeep k4Limit k4Tail) : ∃ S, (∀ s ∈ S, s < k) ∧ cp = applyFlips g c S := by
  have hafter (r s : Nat) : s ∈ List.range' (r + 1) (k - (r + 1)) → s < k := fun hs => by
    have := List.mem_range'_1.mp hs
    omega
  simp only [osdCandidates,List.mem_cons,List.mem_flatMap,List.mem_range] at h
  rcases h with rfl | ⟨k1,hk1,rfl | h⟩
  · exact ⟨[],by simp,rfl⟩
  · exact ⟨[k1],by simpa using hk1,rfl⟩
  · split at h
    · simp at h
    · simp only [List.mem_flatMap,List.mem_cons] at h
      obtain ⟨k2,hk2,rfl | h⟩ := h
      · exact ⟨[k1,k2],by simp [hk1,hafter k1 k2 hk2],rfl⟩
      · split at h
        · simp at h
        · simp only [List.mem_flatMap,List.mem_cons] at h
          obtain ⟨k3,hk3,rfl | h⟩ := h
          · exact ⟨[k1,k2,k3],by simp [hk1,hafter k1 k2 hk2,hafter k2 k3 hk3],rfl⟩
          · obtain ⟨k4,hk4,rfl⟩ := List.mem_map.mp (List.mem_ite_nil_right.mp h).2
            have hlt : k4 < k := by
              have hmem := List.mem_range'_1.mp hk4
              split at hmem <;> omega
            exact ⟨[k1,k2,k3,k4],by simp [hk1,hafter k1 k2 hk2,hafter k2 k3 hk3,hlt],rfl⟩

/-- Up to order three the candidates are the patterns. -/
theorem mem_osdCandidates_iff {c cp : BitRow} {k ndeep k4Limit : Nat} {k4Tail : Bool} (h1 : 1 ≤ ndeep)
    (h3 : ndeep ≤ 3) :
    cp ∈ osdCandidates g c k ndeep k4Limit k4Tail ↔ ∃ S, Pattern k ndeep S ∧ cp = applyFlips g c S := by
  have hdeep : ¬4 ≤ ndeep := by omega
  have hafter (r s : Nat) : s ∈ List.range' (r + 1) (k - (r + 1)) ↔ r < s ∧ s < k := by
    rw [List.mem_range'_1]
    omega
  constructor
  · intro hmem
    simp only [osdCandidates,List.mem_cons,List.mem_flatMap,List.mem_range] at hmem
    rcases hmem with rfl | ⟨k1,hk1,rfl | hmem⟩
    · exact ⟨[],⟨List.Pairwise.nil,by simp,Nat.zero_le _⟩,rfl⟩
    · exact ⟨[k1],⟨List.pairwise_singleton _ _,by simpa using hk1,h1⟩,rfl⟩
    · split at hmem
      · simp at hmem
      · rename_i h2
        simp only [List.mem_flatMap,hafter,List.mem_cons] at hmem
        obtain ⟨k2,⟨h12,hk2⟩,rfl | hmem⟩ := hmem
        · refine ⟨[k1,k2],⟨by simpa using h12,by simp [hk1,hk2],?_⟩,rfl⟩
          simpa using Nat.not_lt.mp h2
        · split at hmem
          · simp at hmem
          · rename_i h3'
            simp only [List.mem_flatMap,hafter,List.mem_cons] at hmem
            obtain ⟨k3,⟨h23,hk3⟩,rfl | hmem⟩ := hmem
            · refine ⟨[k1,k2,k3],⟨?_,by simp [hk1,hk2,hk3],?_⟩,rfl⟩
              · simp [h12,h23,h12.trans h23]
              · simpa using Nat.not_lt.mp h3'
            · rw [if_neg (fun hgate => hdeep hgate.1)] at hmem
              simp at hmem
  · rintro ⟨S,⟨hsorted,hbelow,hlength⟩,rfl⟩
    simp only [osdCandidates,List.mem_cons,List.mem_flatMap,List.mem_range]
    rcases S with _ | ⟨k1,_ | ⟨k2,_ | ⟨k3,_ | ⟨k4,S⟩⟩⟩⟩
    · exact Or.inl rfl
    · exact Or.inr ⟨k1,hbelow k1 (by simp),Or.inl rfl⟩
    · have h2 : ¬ndeep < 2 := Nat.not_lt.mpr hlength
      have h12 : k1 < k2 := by simpa using hsorted
      refine Or.inr ⟨k1,hbelow k1 (by simp),Or.inr ?_⟩
      rw [if_neg h2]
      refine List.mem_flatMap.mpr ⟨k2,(hafter k1 k2).mpr ⟨h12,hbelow k2 (by simp)⟩,?_⟩
      exact List.mem_cons_self
    · have h2 : ¬ndeep < 2 := by
        simp only [List.length_cons,List.length_nil] at hlength
        omega
      have h3' : ¬ndeep < 3 := Nat.not_lt.mpr hlength
      obtain ⟨⟨h12,_⟩,h23⟩ : (k1 < k2 ∧ k1 < k3) ∧ k2 < k3 := by simpa using hsorted
      refine Or.inr ⟨k1,hbelow k1 (by simp),Or.inr ?_⟩
      rw [if_neg h2]
      refine List.mem_flatMap.mpr ⟨k2,(hafter k1 k2).mpr ⟨h12,hbelow k2 (by simp)⟩,List.mem_cons_of_mem _ ?_⟩
      rw [if_neg h3']
      refine List.mem_flatMap.mpr ⟨k3,(hafter k2 k3).mpr ⟨h23,hbelow k3 (by simp)⟩,?_⟩
      exact List.mem_cons_self
    · simp only [List.length_cons] at hlength
      omega

end Patterns

namespace OsdBasis
variable {P : LdpcParams} {b : OsdBasis} {cp : BitRow} {u : Nat → ZMod 2}

/-- The rows added to a combination are counted in its coefficients. -/
theorem Combines.flips (hc : b.Combines P cp u) (hmax : P.N ≤ 256) {S : List Nat} (hS : ∀ s ∈ S, s < P.K) :
    b.Combines P (applyFlips (b.gPacked P) cp S) fun r => u r + (S.count r : ZMod 2) := by
  induction S generalizing cp u with
  | nil => simpa [applyFlips] using hc
  | cons s S ih =>
    have hnext := ih (hc.flip hmax (hS s (by simp))) fun t ht => hS t (List.mem_cons_of_mem _ ht)
    refine ⟨hnext.length,fun c => (hnext.bits c).trans (Finset.sum_congr rfl fun r _ => ?_)⟩
    have hcount : ((s :: S).count r : ZMod 2) = (if r = s then 1 else 0) + (S.count r : ZMod 2) := by
      rw [List.count_cons,Nat.cast_add,add_comm]
      by_cases h : s = r
      · simp [h]
      · simp [h,Ne.symm h]
    rw [hcount,add_assoc]

/-- The positions of the most reliable basis. -/
def basis (b : OsdBasis) : List Nat := b.pivotCol.map fun c => b.perm.getD c 0

/-- The position of the pivot of a row. -/
def pivotPos (b : OsdBasis) (r : Nat) : Nat := b.perm.getD (b.pivotCol.getD r 0) 0

theorem Sound.basis_eq (h : b.Sound P) : b.basis = (List.range P.K).map b.pivotPos := by
  have hcols : b.pivotCol = (List.range P.K).map fun r => b.pivotCol.getD r 0 := by
    apply List.ext_getElem
    · simp [h.full]
    · intro r hr _
      simp [List.getElem?_eq_getElem hr]
  unfold basis
  conv_lhs => rw [hcols]
  rw [List.map_map]
  rfl

/-- The pivots are at different positions. -/
theorem Sound.nodup_basis (h : b.Sound P) : b.basis.Nodup := by
  refine List.Nodup.map_on (fun c hc d hd heq => ?_) (h.echelon.sorted.imp fun hlt => hlt.ne)
  exact h.injective c (h.echelon.below c hc) d (h.echelon.below d hd) heq

end OsdBasis

theorem exists_bit {x : UInt8} (hx : x < 2) : ∃ y : Bool, x = y.toUInt8 := by
  have hnat : x.toNat < 2 := hx
  rcases Nat.lt_or_ge x.toNat 1 with h0 | h1
  · refine ⟨false,UInt8.toNat_inj.mp ?_⟩
    show x.toNat = 0
    omega
  · refine ⟨true,UInt8.toNat_inj.mp ?_⟩
    show x.toNat = 1
    omega

/-- The value of a bit, from a decision and whether it differs from it. -/
theorem bitCast_eq {x : UInt8} (hx : x < 2) (b : Bool) : bitCast x = gf2 b + gf2 ((x == 1) != b) := by
  obtain ⟨y,rfl⟩ := exists_bit hx
  rw [bitCast_toUInt8]
  cases y <;> cases b <;> rfl

/-- A bit differs from a decision exactly when its value does. -/
theorem differs_iff {x : UInt8} (hx : x < 2) (b : Bool) (e : ZMod 2) (h : bitCast x = gf2 b + e) :
    ((x == 1) != b) = decide (e = 1) := by
  have he : gf2 ((x == 1) != b) = e := add_left_cancel ((bitCast_eq hx b).symm.trans h)
  rw [← he]
  cases (x == 1) != b <;> rfl

section Space
variable {F : Type} [F32 F] {P : LdpcParams} {b : OsdBasis} {llr : List F}

/-- A word differs from the hard decisions at the pivots of the rows added an odd number of times. -/
private theorem differs_at_pivot (h : b.Sound P) (hmax : P.N ≤ 256) {S : List Nat} (hS : ∀ s ∈ S, s < P.K)
    {r : Nat} (hr : r < P.K) :
    (((b.scatter P (applyFlips (b.gPacked P) (b.orderZero P llr) S)).getD (b.pivotPos r) 0 == 1)
      != hard llr (b.pivotPos r)) = decide ((S.count r : ZMod 2) = 1) := by
  have hc := (OsdBasis.combines_orderZero (b := b) hmax llr).flips hmax hS
  exact differs_iff ((h.isBits_scatter _).getD_lt _) _ _ (hc.at_pivot h hr)

/-- The word with the hard decisions on the basis is the first candidate, and the only one of order zero. -/
theorem searchSpace_zero_iff (h : b.Sound P) (hN : P.N = P.K + P.M) (hmax : P.N ≤ 256) (c : List UInt8) :
    SearchSpace P llr b.basis 0 c ↔ c = b.scatter P (b.orderZero P llr) := by
  have hnone : ∀ s ∈ ([] : List Nat), s < P.K := by simp
  have hc := (OsdBasis.combines_orderZero (b := b) hmax llr).flips hmax hnone
  constructor
  · rintro ⟨⟨info,hinfo,rfl⟩,hcount⟩
    rw [Nat.le_zero,List.countP_eq_zero,h.basis_eq] at hcount
    refine (hc.eq_of_pivots h hN hinfo fun r hr => ?_).symm
    have hsame := hcount (b.pivotPos r) (List.mem_map_of_mem (List.mem_range.mpr hr))
    rw [Bool.not_eq_true] at hsame
    have hvalue := bitCast_eq ((isBits_encode hN hinfo).getD_lt (b.pivotPos r)) (hard llr (b.pivotPos r))
    rw [hsame,gf2_false] at hvalue
    rw [List.count_nil,Nat.cast_zero]
    exact hvalue
  · rintro rfl
    obtain ⟨hinfo,hword⟩ := hc.encoding h hN
    refine ⟨⟨_,hinfo,hword⟩,Nat.le_of_eq ?_⟩
    rw [List.countP_eq_zero,h.basis_eq]
    intro j hj
    obtain ⟨r,hr,rfl⟩ := List.mem_map.mp hj
    have hdiff := @differs_at_pivot _ _ P b llr h hmax [] hnone r (List.mem_range.mp hr)
    rw [List.count_nil,Nat.cast_zero] at hdiff
    rw [Bool.not_eq_true]
    exact hdiff.trans (by decide)

/-- One word of the code differs from the hard decisions of the basis at a given position and nowhere else. -/
theorem exists_flipped (h : b.Sound P) (hN : P.N = P.K + P.M) (hmax : P.N ≤ 256) (llr : List F) {i : Nat}
    (hi : i ∈ b.basis) :
    ∃ info, IsBits P.K info ∧ SearchSpace P llr b.basis 1 (P.ldpcEncodeGeneric info) ∧
      ∀ j ∈ b.basis, (((P.ldpcEncodeGeneric info).getD j 0 == 1) != hard llr j) = decide (j = i) := by
  have hnodup := h.nodup_basis
  rw [h.basis_eq] at hi hnodup ⊢
  obtain ⟨r,hr,rfl⟩ := List.mem_map.mp hi
  have hbelow : ∀ s ∈ [r], s < P.K := by simpa using List.mem_range.mp hr
  have hc := (OsdBasis.combines_orderZero (b := b) hmax llr).flips hmax hbelow
  obtain ⟨hinfo,hword⟩ := hc.encoding h hN
  have hdiffers : ∀ j ∈ (List.range P.K).map b.pivotPos,
      (((P.ldpcEncodeGeneric (b.decoded P (applyFlips (b.gPacked P) (b.orderZero P llr) [r]))).getD j 0 == 1)
        != hard llr j) = decide (j = b.pivotPos r) := by
    intro j hj
    obtain ⟨t,ht,rfl⟩ := List.mem_map.mp hj
    have hinj : b.pivotPos t = b.pivotPos r ↔ t = r :=
      ⟨fun heq => List.inj_on_of_nodup_map hnodup ht hr heq,fun heq => by rw [heq]⟩
    rw [← hword,differs_at_pivot h hmax hbelow (List.mem_range.mp ht)]
    by_cases htr : t = r
    · simp [htr]
    · simp [htr,hinj,Ne.symm htr]
  refine ⟨_,hinfo,⟨⟨_,hinfo,rfl⟩,?_⟩,hdiffers⟩
  have hcount := List.countP_congr fun j hj => iff_of_eq (congrArg (· = true) (hdiffers j hj))
  rw [hcount]
  exact List.nodup_iff_count_le_one.mp hnodup (b.pivotPos r)

/-- The candidates are the codewords of the search space, and no others. -/
theorem mem_candidates_iff (h : b.Sound P) (hN : P.N = P.K + P.M) (hmax : P.N ≤ 256) {ndeep : Nat}
    (h1 : 1 ≤ ndeep) (h3 : ndeep ≤ 3) (k4Limit : Nat) (k4Tail : Bool) (c : List UInt8) :
    c ∈ (osdCandidates (b.gPacked P) (b.orderZero P llr) P.K ndeep k4Limit k4Tail).map (b.scatter P) ↔
      SearchSpace P llr b.basis ndeep c := by
  unfold SearchSpace
  rw [List.mem_map,h.basis_eq,List.countP_map]
  constructor
  · rintro ⟨cp,hcp,rfl⟩
    obtain ⟨S,hS,rfl⟩ := (mem_osdCandidates_iff _ h1 h3).mp hcp
    have hc := (OsdBasis.combines_orderZero (b := b) hmax llr).flips hmax hS.below
    obtain ⟨hinfo,hword⟩ := hc.encoding h hN
    refine ⟨⟨_,hinfo,hword⟩,?_⟩
    have hnodup : S.Nodup := hS.sorted.imp fun hlt => hlt.ne
    have hcount : (List.range P.K).countP
        ((fun i => ((b.scatter P (applyFlips (b.gPacked P) (b.orderZero P llr) S)).getD i 0 == 1)
          != hard llr i) ∘ b.pivotPos) = (List.range P.K).countP (· ∈ S) := by
      refine List.countP_congr fun r hr => ?_
      have hdiff := @differs_at_pivot _ _ P b llr h hmax _ hS.below _ (List.mem_range.mp hr)
      rw [Function.comp_apply,hdiff]
      by_cases hmem : r ∈ S
      · simp [List.count_eq_one_of_mem hnodup hmem,hmem]
      · simp [List.count_eq_zero.mpr hmem,hmem]
    have hperm : ((List.range P.K).filter (· ∈ S)).Perm S := by
      refine (List.perm_ext_iff_of_nodup (List.nodup_range.filter _) hnodup).mpr fun r => ?_
      rw [List.mem_filter,List.mem_range,decide_eq_true_iff]
      exact ⟨fun hr => hr.2,fun hr => ⟨hS.below r hr,hr⟩⟩
    rw [hcount,List.countP_eq_length_filter,hperm.length_eq]
    exact hS.length_le
  · rintro ⟨⟨info,hinfo,rfl⟩,hcount⟩
    let differs (r : Nat) : Bool :=
      ((P.ldpcEncodeGeneric info).getD (b.pivotPos r) 0 == 1) != hard llr (b.pivotPos r)
    let S := (List.range P.K).filter differs
    have hS : Pattern P.K ndeep S := by
      refine ⟨List.Pairwise.filter _ List.pairwise_lt_range,fun s hs => ?_,?_⟩
      · exact List.mem_range.mp (List.mem_filter.mp hs).1
      · rw [← List.countP_eq_length_filter]
        exact hcount
    have hc := (OsdBasis.combines_orderZero (b := b) hmax llr).flips hmax hS.below
    refine ⟨_,(mem_osdCandidates_iff _ h1 h3).mpr ⟨S,hS,rfl⟩,?_⟩
    refine hc.eq_of_pivots h hN hinfo fun r hr => ?_
    have hvalue := bitCast_eq ((isBits_encode hN hinfo).getD_lt (b.pivotPos r)) (hard llr (b.pivotPos r))
    have hnodup : S.Nodup := List.nodup_range.filter _
    have hcountS : (S.count r : ZMod 2) = gf2 (differs r) := by
      by_cases hdiff : differs r
      · have hmem : r ∈ S := List.mem_filter.mpr ⟨List.mem_range.mpr hr,hdiff⟩
        rw [List.count_eq_one_of_mem hnodup hmem,hdiff,gf2_true,Nat.cast_one]
      · have hmem : r ∉ S := fun hmem => hdiff (List.mem_filter.mp hmem).2
        rw [Bool.not_eq_true] at hdiff
        rw [List.count_eq_zero.mpr hmem,hdiff,gf2_false,Nat.cast_zero]
    rw [hcountS]
    exact hvalue

end Space

section Best
variable {F : Type} [F32 F] (P : LdpcParams) (llr : List F) (b : OsdBasis)
  (verify : Option (List UInt8 → Bool))

/-- What is kept of a candidate. -/
def OsdBasis.record (cp : BitRow) : BestCandidate F :=
  ⟨b.weightedDistance P llr cp.bit,b.scatter P cp,b.decoded P cp⟩

/-- The verifier accepts the information bits. -/
def passes (info : List UInt8) : Bool := verify.all fun f => f info

/-- The loop over the candidates keeps the best that passes. -/
theorem foldl_tryAndUpdate (l : List BitRow) :
    l.foldl (b.tryAndUpdate P llr verify) none =
      (searchBest (fun cp => passes verify (b.decoded P cp))
        (fun cp => b.weightedDistance P llr cp.bit) l).map (b.record P llr) := by
  have hstep (best : Option BitRow) (cp : BitRow) :
      b.tryAndUpdate P llr verify (best.map (b.record P llr)) cp =
        (keepBest (fun cp => passes verify (b.decoded P cp))
          (fun cp => b.weightedDistance P llr cp.bit) best cp).map (b.record P llr) := by
    unfold OsdBasis.tryAndUpdate keepBest passes
    by_cases hok : verify.all (fun f => f (b.decoded P cp)) = true
    · rw [if_pos hok,if_pos hok]
      cases best with
      | none => rfl
      | some best =>
        simp only [Option.map_some,Option.all_some]
        exact (apply_ite (Option.map (b.record P llr)) _ (some cp) (some best)).symm
    · rw [if_neg hok,if_neg hok]
  have hfold (best : Option BitRow) :
      l.foldl (b.tryAndUpdate P llr verify) (best.map (b.record P llr)) =
        (l.foldl (keepBest (fun cp => passes verify (b.decoded P cp))
          (fun cp => b.weightedDistance P llr cp.bit)) best).map (b.record P llr) := by
    induction l generalizing best with
    | nil => rfl
    | cons cp l ih => rw [List.foldl_cons,List.foldl_cons,hstep,ih]
  exact hfold none

variable (sorter : SortUnstable) {b} (ndeep k4Limit : Nat) (k4Tail : Bool)

/-- The decoder's result is that of the search. -/
theorem osdDecodeGeneric_eq (hb : osdSetupGenericPacked P sorter llr = some b) :
    osdDecodeGeneric P sorter llr ndeep k4Limit verify k4Tail =
      (searchBest (fun cp => passes verify (b.decoded P cp)) (fun cp => b.weightedDistance P llr cp.bit)
        (osdCandidates (b.gPacked P) (b.orderZero P llr) P.K ndeep k4Limit k4Tail)).map
          fun cp => (b.record P llr cp).result P llr := by
  unfold osdDecodeGeneric
  rw [hb]
  simp only [Option.bind_eq_bind,Option.bind_some,foldl_tryAndUpdate]
  rw [Option.bind_map,Option.map_eq_bind]
  rfl

/-- Nothing is found exactly when no word of the search space passes. -/
theorem osdDecodeGeneric_eq_none (hN : P.N = P.K + P.M) (hmax : P.N ≤ 256) (h1 : 1 ≤ ndeep) (h3 : ndeep ≤ 3) :
    osdDecodeGeneric P sorter llr ndeep k4Limit verify k4Tail = none ↔
      ∀ c, SearchSpace P llr (greedyBasis (ZMod 2) (column P.K P.generatorMatrix) (reliabilityOrder P sorter llr))
        ndeep c → passes verify (c.take P.K) = false := by
  obtain ⟨b,hb,hsound,hperm⟩ := osdSetup_sound P sorter llr hN
  have hspace (c : List UInt8) := @mem_candidates_iff _ _ _ _ llr hsound hN hmax _ h1 h3 k4Limit k4Tail c
  have hdecoded (cp : BitRow) : b.decoded P cp = (b.scatter P cp).take P.K := hsound.decoded_eq (by omega) cp
  rw [← hperm,← hsound.greedy,osdDecodeGeneric_eq P llr verify sorter ndeep k4Limit k4Tail hb,
    Option.map_eq_none_iff,searchBest_eq_none]
  constructor
  · intro hnone c hc
    obtain ⟨cp,hcp,rfl⟩ := List.mem_map.mp ((hspace c).mpr hc)
    rw [← hdecoded]
    exact hnone cp hcp
  · intro hnone cp hcp
    rw [hdecoded]
    exact hnone _ ((hspace _).mp (List.mem_map_of_mem hcp))

end Best

/-- The reliability of the positions where a word differs from the hard decisions. -/
def distance {K : Type} [Field K] [LinearOrder K] (n : Nat) (llr : List K) (c : List UInt8) : K :=
  ∑ i ∈ Finset.range n, if (c.getD i 0 == 1) != decide (llr.getD i 0 > 0) then |llr.getD i 0| else 0

section Exact
variable {K : Type} [Field K] [LinearOrder K] (tanh atanh : K → K) (infinity : K) (toI32 : K → Int)

theorem hdecPerm_eq (b : OsdBasis) (llr : List K) (c : Nat) :
    letI := fieldF32 K tanh atanh infinity toI32
    b.hdecPerm llr c = decide (llr.getD (b.perm.getD c 0) 0 > 0) := by
  show decide (llr.getD (b.perm.getD c 0) (0.0 : K) > (0.0 : K)) = _
  simp only [zero_literal]

theorem absrxPerm_eq (b : OsdBasis) (llr : List K) (c : Nat) :
    letI := fieldF32 K tanh atanh infinity toI32
    b.absrxPerm llr c = |llr.getD (b.perm.getD c 0) 0| := by
  show |llr.getD (b.perm.getD c 0) (0.0 : K)| = _
  rw [zero_literal]

theorem weightedDistance_eq_sum (P : LdpcParams) (b : OsdBasis) (llr : List K) (word : Nat → Bool) :
    letI := fieldF32 K tanh atanh infinity toI32
    b.weightedDistance P llr word =
      ∑ c ∈ Finset.range P.N, if word c ≠ b.hdecPerm llr c then b.absrxPerm llr c else 0 := by
  let _ := fieldF32 K tanh atanh infinity toI32
  refine Eq.trans ?_ (zero_add _)
  rw [← foldl_add_if_range]
  show (List.range P.N).foldl _ (0.0 : K) = _
  rw [zero_literal]

/-- Summed in the order of reliability, the distance is that of the positions. -/
theorem weightedDistance_eq_distance {P : LdpcParams} {b : OsdBasis} (h : b.Sound P) (llr : List K) {word : Nat → Bool}
    {cw : List UInt8} (hcw : ∀ c < P.N, cw.getD (b.perm.getD c 0) 0 = (word c).toUInt8) :
    letI := fieldF32 K tanh atanh infinity toI32
    b.weightedDistance P llr word = distance P.N llr cw := by
  let _ := fieldF32 K tanh atanh infinity toI32
  rw [weightedDistance_eq_sum tanh atanh infinity toI32]
  refine Finset.sum_nbij (fun c => b.perm.getD c 0) ?_ ?_ ?_ ?_
  · intro c hc
    exact Finset.mem_range.mpr (h.getD_lt (Finset.mem_range.mp hc))
  · intro a ha c hc heq
    exact h.injective a (Finset.mem_range.mp ha) c (Finset.mem_range.mp hc) heq
  · intro j hj
    obtain ⟨c,hc,heq⟩ := h.surjective (Finset.mem_range.mp hj)
    exact ⟨c,Finset.mem_coe.mpr (Finset.mem_range.mpr hc),heq⟩
  · intro c hc
    have hbyte (x : Bool) : (x.toUInt8 == 1) = x := by cases x <;> rfl
    rw [hcw c (Finset.mem_range.mp hc),hbyte,hdecPerm_eq tanh atanh infinity toI32,
      absrxPerm_eq tanh atanh infinity toI32]
    simp only [bne_iff_ne]

theorem weightedDistance_eq {P : LdpcParams} {b : OsdBasis} (h : b.Sound P) (llr : List K) (cp : BitRow) :
    letI := fieldF32 K tanh atanh infinity toI32
    b.weightedDistance P llr cp.bit = distance P.N llr (b.scatter P cp) :=
  weightedDistance_eq_distance tanh atanh infinity toI32 h llr fun _ hc => h.getD_scatter cp hc

theorem abs_pairwise_reliabilityOrder (P : LdpcParams) (sorter : SortUnstable) (llr : List K) :
    letI := fieldF32 K tanh atanh infinity toI32
    (reliabilityOrder P sorter llr).Pairwise fun i j => |llr.getD j 0| ≤ |llr.getD i 0| := by
  let _ := fieldF32 K tanh atanh infinity toI32
  have hsorted := sorter.sorted _ (List.range P.N) (totalPreorder_partialCmp fun i => |llr.getD i (0.0 : K)|)
  refine hsorted.imp fun {i j} hle => ?_
  rw [partialCmp_ne_gt,zero_literal] at hle
  exact hle

/-- A position is in the basis when some word of the code is one there and zero at every position as reliable. -/
theorem mem_basis_of_word {P : LdpcParams} (hN : P.N = P.K + P.M) (sorter : SortUnstable) (llr : List K)
    (info : List UInt8) (hinfo : info.length = P.K) {i : Nat} (hi : i < P.N)
    (hone : bitCast ((P.ldpcEncodeGeneric info).getD i 0) ≠ 0)
    (hzero : ∀ j < P.N, j ≠ i → |llr.getD i 0| ≤ |llr.getD j 0| →
      bitCast ((P.ldpcEncodeGeneric info).getD j 0) = 0) :
    letI := fieldF32 K tanh atanh infinity toI32
    i ∈ greedyBasis (ZMod 2) (column P.K P.generatorMatrix) (reliabilityOrder P sorter llr) := by
  let _ := fieldF32 K tanh atanh infinity toI32
  have hperm := perm_reliabilityOrder P sorter llr
  have hnodup : (reliabilityOrder P sorter llr).Nodup := hperm.nodup_iff.mpr List.nodup_range
  have hsorted := abs_pairwise_reliabilityOrder tanh atanh infinity toI32 P sorter llr
  obtain ⟨before,after,hsplit⟩ := List.append_of_mem (hperm.mem_iff.mpr (List.mem_range.mpr hi))
  have hvalue (j : Nat) (hj : j < P.N) :
      (∑ r : Fin P.K, bitCast (info.getD r 0) • (LinearMap.proj r : (Fin P.K → ZMod 2) →ₗ[ZMod 2] ZMod 2))
        (column P.K P.generatorMatrix j) = bitCast ((P.ldpcEncodeGeneric info).getD j 0) := by
    rw [bitCast_encode hN hinfo hj,Finset.sum_range]
    simp [column]
  rw [hsplit] at hnodup hsorted ⊢
  refine mem_greedyBasis_of_functional _ after _ ((hvalue i hi).symm ▸ hone) fun j hj => ?_
  have hjN : j < P.N := List.mem_range.mp (hperm.mem_iff.mp (hsplit ▸ List.mem_append_left _ hj))
  rw [hvalue j hjN]
  refine hzero j hjN (fun heq => ?_) ?_
  · exact (List.nodup_append.mp hnodup).2.2 j hj i List.mem_cons_self heq
  · exact (List.pairwise_append.mp hsorted).2.2 j hj i List.mem_cons_self

end Exact

/-- The search tries exactly the codewords within its order of the hard decisions on the greedy most
reliable basis, and returns the nearest that passes the verifier, if one does. The generator is systematic,
so its rank is full. -/
theorem osd_generic_best (K : Type) [Field K] [LinearOrder K] (tanh atanh : K → K) (infinity : K)
    (toI32 : K → Int) (P : LdpcParams) (hN : P.N = P.K + P.M) (hmax : P.N ≤ 256)
    (sorter : SortUnstable) (llr : List K) (verify : Option (List UInt8 → Bool)) (ndeep k4Limit : Nat)
    (k4Tail : Bool) (h1 : 1 ≤ ndeep) (h3 : ndeep ≤ 3) :
    letI := fieldF32 K tanh atanh infinity toI32
    let order := reliabilityOrder P sorter llr
    let basis := greedyBasis (ZMod 2) (column P.K P.generatorMatrix) order
    let found := osdDecodeGeneric P sorter llr ndeep k4Limit verify k4Tail
    order.Perm (List.range P.N) ∧ order.Pairwise (fun i j => |llr.getD j 0| ≤ |llr.getD i 0|) ∧
    (∃ b, osdSetupGenericPacked P sorter llr = some b ∧ b.perm = order ∧ b.basis = basis ∧
      ∀ c, c ∈ (osdCandidates (b.gPacked P) (b.orderZero P llr) P.K ndeep k4Limit k4Tail).map (b.scatter P) ↔
        SearchSpace P llr basis ndeep c) ∧
    (found = none ↔ ∀ c, SearchSpace P llr basis ndeep c → passes verify (c.take P.K) = false) ∧
    ∀ r, found = some r →
      SearchSpace P llr basis ndeep r.codeword ∧ passes verify r.info = true ∧
      (∀ c, SearchSpace P llr basis ndeep c → passes verify (c.take P.K) = true →
        distance P.N llr r.codeword ≤ distance P.N llr c) ∧
      r.info = r.codeword.take P.K ∧ r.codeword = P.ldpcEncodeGeneric r.info := by
  let _ := fieldF32 K tanh atanh infinity toI32
  intro order basis found
  obtain ⟨b,hb,hsound,hperm⟩ := osdSetup_sound P sorter llr hN
  have hbasis : b.basis = basis := by
    rw [OsdBasis.basis,hsound.greedy,hperm]
  have hspace (c : List UInt8) := @mem_candidates_iff _ _ _ _ llr hsound hN hmax _ h1 h3 k4Limit k4Tail c
  rw [hbasis] at hspace
  have hdecoded (cp : BitRow) : b.decoded P cp = (b.scatter P cp).take P.K := hsound.decoded_eq (by omega) cp
  have hfound : found = _ := osdDecodeGeneric_eq P llr verify sorter ndeep k4Limit k4Tail hb
  refine ⟨perm_reliabilityOrder P sorter llr,abs_pairwise_reliabilityOrder tanh atanh infinity toI32 P sorter llr,
    ⟨b,hb,hperm,hbasis,hspace⟩,?_,?_⟩
  · exact osdDecodeGeneric_eq_none P llr verify sorter ndeep k4Limit k4Tail hN hmax h1 h3
  · intro r hr
    rw [hfound,Option.map_eq_some_iff] at hr
    obtain ⟨cp,hcp,rfl⟩ := hr
    obtain ⟨hmem,hok⟩ := searchBest_mem _ _ hcp
    have hin := (hspace _).mp (List.mem_map_of_mem hmem)
    have htake : b.decoded P cp = (b.scatter P cp).take P.K := hdecoded cp
    refine ⟨hin,hok,?_,htake,?_⟩
    · intro c hc hpass
      obtain ⟨cp',hcp',rfl⟩ := List.mem_map.mp ((hspace c).mpr hc)
      rw [← hdecoded] at hpass
      have hle := searchBest_le _ _ hcp cp' hcp' hpass
      rwa [weightedDistance_eq tanh atanh infinity toI32 hsound llr,
        weightedDistance_eq tanh atanh infinity toI32 hsound llr] at hle
    · obtain ⟨⟨info,hinfo,hword⟩,_⟩ := hin
      show b.scatter P cp = P.ldpcEncodeGeneric (b.decoded P cp)
      rw [htake,hword,take_encode info hinfo.1]

/-- MSK144's code at order two, with observations that all favour zeros. -/
theorem osd_generic_best_msk144 :
    letI := fieldF32 Rat id id 0 Rat.floor
    let P := Ldpc128_90Params
    let llr : List Rat := List.replicate 128 (-1)
    let basis := greedyBasis (ZMod 2) (column P.K P.generatorMatrix) (reliabilityOrder P insertionSort llr)
    let found := osdDecodeGeneric P insertionSort llr 2 P.K none false
    (found = none ↔ ∀ c, SearchSpace P llr basis 2 c → passes none (c.take P.K) = false) ∧
      ∀ r, found = some r → r.codeword = P.ldpcEncodeGeneric r.info := by
  let _ := fieldF32 Rat id id 0 Rat.floor
  intro P llr basis found
  have h := osd_generic_best Rat id id 0 Rat.floor P (by decide) (by decide) insertionSort llr none 2 P.K false
    (by decide) (by decide)
  exact ⟨h.2.2.2.1,fun r hr => (h.2.2.2.2 r hr).2.2.2.2⟩

end MfskCore.Fec
