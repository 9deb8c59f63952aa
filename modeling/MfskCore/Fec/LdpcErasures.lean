import MfskCore.Fec.LdpcNoiseFree
import MfskCore.Fec.MinSum
import MfskCore.Fec.RunningSum
import MfskCore.Library.LoopSum
import MfskCore.Rust.ExactF32

/-! The codecs on soft values of which some are erased and the others are right, in exact arithmetic: no message is
ever on the wrong side of zero, and ordered statistics find the word that is at no distance. -/
namespace MfskCore.Fec
open Rust Library

section Tables

/-- Every check of a bit has it in one slot. -/
def LdpcParams.Linked (P : LdpcParams) : Prop := ∀ j < P.N, ∀ k < NCW, ∃ slot, CheckEdge P ((P.mn j).getD k 0) slot j k

private theorem linked_of_rows {P : LdpcParams} (hP : P.InRange) (hlength : P.MN.length = P.N)
    (hrows : P.NM.length = P.M) (hweights : P.NRW.length = P.M)
    (hdistinct : ∀ row ∈ (P.NM.zip P.NRW).zipIdx, 2 ≤ row.1.2 ∧ ((List.range row.1.2).map (row.1.1.getD · 0)).Nodup)
    (hback : ∀ row ∈ P.MN.zipIdx, ∀ k < NCW, ∃ slot < P.nrw (row.1.getD k 0), P.nm (row.1.getD k 0) slot = row.2) :
    P.Linked := by
  intro j hj k hk
  have hcheck := hP.check j hj k hk
  obtain ⟨hdegree,hnodup⟩ := LdpcParams.forall_nm (Q := fun _ row w => 2 ≤ w ∧ ((List.range w).map (row.getD · 0)).Nodup)
    hrows hweights hdistinct _ hcheck
  obtain ⟨slot,hslot,hbit⟩ := LdpcParams.forall_mn
    (Q := fun j row => ∀ k < NCW, ∃ slot < P.nrw (row.getD k 0), P.nm (row.getD k 0) slot = j) hlength hback j hj k hk
  exact ⟨slot,hcheck,hdegree,hnodup,hslot,hbit,hj,hk,rfl⟩

theorem LdpcCodec.linked (codec : LdpcCodec) : codec.params.Linked := by
  have hrange := codec.inRange
  cases codec with
  | Ldpc174_91 =>
    exact linked_of_rows hrange (by decide +kernel) (by decide +kernel) (by decide +kernel) (by decide +kernel)
      (by decide +kernel)
  | Ldpc240_101 =>
    exact linked_of_rows hrange (by decide +kernel) (by decide +kernel) (by decide +kernel) (by decide +kernel)
      (by decide +kernel)
  | Ldpc128_90 =>
    exact linked_of_rows hrange (by decide +kernel) (by decide +kernel) (by decide +kernel) (by decide +kernel)
      (by decide +kernel)

end Tables

section Sides
variable {K : Type} [Field K] [LinearOrder K] [IsStrictOrderedRing K] {cw : List UInt8} {i j : Nat} {x y : K}

/-- The sign of a bit in the product of a check. -/
def checkSign (K : Type) [Field K] (cw : List UInt8) (i : Nat) : K := (-1)^(cw.getD i 0).toNat

/-- Zero, or on the side of a bit. -/
def Leans (cw : List UInt8) (i : Nat) (x : K) : Prop := checkSign K cw i * x ≤ 0

omit [LinearOrder K] [IsStrictOrderedRing K] in
theorem checkSign_eq_or (cw : List UInt8) (i : Nat) : checkSign K cw i = 1 ∨ checkSign K cw i = -1 :=
  neg_one_pow_eq_or K _

omit [LinearOrder K] [IsStrictOrderedRing K] in
theorem checkSign_mul_self (cw : List UInt8) (i : Nat) : checkSign K cw i * checkSign K cw i = 1 := by
  rcases checkSign_eq_or (K := K) cw i with h | h
  · rw [h,one_mul]
  · rw [h,neg_one_mul,neg_neg]

omit [IsStrictOrderedRing K] in
theorem Leans.zero : Leans cw i (0 : K) := (mul_zero _).le

theorem Leans.add (hx : Leans cw i x) (hy : Leans cw i y) : Leans cw i (x + y) := by
  rw [Leans,mul_add]
  exact add_nonpos hx hy

/-- A function that keeps the side of zero. -/
structure KeepsSide (f : K → K) : Prop where
  nonneg : ∀ x, 0 ≤ x → 0 ≤ f x
  nonpos : ∀ x, x ≤ 0 → f x ≤ 0

theorem KeepsSide.leans {f : K → K} (hf : KeepsSide f) (hx : Leans cw i x) : Leans cw i (f x) := by
  unfold Leans at *
  rcases checkSign_eq_or (K := K) cw i with h | h
  · rw [h,one_mul] at hx ⊢
    exact hf.nonpos x hx
  · rw [h,neg_one_mul] at hx ⊢
    exact neg_nonpos.mpr (hf.nonneg x (neg_nonpos.mp hx))

omit [LinearOrder K] [IsStrictOrderedRing K] in
/-- The signs of the bits of a check make one. -/
theorem prod_checkSign {P : LdpcParams} (hcheck : P.checkParity cw i = 0) :
    ∏ s ∈ Finset.range (P.nrw i), checkSign K cw (P.nm i s) = 1 := by
  have hsum : ((∑ s ∈ Finset.range (P.nrw i), (cw.getD (P.nm i s) 0).toNat : Nat) : ZMod 2) = 0 := by
    have hbits := sum_bitCast_range (fun s => cw.getD (P.nm i s) 0) (P.nrw i)
    rw [Nat.cast_sum]
    refine hbits.symm.trans ?_
    rw [← LdpcParams.checkParity,hcheck]
    rfl
  rw [Finset.prod_congr rfl fun s _ => show checkSign K cw (P.nm i s) = (-1)^(cw.getD (P.nm i s) 0).toNat from rfl,
    Finset.prod_pow_eq_pow_sum]
  exact Even.neg_one_pow ((ZMod.natCast_eq_zero_iff_even).mp hsum)

omit [LinearOrder K] [IsStrictOrderedRing K] in
/-- Those of the other bits make the sign of the one. -/
theorem prod_otherSigns {P : LdpcParams} {slot k : Nat} (hcheck : P.checkParity cw i = 0) (h : CheckEdge P i slot j k) :
    ∏ s ∈ Finset.range (P.nrw i), (if P.nm i s ≠ j then checkSign K cw (P.nm i s) else 1) = checkSign K cw j := by
  have hslot : ∀ s ∈ Finset.range (P.nrw i), P.nm i s ≠ j ↔ s ≠ slot := by
    intro s hs
    refine not_congr ⟨fun heq => ?_,fun heq => heq ▸ h.bit⟩
    exact List.inj_on_of_nodup_map h.distinct (List.mem_range.mpr (Finset.mem_range.mp hs))
      (List.mem_range.mpr h.inRow) (heq.trans h.bit.symm)
  have hmem : slot ∈ Finset.range (P.nrw i) := Finset.mem_range.mpr h.inRow
  have hothers : ∏ s ∈ (Finset.range (P.nrw i)).erase slot, checkSign K cw (P.nm i s) =
      ∏ s ∈ Finset.range (P.nrw i), (if P.nm i s ≠ j then checkSign K cw (P.nm i s) else 1) := by
    rw [← Finset.mul_prod_erase _ _ hmem,if_neg (not_not.mpr h.bit),one_mul]
    refine Finset.prod_congr rfl fun s hs => ?_
    obtain ⟨hne,hs⟩ := Finset.mem_erase.mp hs
    rw [if_pos ((hslot s hs).mpr hne)]
  have hall := prod_checkSign (K := K) hcheck
  rw [← Finset.mul_prod_erase _ _ hmem,h.bit,hothers] at hall
  calc _ = checkSign K cw j * checkSign K cw j * _ := by rw [checkSign_mul_self,one_mul]
    _ = checkSign K cw j := by rw [mul_assoc,hall,mul_one]

end Sides

section Messages
variable {K : Type} [Field K] [LinearOrder K] [IsStrictOrderedRing K] (tanh atanh : K → K) (infinity : K)
  (toI32 : K → Int) {P : LdpcParams} {cw : List UInt8} {llr : List K} {msg : Nat → Nat → K}

/-- No message of an edge is on the wrong side. -/
def MessagesLean (P : LdpcParams) (cw : List UInt8) (msg : Nat → Nat → K) : Prop :=
  ∀ j < P.N, ∀ k < NCW, Leans cw j (msg j ((P.mn j).getD k 0))

theorem leans_sum {i : Nat} {f : Nat → K} {n : Nat} (h : ∀ k < n, Leans cw i (f k)) :
    Leans cw i (∑ k ∈ Finset.range n, f k) := by
  rw [Leans,Finset.mul_sum]
  exact Finset.sum_nonpos fun k hk => h k (Finset.mem_range.mp hk)

omit [IsStrictOrderedRing K] in
/-- The estimate of a bit is its own value and what leans to it. -/
theorem edgeEstimate_eq (llr : List K) (msg : Nat → Nat → K) (j : Nat) :
    letI := fieldF32 K tanh atanh infinity toI32
    edgeEstimate P llr msg j = llr.getD j 0 + ∑ k ∈ Finset.range NCW, msg j ((P.mn j).getD k 0) := by
  let _ := fieldF32 K tanh atanh infinity toI32
  show llr.getD j (0.0 : K) + (List.range NCW).foldl (fun sum k => sum + msg j ((P.mn j).getD k 0)) (0.0 : K) = _
  rw [zero_literal,foldl_add_range,zero_add]

omit [IsStrictOrderedRing K] in
/-- So is what a bit tells a check, without what the check has told it. -/
theorem edgeToCheck_eq (llr : List K) (msg : Nat → Nat → K) (i s : Nat) :
    letI := fieldF32 K tanh atanh infinity toI32
    edgeToCheck P llr msg i s = llr.getD (P.nm i s) 0 + ∑ k ∈ Finset.range NCW,
      if (P.mn (P.nm i s)).getD k 0 = i then 0 else msg (P.nm i s) ((P.mn (P.nm i s)).getD k 0) := by
  let _ := fieldF32 K tanh atanh infinity toI32
  have hestimate := edgeEstimate_eq tanh atanh infinity toI32 (P := P) llr msg (P.nm i s)
  show (List.range NCW).foldl (fun x k => if (P.mn (P.nm i s)).getD k 0 = i then
    x - msg (P.nm i s) ((P.mn (P.nm i s)).getD k 0) else x) (edgeEstimate P llr msg (P.nm i s)) = _
  simp only [sub_eq_add_neg]
  rw [foldl_add_if_range,hestimate,add_assoc,← Finset.sum_add_distrib]
  refine congrArg _ (Finset.sum_congr rfl fun k _ => ?_)
  split
  · rw [add_neg_cancel]
  · rw [add_zero]

theorem keepsSide_platanh (hatanh : KeepsSide atanh) :
    letI := fieldF32 K tanh atanh infinity toI32
    KeepsSide (platanh : K → K) := by
  let _ := fieldF32 K tanh atanh infinity toI32
  have hlimit : (0 : K) < 4.6 := by norm_num
  have hplatanh (x : K) : platanh x = if |x| > 0.9999999 then (if x < 0 then -1 else 1) * 4.6 else atanh x := rfl
  constructor
  · intro x hx
    rw [hplatanh,if_neg (not_lt.mpr hx),one_mul]
    split
    · exact hlimit.le
    · exact hatanh.nonneg x hx
  · intro x hx
    rw [hplatanh]
    split
    · rename_i hlarge
      have hne : x ≠ 0 := by
        rintro rfl
        rw [abs_zero] at hlarge
        norm_num at hlarge
      rw [if_pos (lt_of_le_of_ne hx hne),neg_one_mul]
      exact neg_nonpos.mpr hlimit.le
    · exact hatanh.nonpos x hx

theorem keepsSide_halfTanh (htanh : KeepsSide tanh) : KeepsSide fun x : K => -tanh (-x / 2.0) := by
  have htwo : (0 : K) < 2.0 := by norm_num
  constructor
  · intro x hx
    exact neg_nonneg.mpr (htanh.nonpos _ (div_nonpos_of_nonpos_of_nonneg (neg_nonpos.mpr hx) htwo.le))
  · intro x hx
    exact neg_nonpos.mpr (htanh.nonneg _ (div_nonneg (neg_nonneg.mpr hx) htwo.le))

variable (htanh : KeepsSide tanh) (hatanh : KeepsSide atanh) (hP : P.InRange) (hlinked : P.Linked)
  (hcheck : ∀ i < P.M, P.checkParity cw i = 0) (hllr : ∀ j < P.N, Leans cw j (llr.getD j 0))
include htanh hatanh hP hlinked hcheck hllr

/-- The next messages are not on the wrong side either. -/
theorem MessagesLean.next (hmsg : MessagesLean P cw msg) :
    letI := fieldF32 K tanh atanh infinity toI32
    MessagesLean P cw (edgeMessage P llr msg) := by
  let _ := fieldF32 K tanh atanh infinity toI32
  intro j hj k hk
  obtain ⟨slot,hedge⟩ := hlinked j hj k hk
  generalize (P.mn j).getD k 0 = i at hedge ⊢
  have hsent : ∀ s < P.nrw i, 0 ≤ checkSign K cw (P.nm i s) * tanh (-edgeToCheck P llr msg i s / 2.0) := by
    intro s hs
    have hbit := hP.bit i hedge.check s hs
    have hleans : Leans cw (P.nm i s) (edgeToCheck P llr msg i s) := by
      rw [edgeToCheck_eq tanh atanh infinity toI32]
      refine (hllr _ hbit).add (leans_sum fun k hk => ?_)
      split
      · exact .zero
      · exact hmsg _ hbit k hk
    have hhalf := (keepsSide_halfTanh tanh htanh).leans hleans
    rw [Leans,mul_neg] at hhalf
    exact neg_nonpos.mp hhalf
  have hproduct : 0 ≤ checkSign K cw j * ∏ s ∈ Finset.range (P.nrw i),
      if P.nm i s ≠ j then tanh (-edgeToCheck P llr msg i s / 2.0) else 1 := by
    rw [← prod_otherSigns (hcheck i hedge.check) hedge,← Finset.prod_mul_distrib]
    refine Finset.prod_nonneg fun s hs => ?_
    split
    · exact hsent s (Finset.mem_range.mp hs)
    · rw [one_mul]
      exact zero_le_one
  have hone : (1.0 : K) = 1 := by norm_num
  have htwo : (0 : K) < 2.0 := by norm_num
  have hmessage : edgeMessage P llr msg j i = 2.0 * platanh (-∏ s ∈ Finset.range (P.nrw i),
      if P.nm i s ≠ j then tanh (-edgeToCheck P llr msg i s / 2.0) else 1) := by
    rw [← one_mul (∏ s ∈ Finset.range (P.nrw i), _),← foldl_mul_if_range,← hone]
    rfl
  have hleans : Leans cw j (platanh (-∏ s ∈ Finset.range (P.nrw i),
      if P.nm i s ≠ j then tanh (-edgeToCheck P llr msg i s / 2.0) else 1)) := by
    refine (keepsSide_platanh tanh atanh infinity toI32 hatanh).leans ?_
    rw [Leans,mul_neg]
    exact neg_nonpos.mpr hproduct
  rw [hmessage,Leans,mul_left_comm]
  exact mul_nonpos_of_nonneg_of_nonpos htwo.le hleans

end Messages

section Propagation
variable {K : Type} [Field K] [LinearOrder K] [IsStrictOrderedRing K] {P : LdpcParams} {cw : List UInt8} {llr : List K}

/-- Soft values without errors: each one is erased or has the sign of its bit, and no information bit is erased. -/
structure ErrorFree (P : LdpcParams) (llr : List K) (cw : List UInt8) : Prop where
  value : ∀ i < P.N, llr.getD i 0 = 0 ∨ Signed (cw.getD i 0 = 1) (llr.getD i 0)
  info : ∀ i < P.K, llr.getD i 0 ≠ 0

theorem leans_iff {n i : Nat} {x : K} (hcw : IsBits n cw) :
    Leans cw i x ↔ (cw.getD i 0 = 1 → 0 ≤ x) ∧ (¬cw.getD i 0 = 1 → x ≤ 0) := by
  have hne : ¬(0 : UInt8) = 1 := by decide
  rcases bit_cases hcw i with h | h
  · have hsign : checkSign K cw i = 1 := by rw [checkSign,h]; exact pow_zero _
    rw [Leans,hsign,one_mul,h]
    exact ⟨fun hx => ⟨fun h1 => absurd h1 hne,fun _ => hx⟩,fun hx => hx.2 hne⟩
  · have hsign : checkSign K cw i = -1 := by rw [checkSign,h]; exact pow_one _
    rw [Leans,hsign,neg_one_mul,neg_nonpos,h]
    exact ⟨fun hx => ⟨fun _ => hx,fun h1 => absurd rfl h1⟩,fun hx => hx.1 rfl⟩

theorem ErrorFree.leans {n i : Nat} (h : ErrorFree P llr cw) (hcw : IsBits n cw) (hi : i < P.N) : Leans cw i (llr.getD i 0) := by
  rw [leans_iff hcw]
  rcases h.value i hi with hzero | hsigned
  · rw [hzero]
    exact ⟨fun _ => le_refl 0,fun _ => le_refl 0⟩
  · exact ⟨fun h1 => (hsigned.1 h1).le,fun h0 => (hsigned.2 h0).le⟩

omit [IsStrictOrderedRing K] in
theorem ErrorFree.pos_iff {i : Nat} (h : ErrorFree P llr cw) (hi : i < P.N) (hne : llr.getD i 0 ≠ 0) :
    0 < llr.getD i 0 ↔ cw.getD i 0 = 1 := by
  obtain ⟨hone,hzero⟩ := (h.value i hi).resolve_left hne
  exact ⟨fun hpos => by_contra fun h0 => lt_asymm hpos (hzero h0),hone⟩

/-- An information bit stays on its side whatever leans to it. -/
theorem ErrorFree.pos_add_iff {n i : Nat} {x : K} (h : ErrorFree P llr cw) (hcw : IsBits n cw) (hK : P.K ≤ P.N)
    (hi : i < P.K) (hx : Leans cw i x) : 0 < llr.getD i 0 + x ↔ cw.getD i 0 = 1 := by
  obtain ⟨hone,hzero⟩ := (h.value i (hi.trans_le hK)).resolve_left (h.info i hi)
  obtain ⟨hxone,hxzero⟩ := (leans_iff hcw).mp hx
  refine ⟨fun hpos => by_contra fun h0 => ?_,fun h1 => ?_⟩
  · exact lt_asymm hpos (add_neg_of_neg_of_nonpos (hzero h0) (hxzero h0))
  · exact add_pos_of_pos_of_nonneg (hone h1) (hxone h1)

variable (tanh atanh : K → K) (infinity : K) (toI32 : K → Int) {codec : LdpcCodec} {info : List UInt8}
  {msg : Nat → Nat → K}

/-- The information bits are decided right as long as no message is wrong. -/
theorem take_decideBits (hinfo : IsBits codec.params.K info) (h : ErrorFree codec.params llr (codec.encode info))
    (hmsg : MessagesLean codec.params (codec.encode info) msg) :
    letI := fieldF32 K tanh atanh infinity toI32
    ∀ s : BpScratch K K, Carries codec.params msg s →
      (decideBits codec.params llr none s).cw.take codec.params.K = info := by
  let _ := fieldF32 K tanh atanh infinity toI32
  intro s hs
  have hsize := codec.consistent.size
  have hword : IsBits codec.params.N (codec.encode info) := isBits_encode hsize hinfo
  have hdecided : (decideBits codec.params llr none s).cw =
      (List.range codec.params.N).map fun i => hardDecision (edgeEstimate codec.params llr msg i) := by
    refine (fill_eq_map _ hs.sized.cw).trans (List.map_congr_left fun i hi => ?_)
    exact congrArg hardDecision (hs.getD_estimates (List.mem_range.mp hi))
  have hlen : (List.range codec.params.N).length = codec.params.N := List.length_range
  rw [hdecided]
  refine List.ext_getElem ?_ fun i hi hi' => ?_
  · rw [List.length_take,List.length_map,hlen,hinfo.1]
    omega
  · have hK : i < codec.params.K := hinfo.1 ▸ hi'
    have hbit : (codec.encode info).getD i 0 = info[i] := by
      rw [← List.getD_eq_getElem info 0 hi']
      exact List.getD_append _ _ _ _ hi'
    have hside : Leans (codec.encode info) i (∑ k ∈ Finset.range NCW, msg i ((codec.params.mn i).getD k 0)) :=
      leans_sum fun k hk => hmsg i (by omega) k hk
    have hpos := h.pos_add_iff hword (by omega) hK hside
    rw [← edgeEstimate_eq tanh atanh infinity toI32] at hpos
    rw [List.getElem_take,List.getElem_map,List.getElem_range]
    show (if edgeEstimate codec.params llr msg i > (0.0 : K) then (1 : UInt8) else 0) = info[i]
    rw [zero_literal,← hbit]
    rcases bit_cases hword i with hcase | hcase
    · rw [if_neg (fun hgt => absurd (hcase.symm.trans (hpos.mp hgt)) (by decide)),hcase]
    · rw [if_pos (hpos.mpr hcase),hcase]

/-- One iteration of belief propagation carries the next messages. -/
theorem Carries.propagate {F : Type} [F32 F] {llr : List F} {msg : Nat → Nat → F} {s : BpScratch F F} (hP : P.InRange)
    (h : Carries P msg s) :
    Carries P (edgeMessage P llr msg) (kindStep P .SumProduct (updateToc P (decideBits P llr none s))) := by
  have hnext : Carries P (edgeMessage P llr msg) (zsumStep P llr s) := (h.step hP).1
  have hcw : (decideBits P llr none s).cw.length = P.N := by simpa [decideBits] using h.sized.cw
  exact ⟨{ hnext.sized with cw := hcw, zsum := h.sized.zsum },hnext.tanh,hnext.tov⟩

/-- Whatever belief propagation accepts has the right information. -/
theorem bpLoop_info (htanh : KeepsSide tanh) (hatanh : KeepsSide atanh) (hinfo : IsBits codec.params.K info)
    (h : ErrorFree codec.params llr (codec.encode info)) (verify : Option (List UInt8 → Bool)) (left iter : Nat)
    (stall : Stall) (hmsg : MessagesLean codec.params (codec.encode info) msg) :
    letI := fieldF32 K tanh atanh infinity toI32
    ∀ (s : BpScratch K K), Carries codec.params msg s →
      ∀ r, (bpLoop codec.params llr none verify .SumProduct left iter stall s).1 = some r → r.info = info := by
  let _ := fieldF32 K tanh atanh infinity toI32
  have hword : IsBits codec.params.N (codec.encode info) := isBits_encode codec.consistent.size hinfo
  induction left generalizing iter stall msg with
  | zero => exact fun s hs r hr => by cases hr
  | succ left ih =>
    intro s hs r hr
    rw [bpLoop] at hr
    split at hr
    · obtain rfl := Option.some.inj hr
      exact take_decideBits tanh atanh infinity toI32 hinfo h hmsg s hs
    · split at hr
      · cases hr
      · have hnext := hmsg.next tanh atanh infinity toI32 htanh hatanh codec.inRange codec.linked
          (checks_encode codec.consistent hinfo) fun j hj => h.leans hword hj
        exact ih _ _ hnext _ (hs.propagate codec.inRange) r hr

theorem bpDecodeGenericKind_info (htanh : KeepsSide tanh) (hatanh : KeepsSide atanh) (hinfo : IsBits codec.params.K info)
    (h : ErrorFree codec.params llr (codec.encode info)) (maxIter : Nat) (verify : Option (List UInt8 → Bool)) :
    letI := fieldF32 K tanh atanh infinity toI32
    ∀ r, bpDecodeGenericKind codec.params llr none maxIter verify .SumProduct = some r → r.info = info := by
  let _ := fieldF32 K tanh atanh infinity toI32
  have hsilent : MessagesLean codec.params (codec.encode info) fun _ _ => (0.0 : K) := by
    intro j _ k _
    rw [zero_literal]
    exact .zero
  intro r hr
  exact bpLoop_info tanh atanh infinity toI32 htanh hatanh hinfo h verify _ _ _ hsilent _ (carries_kindBuffers _ _) r hr

end Propagation

section Search
variable {K : Type} [Field K] [LinearOrder K] [IsStrictOrderedRing K] (tanh atanh : K → K) (infinity : K) (toI32 : K → Int)
  {P : LdpcParams} {llr : List K}

/-- Every column is a combination of those of the information bits. -/
theorem column_mem_span_info (P : LdpcParams) (i : Nat) {s : Set Nat} (hs : ∀ j < P.K, j ∈ s) :
    column P.K P.generatorMatrix i ∈ Submodule.span (ZMod 2) (column P.K P.generatorMatrix '' s) := by
  have hunit (r : Fin P.K) : column P.K P.generatorMatrix r = Pi.single r 1 := by
    funext q
    rw [column,LdpcParams.generatorMatrix,LdpcParams.generator,if_pos r.isLt,Pi.single_apply]
    by_cases hqr : q = r
    · rw [if_pos hqr,hqr,decide_eq_true rfl]
      rfl
    · rw [if_neg hqr,decide_eq_false fun h => hqr (Fin.ext h)]
      rfl
  rw [← Finset.univ_sum_single (column P.K P.generatorMatrix i)]
  refine Submodule.sum_mem _ fun r _ => ?_
  have hscaled : Pi.single r (column P.K P.generatorMatrix i r) =
      column P.K P.generatorMatrix i r • column P.K P.generatorMatrix r := by
    rw [hunit,← Pi.single_smul,smul_eq_mul,mul_one]
  rw [hscaled]
  exact Submodule.smul_mem _ _ (Submodule.subset_span ⟨r,hs r r.isLt,rfl⟩)

/-- Where the information bits are not erased, no position of the most reliable basis is. -/
theorem ne_zero_of_mem_basis (hK : P.K ≤ P.N) (sorter : SortUnstable) (hinfo : ∀ j < P.K, llr.getD j 0 ≠ 0) :
    letI := fieldF32 K tanh atanh infinity toI32
    ∀ i ∈ mostReliableBasis P sorter llr, llr.getD i 0 ≠ 0 := by
  let _ := fieldF32 K tanh atanh infinity toI32
  intro i hi hzero
  have hperm := perm_reliabilityOrder P sorter llr
  have hnodup : (reliabilityOrder P sorter llr).Nodup := hperm.nodup_iff.mpr List.nodup_range
  have hsorted := abs_pairwise_reliabilityOrder tanh atanh infinity toI32 P sorter llr
  obtain ⟨before,after,hsplit⟩ := List.append_of_mem (greedyBasis_subset _ _ hi)
  rw [mostReliableBasis,hsplit] at hi
  rw [hsplit] at hnodup hsorted
  refine (mem_greedyBasis_iff _ hnodup).mp hi (column_mem_span_info P i fun j hj => ?_)
  have hmem : j ∈ before ++ i :: after := hsplit ▸ hperm.mem_iff.mpr (List.mem_range.mpr (hj.trans_le hK))
  rcases List.mem_append.mp hmem with hbefore | hrest
  · exact hbefore
  · rcases List.mem_cons.mp hrest with rfl | hafter
    · exact absurd hzero (hinfo j hj)
    · have hle := (List.pairwise_cons.mp (List.pairwise_append.mp hsorted).2.1).1 j hafter
      rw [hzero,abs_zero] at hle
      exact absurd (abs_nonpos_iff.mp hle) (hinfo j hj)

variable {cw info : List UInt8}

omit [IsStrictOrderedRing K] in
/-- Away from the erased positions the hard decisions are the word. -/
theorem ErrorFree.hard_eq {i : Nat} (h : ErrorFree P llr cw) (hi : i < P.N) (hne : llr.getD i 0 ≠ 0) :
    decide (llr.getD i 0 > 0) = (cw.getD i 0 == 1) := by
  rw [Bool.eq_iff_iff,decide_eq_true_eq,beq_iff_eq]
  exact h.pos_iff hi hne

theorem ErrorFree.distance_eq (h : ErrorFree P llr cw) : distance P.N llr cw = 0 := by
  refine Finset.sum_eq_zero fun i hi => ?_
  by_cases hzero : llr.getD i 0 = 0
  · rw [hzero,abs_zero,ite_self]
  · rw [h.hard_eq (Finset.mem_range.mp hi) hzero,bne_self_eq_false]
    rfl

/-- A word at no distance has the same information. -/
theorem ErrorFree.take_eq {n m : Nat} {c : List UInt8} (h : ErrorFree P llr cw) (hcw : IsBits n cw) (hc : IsBits m c)
    (hn : P.K ≤ n) (hm : P.K ≤ m) (hK : P.K ≤ P.N) (hdistance : distance P.N llr c ≤ 0) : c.take P.K = cw.take P.K := by
  have hnonneg : ∀ i ∈ Finset.range P.N,
      0 ≤ if (c.getD i 0 == 1) != decide (llr.getD i 0 > 0) then |llr.getD i 0| else 0 := by
    intro i _
    split
    · exact abs_nonneg _
    · exact le_refl 0
  have hzero := (Finset.sum_eq_zero_iff_of_nonneg hnonneg).mp (le_antisymm hdistance (Finset.sum_nonneg hnonneg))
  refine (hc.take hm).ext (hcw.take hn) fun i hi => ?_
  have hne := h.info i hi
  have hterm := hzero i (Finset.mem_range.mpr (hi.trans_le hK))
  rw [h.hard_eq (hi.trans_le hK) hne] at hterm
  have hsame : ((c.getD i 0 == 1) != (cw.getD i 0 == 1)) = false := by
    by_contra hdiff
    rw [Bool.not_eq_false] at hdiff
    rw [hdiff,if_pos rfl] at hterm
    exact hne (abs_eq_zero.mp hterm)
  have hbit : c.getD i 0 = cw.getD i 0 := by
    rw [bne_eq_false_iff_eq] at hsame
    rcases bit_cases hc i with h0 | h1
    · rcases bit_cases hcw i with h0' | h1'
      · rw [h0,h0']
      · rw [h0,h1'] at hsame
        exact absurd hsame (by decide)
    · rw [h1] at hsame
      rw [h1]
      exact (beq_iff_eq.mp hsame.symm).symm
  rw [List.getD_eq_getElem?_getD,List.getD_eq_getElem?_getD,List.getElem?_take_of_lt hi,List.getElem?_take_of_lt hi,
    ← List.getD_eq_getElem?_getD,← List.getD_eq_getElem?_getD,hbit]

variable {b : OsdBasis} {sorter : SortUnstable} {verify : Option (List UInt8 → Bool)}

/-- The first candidate is the word itself. -/
theorem ErrorFree.scatter_orderZero (hN : P.N = P.K + P.M) (hmax : P.N ≤ 256) (hinfo : IsBits P.K info)
    (h : ErrorFree P llr (P.ldpcEncodeGeneric info)) (hsound : b.Sound P) :
    letI := fieldF32 K tanh atanh infinity toI32
    b.perm = reliabilityOrder P sorter llr → b.scatter P (b.orderZero P llr) = P.ldpcEncodeGeneric info := by
  let _ := fieldF32 K tanh atanh infinity toI32
  intro hperm
  refine ((searchSpace_zero_iff hsound hN hmax _).mp ⟨⟨info,hinfo,rfl⟩,Nat.le_of_eq ?_⟩).symm
  rw [List.countP_eq_zero]
  intro i hi
  rw [OsdBasis.basis,hsound.greedy,hperm] at hi
  have hne := ne_zero_of_mem_basis tanh atanh infinity toI32 (by omega) sorter h.info i hi
  have hrange : i < P.N :=
    List.mem_range.mp ((perm_reliabilityOrder P sorter llr).mem_iff.mp (greedyBasis_subset _ _ hi))
  have hhard : hard llr i = decide (llr.getD i 0 > 0) := by
    show decide (llr.getD i (0.0 : K) > (0.0 : K)) = _
    simp only [zero_literal]
  rw [hhard,h.hard_eq hrange hne,bne_self_eq_false]
  exact Bool.false_ne_true

/-- A search that tries it finds its information. -/
theorem ErrorFree.search_info (hN : P.N = P.K + P.M) (hmax : P.N ≤ 256) (hinfo : IsBits P.K info)
    (h : ErrorFree P llr (P.ldpcEncodeGeneric info)) (hsound : b.Sound P) (hpass : passes verify info = true) :
    letI := fieldF32 K tanh atanh infinity toI32
    b.perm = reliabilityOrder P sorter llr → ∀ l : List BitRow, b.orderZero P llr ∈ l →
      (∀ cp ∈ l, ∃ S, (∀ s ∈ S, s < P.K) ∧ cp = applyFlips (b.gPacked P) (b.orderZero P llr) S) →
      ∃ best, l.foldl (b.tryAndUpdate P llr verify) none = some best ∧ (best.result P llr).info = info := by
  let _ := fieldF32 K tanh atanh infinity toI32
  intro hperm l hfirst hflips
  have hscatter : b.scatter P (b.orderZero P llr) = P.ldpcEncodeGeneric info :=
    h.scatter_orderZero tanh atanh infinity toI32 hN hmax hinfo hsound hperm
  have hfirstpass : passes verify (b.decoded P (b.orderZero P llr)) = true := by
    rw [hsound.decoded_eq (by omega),hscatter,take_encode info hinfo.1]
    exact hpass
  obtain ⟨best,hbest⟩ : ∃ best, l.foldl (b.tryAndUpdate P llr verify) none = some best := by
    refine Option.ne_none_iff_exists'.mp fun hnone => ?_
    rw [foldl_tryAndUpdate,Option.map_eq_none_iff,searchBest_eq_none] at hnone
    exact absurd hfirstpass (by rw [hnone _ hfirst]; exact Bool.false_ne_true)
  refine ⟨best,hbest,?_⟩
  obtain ⟨hword,-,-,hbits⟩ := found_encoding hN hmax hsound hflips hbest
  rw [foldl_tryAndUpdate,Option.map_eq_some_iff] at hbest
  obtain ⟨cp,hcp,rfl⟩ := hbest
  have hle := searchBest_le _ _ hcp _ hfirst hfirstpass
  rw [weightedDistance_eq tanh atanh infinity toI32 hsound llr,
    weightedDistance_eq tanh atanh infinity toI32 hsound llr,hscatter,h.distance_eq] at hle
  have htake := h.take_eq (isBits_encode hN hinfo) (hsound.isBits_scatter cp) (by omega) (by omega) (by omega) hle
  rw [take_encode info hinfo.1] at htake
  exact (hsound.decoded_eq (by omega) cp).trans htake

variable (hN : P.N = P.K + P.M) (hmax : P.N ≤ 256) (hinfo : IsBits P.K info) (h : ErrorFree P llr (P.ldpcEncodeGeneric info))
  (hpass : passes verify info = true)
include hN hmax hinfo h hpass

theorem osdDecodeGeneric_info (ndeep k4Limit : Nat) (k4Tail : Bool) :
    letI := fieldF32 K tanh atanh infinity toI32
    ∃ r, osdDecodeGeneric P sorter llr ndeep k4Limit verify k4Tail = some r ∧ r.info = info := by
  let _ := fieldF32 K tanh atanh infinity toI32
  obtain ⟨b,hb,hsound,hperm⟩ := osdSetup_sound P sorter llr hN
  obtain ⟨best,hbest,hright⟩ := h.search_info tanh atanh infinity toI32 hN hmax hinfo hsound hpass hperm
    (osdCandidates (b.gPacked P) (b.orderZero P llr) P.K ndeep k4Limit k4Tail) List.mem_cons_self
    fun cp hcp => flips_of_mem_osdCandidates _ hcp
  refine ⟨best.result P llr,?_,hright⟩
  rw [osdDecodeGeneric,hb]
  simp only [Option.bind_eq_bind,Option.bind_some,hbest]
  rfl

theorem osdDecodeNpreGeneric_info (ntheta ntau : Nat) (runNpre2 : Bool) :
    letI := fieldF32 K tanh atanh infinity toI32
    ∃ r, osdDecodeNpreGeneric P sorter llr ntheta ntau runNpre2 verify = some r ∧ r.info = info := by
  let _ := fieldF32 K tanh atanh infinity toI32
  obtain ⟨b,hb,hsound,hperm⟩ := osdSetup_sound P sorter llr hN
  obtain ⟨best,hbest,hright⟩ := h.search_info tanh atanh infinity toI32 hN hmax hinfo hsound hpass hperm
    (b.orderZero P llr :: npre1Candidates P llr b ntheta ++ if runNpre2 then npre2Candidates P llr b ntau else [])
    (List.mem_append_left _ List.mem_cons_self) fun cp hcp => flips_of_mem_npre hcp
  refine ⟨best.result P llr,?_,hright⟩
  rw [osdDecodeNpreGeneric,hb]
  simp only [Option.bind_eq_bind,Option.bind_some,hbest]
  rfl

end Search

section Codecs
variable {K : Type} [Field K] [LinearOrder K] [IsStrictOrderedRing K] (tanh atanh : K → K) (infinity : K) (toI32 : K → Int)
  {codec : LdpcCodec} {llr : List K} {info : List UInt8}

/-- Ordered statistics of every codec find the information at any depth. -/
theorem LdpcCodec.osdStage_info (sorter : SortUnstable) (useNpre : Bool) (opts : DecodeOpts K)
    (hinfo : IsBits codec.params.K info) (h : ErrorFree codec.params llr (codec.encode info))
    (hverify : opts.verifyInfo.all (fun f => f info) = true) :
    letI := fieldF32 K tanh atanh infinity toI32
    ∃ r, codec.osdStage sorter useNpre llr opts = some r ∧ r.info = info := by
  let _ := fieldF32 K tanh atanh infinity toI32
  have hN := codec.consistent.size
  have hmax := codec.size_le
  have hgeneric (ndeep k4Limit : Nat) :
      ∃ r, osdDecodeGeneric codec.params sorter llr ndeep k4Limit opts.verifyInfo false = some r ∧ r.info = info :=
    osdDecodeGeneric_info tanh atanh infinity toI32 hN hmax hinfo h hverify ndeep k4Limit false
  have hnpre (ntau : Nat) (runNpre2 : Bool) :
      ∃ r, osdDecodeNpreGeneric codec.params sorter llr FST4_NPRE_NTHETA ntau runNpre2 opts.verifyInfo = some r ∧
        r.info = info :=
    osdDecodeNpreGeneric_info tanh atanh infinity toI32 hN hmax hinfo h hverify FST4_NPRE_NTHETA ntau runNpre2
  cases codec with
  | Ldpc174_91 =>
    rw [osdStage]
    split
    · exact hgeneric _ _
    · exact hgeneric _ _
  | Ldpc240_101 =>
    show ∃ r, fst4OsdDecode sorter llr opts.verifyInfo useNpre (min opts.osdDepth 3) = some r ∧ r.info = info
    unfold fst4OsdDecode
    split
    · exact hgeneric _ _
    · split
      · exact hnpre _ _
      · exact hnpre _ _
      · exact hgeneric _ _
  | Ldpc128_90 =>
    rw [osdStage]
    exact hgeneric _ _

/-- Erasures outside the information bits are made up for: belief propagation gives out nothing wrong, and ordered
statistics find what it does not. -/
theorem LdpcCodec.decodeSoft_errorFree (htanh : KeepsSide tanh) (hatanh : KeepsSide atanh) (sorter : SortUnstable)
    (useNpre : Bool) {opts : DecodeOpts K} (hinfo : IsBits codec.params.K info) (hllr : llr.length = codec.params.N)
    (h : ErrorFree codec.params llr (codec.encode info)) (hmask : opts.apMask = none) (hkind : opts.bpKind = .SumProduct)
    (hdepth : opts.osdDepth ≠ 0) (hverify : opts.verifyInfo.all (fun f => f info) = true) :
    letI := fieldF32 K tanh atanh infinity toI32
    ∃ r, codec.decodeSoft sorter useNpre llr opts = some (some r) ∧ r.info = info := by
  let _ := fieldF32 K tanh atanh infinity toI32
  have hbp := bpDecodeGenericKind_info tanh atanh infinity toI32 htanh hatanh hinfo h opts.bpMaxIter opts.verifyInfo
  obtain ⟨found,hosd,hright⟩ := codec.osdStage_info tanh atanh infinity toI32 sorter useNpre opts hinfo h hverify
  rw [decodeSoft,prepareApLlr_unhinted hllr hmask,Option.map_some,hkind]
  dsimp only
  split
  · rename_i r hr
    exact ⟨_,rfl,hbp r hr⟩
  · rw [if_neg hdepth,hosd]
    exact ⟨_,rfl,hright⟩

end Codecs

end MfskCore.Fec
