import MfskCore.Fec.BpReuse
import Mathlib.Data.List.GetD
import Mathlib.Tactic.NormNum.OfScientific

/-! The sum-product iteration without its buffers: the messages of the checks as a function of the edge, and
the running sum of the estimates they give. -/
namespace MfskCore.Fec
open Rust Library

/-- Every entry of the tables in use lies in its range. -/
structure LdpcParams.InRange (P : LdpcParams) : Prop where
  width : ∀ i < P.M, P.nrw i ≤ P.MAX_ROW
  bit : ∀ i < P.M, ∀ s < P.nrw i, P.nm i s < P.N
  check : ∀ j < P.N, ∀ k < NCW, (P.mn j).getD k 0 < P.M

/-- What holds of every row of the table of the bits, read off one row after the other. -/
theorem LdpcParams.forall_mn {P : LdpcParams} (hlength : P.MN.length = P.N) {Q : Nat → List Nat → Prop}
    (h : ∀ row ∈ P.MN.zipIdx, Q row.2 row.1) : ∀ j < P.N, Q j (P.mn j) := by
  intro j hj
  have hrow : P.MN[j]? = some (P.mn j) := by
    rw [LdpcParams.mn,List.getD_eq_getElem _ _ (hlength ▸ hj),List.getElem?_eq_getElem]
  exact h (P.mn j,j) (List.mk_mem_zipIdx_iff_getElem?.2 hrow)

/-- What holds of every row of the table of the checks, with the number of its slots in use. -/
theorem LdpcParams.forall_nm {P : LdpcParams} (hrows : P.NM.length = P.M) (hweights : P.NRW.length = P.M)
    {Q : Nat → List Nat → Nat → Prop} (h : ∀ row ∈ (P.NM.zip P.NRW).zipIdx, Q row.2 row.1.1 row.1.2) :
    ∀ i < P.M, Q i (P.NM.getD i []) (P.nrw i) := by
  intro i hi
  have hrow : (P.NM.zip P.NRW)[i]? = some (P.NM.getD i [],P.nrw i) := by
    have hrow : i < P.NM.length := hrows ▸ hi
    have hweight : i < P.NRW.length := hweights ▸ hi
    rw [List.getElem?_zip_eq_some,LdpcParams.nrw,List.getD_eq_getElem _ _ hrow,List.getD_eq_getElem _ _ hweight,
      List.getElem?_eq_getElem hrow,List.getElem?_eq_getElem hweight]
    exact ⟨rfl,rfl⟩
  exact h ((P.NM.getD i [],P.nrw i),i) (List.mk_mem_zipIdx_iff_getElem?.2 hrow)

private theorem inRange_of_rows {P : LdpcParams} (hlength : P.MN.length = P.N) (hrows : P.NM.length = P.M)
    (hweights : P.NRW.length = P.M) (hwidth : ∀ w ∈ P.NRW, w ≤ P.MAX_ROW)
    (hbit : ∀ row ∈ P.NM.zip P.NRW, ∀ s < row.2, row.1.getD s 0 < P.N)
    (hcheck : ∀ row ∈ P.MN, ∀ k < NCW, row.getD k 0 < P.M) : P.InRange where
  width := LdpcParams.forall_nm (Q := fun _ _ w => w ≤ P.MAX_ROW) hrows hweights fun _ hrow =>
    hwidth _ (List.of_mem_zip (List.fst_mem_of_mem_zipIdx hrow)).2
  bit := LdpcParams.forall_nm (Q := fun _ row w => ∀ s < w, row.getD s 0 < P.N) hrows hweights fun _ hrow =>
    hbit _ (List.fst_mem_of_mem_zipIdx hrow)
  check := LdpcParams.forall_mn (Q := fun _ row => ∀ k < NCW, row.getD k 0 < P.M) hlength fun _ hrow =>
    hcheck _ (List.fst_mem_of_mem_zipIdx hrow)

/-- The tables of the three codes are in range. -/
theorem LdpcCodec.inRange (codec : LdpcCodec) : codec.params.InRange := by
  cases codec with
  | Ldpc174_91 =>
    exact inRange_of_rows (by decide +kernel) (by decide +kernel) (by decide +kernel) (by decide +kernel)
      (by decide +kernel) (by decide +kernel)
  | Ldpc240_101 =>
    exact inRange_of_rows (by decide +kernel) (by decide +kernel) (by decide +kernel) (by decide +kernel)
      (by decide +kernel) (by decide +kernel)
  | Ldpc128_90 =>
    exact inRange_of_rows (by decide +kernel) (by decide +kernel) (by decide +kernel) (by decide +kernel)
      (by decide +kernel) (by decide +kernel)

section Edges
variable {F : Type} [F32 F] (P : LdpcParams) (llr : List F) (msg : Nat → Nat → F)

/-- The estimate of bit `j` from the messages `msg j i` of its checks. -/
def edgeEstimate (j : Nat) : F :=
  llr.getD j 0.0 + (List.range NCW).foldl (fun sum k => sum + msg j ((P.mn j).getD k 0)) 0.0

/-- What the bit at slot `s` tells check `i`. -/
def edgeToCheck (i s : Nat) : F :=
  (List.range NCW).foldl (fun x k =>
    if (P.mn (P.nm i s)).getD k 0 = i then x - msg (P.nm i s) ((P.mn (P.nm i s)).getD k 0) else x)
    (edgeEstimate P llr msg (P.nm i s))

/-- The next message of check `i` to bit `j`. -/
def edgeMessage (j i : Nat) : F :=
  2.0 * platanh (-(List.range (P.nrw i)).foldl (fun tmn s =>
    if P.nm i s ≠ j then tmn * F32.tanh (-edgeToCheck P llr msg i s / 2.0) else tmn) 1.0)

/-- The buffers hold the messages. -/
structure Carries (s : BpScratch F F) : Prop where
  sized : s.Sized P
  tanh : s.tanhtoc.length = P.M * P.MAX_ROW
  tov : ∀ j < P.N, ∀ k < NCW, s.tov.getD (j * NCW + k) 0.0 = msg j ((P.mn j).getD k 0)

end Edges

section Step
variable {F : Type} [F32 F] {P : LdpcParams} {llr : List F} {msg : Nat → Nat → F} {s : BpScratch F F}

theorem Carries.estimate_eq (h : Carries P msg s) {j : Nat} (hj : j < P.N) :
    estimate llr s.tov j = edgeEstimate P llr msg j := by
  unfold estimate edgeEstimate
  exact congrArg _ (List.foldl_ext _ _ _ fun sum k hk => by rw [h.tov j hj k (List.mem_range.mp hk)])

theorem Carries.getD_estimates (h : Carries P msg s) {j : Nat} (hj : j < P.N) :
    (fill P.N (estimate llr s.tov) s.zn).getD j 0.0 = edgeEstimate P llr msg j := by
  rw [fill_eq_map _ h.sized.zn,List.getD_eq_getElem?_getD,List.getElem?_map,List.getElem?_range hj,
    Option.map_some,Option.getD_some,h.estimate_eq hj]

private theorem Carries.toCheck_eq (hP : P.InRange) (h : Carries P msg s) {i slot : Nat} (hi : i < P.M)
    (hslot : slot < P.nrw i) :
    toCheck P (fill P.N (estimate llr s.tov) s.zn) s.tov i slot = edgeToCheck P llr msg i slot := by
  have hbit := hP.bit i hi slot hslot
  unfold toCheck edgeToCheck
  dsimp only
  rw [h.getD_estimates hbit]
  refine List.foldl_ext _ _ _ fun x k hk => ?_
  rw [h.tov _ hbit k (List.mem_range.mp hk)]

/-- A message written for each slot of each check is read back. -/
private theorem getD_writeChecks (hP : P.InRange) {α : Type} (f : Nat → Nat → α) {buf : List α}
    (hbuf : buf.length = P.M * P.MAX_ROW) {i slot : Nat} (hi : i < P.M) (hslot : slot < P.nrw i) (d : α) :
    (writeChecks P f buf).getD (i * P.MAX_ROW + slot) d = f i slot := by
  rw [List.getD_eq_getElem?_getD,writeChecks,getElem?_fillRows f hP.width hi hslot hbuf.ge,Option.getD_some]

/-- One iteration sends the next messages and adds the estimates of the last to the running sum. -/
theorem Carries.step (hP : P.InRange) (h : Carries P msg s) :
    Carries P (edgeMessage P llr msg) (zsumStep P llr s) ∧
      (zsumStep P llr s).zsum = s.zsum.zipIdx.map fun (z, j) =>
        z + (fill P.N (estimate llr s.tov) s.zn).getD j 0.0 := by
  refine ⟨⟨sized_zsumStep h.sized llr,?_,?_⟩,rfl⟩
  · simpa [zsumStep,sumProductStep,updateToc,writeChecks] using h.tanh
  · intro j hj k hk
    let toc := writeChecks P (toCheck P (fill P.N (estimate llr s.tov) s.zn) s.tov) s.toc
    let tanhtoc := writeChecks P (halfTanh P toc) s.tanhtoc
    have hi := hP.check j hj k hk
    have hhalf (slot : Nat) (hslot : slot < P.nrw ((P.mn j).getD k 0)) :
        tanhtoc.getD ((P.mn j).getD k 0 * P.MAX_ROW + slot) 0.0 =
          F32.tanh (-edgeToCheck P llr msg ((P.mn j).getD k 0) slot / 2.0) := by
      rw [getD_writeChecks hP _ h.tanh hi hslot,halfTanh,getD_writeChecks hP _ h.sized.toc hi hslot,
        h.toCheck_eq hP hi hslot]
    have hcell := getElem?_fillRows (fun j k => sumProduct P tanhtoc j ((P.mn j).getD k 0))
      (fun _ _ => Nat.le_refl NCW) hj hk h.sized.tov.ge
    have hread : (zsumStep P llr s).tov.getD (j * NCW + k) 0.0 = sumProduct P tanhtoc j ((P.mn j).getD k 0) := by
      rw [List.getD_eq_getElem?_getD]
      exact congrArg (fun x => x.getD 0.0) hcell
    rw [hread,sumProduct,edgeMessage]
    refine congrArg (fun tmn => 2.0 * platanh (-tmn)) (List.foldl_ext _ _ _ fun tmn slot hslot => ?_)
    rw [hhalf slot (List.mem_range.mp hslot)]

/-- Messages are compared on the edges only. -/
theorem Carries.congr (h : Carries P msg s) {msg' : Nat → Nat → F}
    (heq : ∀ j < P.N, ∀ k < NCW, msg j ((P.mn j).getD k 0) = msg' j ((P.mn j).getD k 0)) : Carries P msg' s :=
  { h with tov := fun j hj k hk => (h.tov j hj k hk).trans (heq j hj k hk) }

/-- The running sum gains the estimates. -/
theorem Carries.getD_zsum (hP : P.InRange) (h : Carries P msg s) (hsum : s.zsum.length = P.N) {j : Nat}
    (hj : j < P.N) :
    (zsumStep P llr s).zsum.getD j 0.0 = s.zsum.getD j 0.0 + edgeEstimate P llr msg j := by
  rw [(h.step hP).2,List.getD_eq_getElem?_getD,List.getElem?_map,List.getElem?_zipIdx,
    List.getElem?_eq_getElem (hsum ▸ hj),Option.map_some,Option.map_some,Option.getD_some,Nat.zero_add,
    List.getD_eq_getElem _ _ (hsum ▸ hj)]
  dsimp only
  rw [h.getD_estimates hj]

end Step

section Run
variable {F : Type} [F32 F] {P : LdpcParams} {llr : List F}

/-- The buffers start with no messages. -/
theorem carries_kindBuffers (P : LdpcParams) (llr : List F) :
    Carries P (fun _ _ => (0.0 : F))
      { kindBuffers P BpKind.SumProduct with
        toc := writeChecks P (fun j i => llr.getD (P.nm j i) 0.0) (kindBuffers P BpKind.SumProduct).toc } where
  sized := { sized_kindBuffers (P := P) (BpKind.SumProduct : BpKind F) with
    toc := by simp [writeChecks,kindBuffers] }
  tanh := by simp [kindBuffers]
  tov j hj k hk := by
    rw [List.getD_eq_getElem?_getD]
    simp only [kindBuffers,List.getElem?_replicate]
    split <;> rfl

private theorem carries_start :
    Carries P (fun _ _ => (0.0 : F))
      { kindBuffers P BpKind.SumProduct with
        toc := writeChecks P (fun j i => llr.getD (P.nm j i) 0.0) (kindBuffers P BpKind.SumProduct).toc
        zsum := List.replicate P.N 0.0 } where
  sized := { (carries_kindBuffers P llr).sized with zsum := Or.inr (by simp) }
  tanh := (carries_kindBuffers P llr).tanh
  tov := (carries_kindBuffers P llr).tov

/-- When the first messages come again at every later iteration, the running sum is that of the first
estimates and of the ones they give. -/
theorem getD_bpLlrZsum (hP : P.InRange) {msg : Nat → Nat → F}
    (hfirst : ∀ j < P.N, ∀ k < NCW,
      edgeMessage P llr (fun _ _ => 0.0) j ((P.mn j).getD k 0) = msg j ((P.mn j).getD k 0))
    (hagain : ∀ j < P.N, ∀ k < NCW,
      edgeMessage P llr msg j ((P.mn j).getD k 0) = msg j ((P.mn j).getD k 0))
    (nIter : Nat) {j : Nat} (hj : j < P.N) :
    (bpLlrZsum P llr nIter).getD j 0.0 =
      (List.range nIter).foldl (fun z _ => z + edgeEstimate P llr msg j)
        (0.0 + edgeEstimate P llr (fun _ _ => 0.0) j) := by
  let start : BpScratch F F :=
    { kindBuffers P BpKind.SumProduct with
      toc := writeChecks P (fun j i => llr.getD (P.nm j i) 0.0) (kindBuffers P BpKind.SumProduct).toc
      zsum := List.replicate P.N 0.0 }
  have hstart : Carries P (fun _ _ => (0.0 : F)) start := carries_start
  have hrun : ∀ n, let s := (List.range (n + 1)).foldl (fun s _ => zsumStep P llr s) start
      Carries P msg s ∧ s.zsum.length = P.N ∧ s.zsum.getD j 0.0 =
        (List.range n).foldl (fun z _ => z + edgeEstimate P llr msg j)
          (0.0 + edgeEstimate P llr (fun _ _ => 0.0) j) := by
    intro n
    induction n with
    | zero =>
      have hsum : start.zsum.length = P.N := List.length_replicate
      refine ⟨(hstart.step hP).1.congr hfirst,?_,?_⟩
      · simpa [zsumStep,sumProductStep,updateToc] using hsum
      · have hzero : start.zsum.getD j 0.0 = 0.0 := by
          rw [List.getD_eq_getElem?_getD]
          simp only [start,List.getElem?_replicate]
          split <;> rfl
        show (zsumStep P llr start).zsum.getD j 0.0 = _
        rw [hstart.getD_zsum hP hsum hj,hzero]
        rfl
    | succ n ih =>
      obtain ⟨hcarries,hlength,hvalue⟩ := ih
      dsimp only at *
      rw [List.range_succ,List.foldl_append,List.foldl_cons,List.foldl_nil]
      refine ⟨(hcarries.step hP).1.congr hagain,?_,?_⟩
      · simpa [zsumStep,sumProductStep,updateToc] using hlength
      · rw [hcarries.getD_zsum hP hlength hj,hvalue]
        conv_rhs => rw [List.range_succ,List.foldl_append,List.foldl_cons,List.foldl_nil]
  exact (hrun nIter).2.2

theorem length_bpLlrZsum (nIter : Nat) : (bpLlrZsum P llr nIter).length = P.N := by
  have hsteps (l : List Nat) (s : BpScratch F F) :
      (l.foldl (fun s _ => zsumStep P llr s) s).zsum.length = s.zsum.length := by
    induction l generalizing s with
    | nil => rfl
    | cons i l ih =>
      rw [List.foldl_cons,ih]
      simp [zsumStep,sumProductStep,updateToc]
  rw [bpLlrZsum,zsumRun,hsteps]
  exact List.length_replicate

end Run

section FirstDecisions
variable {K : Type} [Field K] [LinearOrder K] (tanh atanh : K → K) (infinity : K) (toI32 : K → Int)
  {P : LdpcParams} {llr : List K}

/-- The hard decisions of the observations. -/
def firstDecisions (P : LdpcParams) (llr : List K) : List UInt8 :=
  (List.range P.N).map fun i => if llr.getD i 0 > 0 then 1 else 0

/-- Belief propagation starts from them, whatever is locked. -/
private theorem cw_first (apMask : Option (List Bool)) (kind : BpKind K) (toc : List K) :
    letI := fieldF32 K tanh atanh infinity toI32
    (decideBits P llr apMask { kindBuffers P kind with toc := toc }).cw = firstDecisions P llr := by
  let _ := fieldF32 K tanh atanh infinity toI32
  have hsized := sized_kindBuffers (P := P) kind
  have hquiet (i : Nat) : estimate llr (kindBuffers P kind).tov i = llr.getD i 0 := by
    show llr.getD i (0.0 : K) + (List.range NCW).foldl (fun sum k =>
      sum + (List.replicate (P.N * NCW) (0.0 : K)).getD (i * NCW + k) 0.0) (0.0 : K) = _
    simp [zero_literal]
  have hestimate (i : Nat) : maskedEstimate llr apMask (kindBuffers P kind).tov i = llr.getD i 0 := by
    unfold maskedEstimate
    rw [hquiet]
    split
    · exact congrArg _ zero_literal
    · rfl
  unfold decideBits firstDecisions
  dsimp only
  rw [fill_eq_map _ hsized.zn,fill_eq_map _ hsized.cw]
  refine List.map_congr_left fun i hi => ?_
  rw [List.getD_eq_getElem?_getD,List.getElem?_map,List.getElem?_range (List.mem_range.mp hi),Option.map_some,
    Option.getD_some,hestimate]
  show (if llr.getD i 0 > (0.0 : K) then (1 : UInt8) else 0) = _
  rw [zero_literal]

/-- With no iteration after the first, nothing else is returned. -/
theorem bpDecodeGenericKind_reject {verify : Option (List UInt8 → Bool)} {kind : BpKind K}
    (h : ¬acceptable P verify (firstDecisions P llr) = true) :
    letI := fieldF32 K tanh atanh infinity toI32
    bpDecodeGenericKind P llr none 0 verify kind = none := by
  let _ := fieldF32 K tanh atanh infinity toI32
  let toc := writeChecks P (fun j i => llr.getD (P.nm j i) 0.0) (kindBuffers P kind).toc
  show (bpLoop P llr none verify kind 1 0 ⟨0,0⟩ { kindBuffers P kind with toc := toc }).1 = none
  rw [← cw_first tanh atanh infinity toI32 none kind toc] at h
  rw [bpLoop,if_neg h]
  split <;> rfl

/-- They are returned at once when they pass. -/
theorem bpDecodeGenericKind_accept {verify : Option (List UInt8 → Bool)} {kind : BpKind K}
    (apMask : Option (List Bool)) (maxIter : Nat) (h : acceptable P verify (firstDecisions P llr) = true) :
    letI := fieldF32 K tanh atanh infinity toI32
    bpDecodeGenericKind P llr apMask maxIter verify kind =
      some (bpResult P (fun i => llr.getD i 0 > 0) (firstDecisions P llr) 0) := by
  let _ := fieldF32 K tanh atanh infinity toI32
  let toc := writeChecks P (fun j i => llr.getD (P.nm j i) 0.0) (kindBuffers P kind).toc
  show (bpLoop P llr apMask verify kind (maxIter + 1) 0 ⟨0,0⟩ { kindBuffers P kind with toc := toc }).1 = _
  have hcw : (decideBits P llr apMask { kindBuffers P kind with toc := toc }).cw = firstDecisions P llr :=
    cw_first tanh atanh infinity toI32 apMask kind toc
  rw [← hcw] at h
  rw [bpLoop,if_pos h]
  dsimp only
  rw [hcw]
  simp only [zero_literal]

end FirstDecisions

section Exact
variable {K : Type} [Field K] [LinearOrder K] [IsStrictOrderedRing K] (tanh atanh : K → K) (infinity : K) (toI32 : K → Int)

omit [LinearOrder K] [IsStrictOrderedRing K] in
private theorem foldl_mul_eq_zero {n s : Nat} {p : Nat → Prop} [DecidablePred p] {f : Nat → K} (hs : s < n)
    (hp : p s) (hf : f s = 0) (a : K) :
    (List.range n).foldl (fun t s => if p s then t * f s else t) a = 0 := by
  induction n with
  | zero => omega
  | succ n ih =>
    rw [List.range_succ,List.foldl_append,List.foldl_cons,List.foldl_nil]
    rcases Nat.lt_succ_iff_lt_or_eq.mp hs with hlt | rfl
    · rw [ih hlt]
      split <;> simp
    · rw [if_pos hp,hf,mul_zero]

omit [IsStrictOrderedRing K] in
/-- The estimate of a bit that is erased and has heard nothing. -/
theorem edgeEstimate_of_silent {P : LdpcParams} {llr : List K} {msg : Nat → Nat → K} {j : Nat}
    (hllr : llr.getD j 0 = 0) (hmsg : ∀ c, msg j c = 0) :
    letI := fieldF32 K tanh atanh infinity toI32
    edgeEstimate P llr msg j = 0 := by
  let _ := fieldF32 K tanh atanh infinity toI32
  show llr.getD j (0.0 : K) + (List.range NCW).foldl (fun sum k => sum + msg j _) (0.0 : K) = 0
  simp only [hmsg,zero_literal,hllr]
  simp

/-- Such a bit silences its checks. -/
theorem edgeMessage_of_silent {P : LdpcParams} {llr : List K} {msg : Nat → Nat → K} {i j s : Nat} (htanh : tanh 0 = 0)
    (hatanh : atanh 0 = 0) (hs : s < P.nrw i) (hne : P.nm i s ≠ j) (hllr : llr.getD (P.nm i s) 0 = 0)
    (hmsg : ∀ c, msg (P.nm i s) c = 0) :
    letI := fieldF32 K tanh atanh infinity toI32
    edgeMessage P llr msg j i = 0 := by
  let _ := fieldF32 K tanh atanh infinity toI32
  have hestimate := edgeEstimate_of_silent tanh atanh infinity toI32 (P := P) hllr hmsg
  have hcheck : edgeToCheck P llr msg i s = 0 := by
    show (List.range NCW).foldl (fun x k =>
      if (P.mn (P.nm i s)).getD k 0 = i then x - msg (P.nm i s) ((P.mn (P.nm i s)).getD k 0) else x)
      (edgeEstimate P llr msg (P.nm i s)) = 0
    simp only [hestimate,hmsg]
    simp
  have hhalf : tanh (-edgeToCheck P llr msg i s / 2.0) = 0 := by
    rw [hcheck]
    simpa using htanh
  have hproduct : (List.range (P.nrw i)).foldl (fun tmn s =>
      if P.nm i s ≠ j then tmn * F32.tanh (-edgeToCheck P llr msg i s / 2.0) else tmn) (1.0 : K) = 0 :=
    foldl_mul_eq_zero (p := fun s => P.nm i s ≠ j) (f := fun s => tanh (-edgeToCheck P llr msg i s / 2.0))
      hs hne hhalf _
  have hplatanh : platanh (0 : K) = 0 := by
    have hlow : ¬|(0 : K)| > 0.9999999 := by norm_num
    exact (if_neg hlow).trans hatanh
  unfold edgeMessage
  rw [hproduct]
  show (2.0 : K) * platanh (-0 : K) = 0
  rw [neg_zero,hplatanh,mul_zero]

end Exact

end MfskCore.Fec
