import MfskCore.Fec.Bp
import MfskCore.Library.Machine

/-! One pool of buffers serves any sequence of calls. A call reads a buffer only where it has reset or
written it, so the decoders that take the pool return what those that allocate their own do. -/
namespace MfskCore.Fec
open Rust Library

/-- The buffers have the sizes the code gives them; the two lazy ones may still be empty. -/
structure BpScratch.Sized {T Wide : Type} (P : LdpcParams) (s : BpScratch T Wide) : Prop where
  tov : s.tov.length = P.N * NCW
  toc : s.toc.length = P.M * P.MAX_ROW
  tanhtoc : s.tanhtoc = [] ∨ s.tanhtoc.length = P.M * P.MAX_ROW
  min1 : s.min1.length = P.M
  min2 : s.min2.length = P.M
  idxMin1 : s.idxMin1.length = P.M
  signXor : s.signXor.length = P.M
  zn : s.zn.length = P.N
  cw : s.cw.length = P.N
  zsum : s.zsum = [] ∨ s.zsum.length = P.N

/-- What a call reads before it writes is the same in two pools of the right sizes: the messages, and
the half-messages where the call uses them. -/
structure Agree {T Wide : Type} (P : LdpcParams) (tanh : Prop) (a b : BpScratch T Wide) : Prop where
  left : a.Sized P
  right : b.Sized P
  tov : a.tov = b.tov
  toc : a.toc = b.toc
  tanhtoc : tanh → a.tanhtoc = b.tanhtoc

section Buffers
variable {T Wide : Type} {P : LdpcParams} {s a b : BpScratch T Wide} {tanh : Prop}

private theorem fill_congr {α : Type} {n : Nat} (f : Nat → α) {x y : List α} (hx : x.length = n)
    (hy : y.length = n) : fill n f x = fill n f y := by
  rw [fill_eq_map f hx,fill_eq_map f hy]

private theorem map_const_eq {α : Type} (c : α) {x : List α} {n : Nat} (h : x.length = n) :
    (x.map fun _ => c) = List.replicate n c := by
  rw [List.map_const',h]

theorem BpScratch.Sized.withToc (h : s.Sized P) (f : Nat → Nat → T) :
    BpScratch.Sized P { s with toc := writeChecks P f s.toc } :=
  { h with toc := by simpa [writeChecks] using h.toc }

theorem Agree.withToc (h : Agree P tanh a b) {f g : Nat → Nat → T} (hfg : f = g) :
    Agree P tanh { a with toc := writeChecks P f a.toc } { b with toc := writeChecks P g b.toc } where
  left := h.left.withToc f
  right := h.right.withToc g
  tov := h.tov
  toc := by
    dsimp only
    rw [h.toc,hfg]
  tanhtoc := h.tanhtoc

end Buffers

section Scalar
variable {T Wide : Type} [LlrScalar T Wide] {P : LdpcParams} {s a b : BpScratch T Wide} {tanh : Prop}

theorem sized_new : (BpScratch.new P : BpScratch T Wide).Sized P := by
  constructor <;> simp [BpScratch.new]

theorem BpScratch.Sized.reset (h : s.Sized P) : s.reset.Sized P where
  tov := by simpa [BpScratch.reset] using h.tov
  toc := by simpa [BpScratch.reset] using h.toc
  tanhtoc := by simpa [BpScratch.reset] using h.tanhtoc
  min1 := by simpa [BpScratch.reset] using h.min1
  min2 := by simpa [BpScratch.reset] using h.min2
  idxMin1 := by simpa [BpScratch.reset] using h.idxMin1
  signXor := by simpa [BpScratch.reset] using h.signXor
  zn := h.zn
  cw := h.cw
  zsum := h.zsum

/-- The lazy buffer is all zeros after a reset, whether it is new or used. -/
theorem ensureTanhtoc_reset (h : s.Sized P) :
    (s.reset.ensureTanhtoc P).tanhtoc = List.replicate (P.M * P.MAX_ROW) LlrScalar.zero := by
  unfold BpScratch.ensureTanhtoc
  rcases h.tanhtoc with hempty | hlength
  · rw [if_pos (by simp [BpScratch.reset,hempty])]
  · split
    · rfl
    · exact map_const_eq _ hlength

theorem BpScratch.Sized.ensureTanhtoc (h : s.Sized P) : (s.reset.ensureTanhtoc P).Sized P := by
  have htanh := ensureTanhtoc_reset h
  have hreset := h.reset
  unfold BpScratch.ensureTanhtoc at htanh ⊢
  split
  · exact { hreset with tanhtoc := Or.inr (by simp) }
  · exact hreset

theorem BpScratch.Sized.ensureZsum (h : s.Sized P) : (s.ensureZsum P).Sized P := by
  unfold BpScratch.ensureZsum
  split
  · exact { h with zsum := Or.inr (by simp) }
  · exact { h with zsum := by simpa using h.zsum }

/-- The running sum starts from zeros, whether its buffer is new or used. -/
theorem ensureZsum_zsum (h : s.Sized P) :
    (s.ensureZsum P).zsum = List.replicate P.N (LlrScalar.wideZero T) := by
  unfold BpScratch.ensureZsum
  rcases h.zsum with hempty | hlength
  · rw [if_pos (by simp [hempty])]
  · split
    · rfl
    · exact map_const_eq _ hlength

theorem reset_tov (h : s.Sized P) : s.reset.tov = List.replicate (P.N * NCW) LlrScalar.zero :=
  map_const_eq _ h.tov

theorem reset_toc (h : s.Sized P) : s.reset.toc = List.replicate (P.M * P.MAX_ROW) LlrScalar.zero :=
  map_const_eq _ h.toc

theorem agree_reset (ha : a.Sized P) (hb : b.Sized P) : Agree P False a.reset b.reset where
  left := ha.reset
  right := hb.reset
  tov := (reset_tov ha).trans (reset_tov hb).symm
  toc := (reset_toc ha).trans (reset_toc hb).symm
  tanhtoc := False.elim

theorem BpScratch.Sized.minSumStep (h : s.Sized P) (scale : T → T) :
    (MfskCore.Fec.minSumStep P scale s).Sized P where
  tov := by simpa [MfskCore.Fec.minSumStep,minPass,writeBits] using h.tov
  toc := h.toc
  tanhtoc := h.tanhtoc
  min1 := by simpa [MfskCore.Fec.minSumStep,minPass] using h.min1
  min2 := by simpa [MfskCore.Fec.minSumStep,minPass] using h.min2
  idxMin1 := by simpa [MfskCore.Fec.minSumStep,minPass] using h.idxMin1
  signXor := by simpa [MfskCore.Fec.minSumStep,minPass] using h.signXor
  zn := h.zn
  cw := h.cw
  zsum := h.zsum

/-- The first pass writes its four buffers from end to end. -/
theorem Agree.minSumStep (h : Agree P tanh a b) (scale : T → T) :
    Agree P tanh (MfskCore.Fec.minSumStep P scale a) (MfskCore.Fec.minSumStep P scale b) := by
  have hmin1 : (minPass P a).min1 = (minPass P b).min1 := by
    simp only [minPass,h.toc,fill_congr _ h.left.min1 h.right.min1]
  have hmin2 : (minPass P a).min2 = (minPass P b).min2 := by
    simp only [minPass,h.toc,fill_congr _ h.left.min2 h.right.min2]
  have hidx : (minPass P a).idxMin1 = (minPass P b).idxMin1 := by
    simp only [minPass,h.toc,fill_congr _ h.left.idxMin1 h.right.idxMin1]
  have hsign : (minPass P a).signXor = (minPass P b).signXor := by
    simp only [minPass,h.toc,fill_congr _ h.left.signXor h.right.signXor]
  have htoc : (minPass P a).toc = (minPass P b).toc := h.toc
  have hmsg : minSum P (minPass P a) scale = minSum P (minPass P b) scale := by
    funext j ichk
    unfold minSum
    rw [hmin1,hmin2,hidx,hsign,htoc]
  refine ⟨h.left.minSumStep scale,h.right.minSumStep scale,?_,h.toc,h.tanhtoc⟩
  show writeBits P _ a.tov = writeBits P _ b.tov
  rw [hmsg,h.tov]

end Scalar

section Nms
variable {F T Wide : Type} [LlrScalar T Wide] [MulAlpha F T] {P : LdpcParams} {a b s : BpScratch T Wide}

private theorem sized_wideDecide (h : s.Sized P) (llr : List T) (apMask : Option (List Bool)) :
    (wideDecide P llr apMask s).Sized P :=
  { h with
    zn := by simpa [wideDecide] using h.zn
    cw := by simpa [wideDecide] using h.cw }

/-- The estimates and the hard decisions are written from end to end. -/
private theorem agree_wideDecide (h : Agree P False a b) (llr : List T) (apMask : Option (List Bool)) :
    Agree P False (wideDecide P llr apMask a) (wideDecide P llr apMask b) ∧
      (wideDecide P llr apMask a).zn = (wideDecide P llr apMask b).zn ∧
      (wideDecide P llr apMask a).cw = (wideDecide P llr apMask b).cw := by
  have hleft := sized_wideDecide h.left llr apMask
  have hright := sized_wideDecide h.right llr apMask
  refine ⟨⟨hleft,hright,h.tov,h.toc,False.elim⟩,?_,?_⟩
  · simp only [wideDecide,h.tov,fill_congr _ h.left.zn h.right.zn]
  · simp only [wideDecide,h.tov,fill_congr _ h.left.zn h.right.zn,fill_congr _ h.left.cw h.right.cw]

private theorem nmsLoop_congr (llr : List T) (apMask : Option (List Bool))
    (verify : Option (List UInt8 → Bool)) (alpha : F) (left iter : Nat) (stall : Stall)
    (h : Agree P False a b) :
    (nmsLoop P llr apMask verify alpha left iter stall a).1 =
      (nmsLoop P llr apMask verify alpha left iter stall b).1 := by
  induction left generalizing iter stall a b with
  | zero => rfl
  | succ left ih =>
    obtain ⟨hagree,hzn,hcw⟩ := agree_wideDecide h llr apMask
    have hnext := (hagree.withToc (congrArg₂ (wideToCheck P) hzn hagree.tov)).minSumStep
      fun mag => MulAlpha.mulAlpha mag alpha
    unfold nmsLoop
    dsimp only
    rw [hcw]
    split
    · rfl
    · split
      · rfl
      · exact ih _ _ hnext

private theorem sized_nmsLoop (llr : List T) (apMask : Option (List Bool))
    (verify : Option (List UInt8 → Bool)) (alpha : F) (left iter : Nat) (stall : Stall)
    (h : s.Sized P) : (nmsLoop P llr apMask verify alpha left iter stall s).2.Sized P := by
  induction left generalizing iter stall s with
  | zero => exact h
  | succ left ih =>
    have hdecide := sized_wideDecide h llr apMask
    unfold nmsLoop
    dsimp only
    split
    · exact hdecide
    · split
      · exact hdecide
      · exact ih _ _ ((hdecide.withToc _).minSumStep _)

/-- A pool of the right sizes decodes as a new one. -/
theorem nms_scratch (hs : s.Sized P) (llr : List T) (apMask : Option (List Bool)) (maxIter : Nat)
    (verify : Option (List UInt8 → Bool)) (alpha : F) :
    (bpDecodeGenericNmsWithScratch P s llr apMask maxIter verify alpha).1 =
      bpDecodeGenericNms P llr apMask maxIter verify alpha :=
  nmsLoop_congr llr apMask verify alpha _ _ _ ((agree_reset hs sized_new).withToc rfl)

theorem sized_nms (hs : s.Sized P) (llr : List T) (apMask : Option (List Bool)) (maxIter : Nat)
    (verify : Option (List UInt8 → Bool)) (alpha : F) :
    (bpDecodeGenericNmsWithScratch P s llr apMask maxIter verify alpha).2.Sized P :=
  sized_nmsLoop llr apMask verify alpha _ _ _ (hs.reset.withToc _)

end Nms

section SumProduct
variable {F : Type} [F32 F] {P : LdpcParams} {a b s : BpScratch F F}

private theorem sized_sumProductStep (h : s.Sized P) : (sumProductStep P s).Sized P :=
  { h with
    tov := by simpa [sumProductStep,writeBits] using h.tov
    tanhtoc := by
      rcases h.tanhtoc with hempty | hlength
      · left
        apply List.eq_nil_of_length_eq_zero
        simp [sumProductStep,writeChecks,hempty]
      · right
        simpa [sumProductStep,writeChecks] using hlength }

private theorem agree_sumProductStep (h : Agree P True a b) :
    Agree P True (sumProductStep P a) (sumProductStep P b) := by
  have htanh : (sumProductStep P a).tanhtoc = (sumProductStep P b).tanhtoc := by
    simp only [sumProductStep,h.toc,h.tanhtoc trivial]
  refine ⟨sized_sumProductStep h.left,sized_sumProductStep h.right,?_,h.toc,fun _ => htanh⟩
  simp only [sumProductStep,h.tov,h.toc,h.tanhtoc trivial]

end SumProduct

section Kind
variable {F : Type} [F32 F] {P : LdpcParams} {a b s : BpScratch F F} (kind : BpKind F)

private theorem sized_kindStep (h : s.Sized P) : (kindStep P kind s).Sized P := by
  cases kind with
  | SumProduct => exact sized_sumProductStep h
  | NormalizedMinSum alpha => exact h.minSumStep _
  | OffsetMinSum beta => exact h.minSumStep _

private theorem agree_kindStep (h : Agree P (kind = .SumProduct) a b) :
    Agree P (kind = .SumProduct) (kindStep P kind a) (kindStep P kind b) := by
  cases kind with
  | SumProduct =>
    have hstep := agree_sumProductStep { h with tanhtoc := fun _ => h.tanhtoc rfl }
    exact { hstep with tanhtoc := fun _ => hstep.tanhtoc trivial }
  | NormalizedMinSum alpha => exact h.minSumStep _
  | OffsetMinSum beta => exact h.minSumStep _

private theorem sized_decideBits (h : s.Sized P) (llr : List F) (apMask : Option (List Bool)) :
    (decideBits P llr apMask s).Sized P :=
  { h with
    zn := by simpa [decideBits] using h.zn
    cw := by simpa [decideBits] using h.cw }

private theorem agree_decideBits {tanh : Prop} (h : Agree P tanh a b) (llr : List F)
    (apMask : Option (List Bool)) :
    Agree P tanh (decideBits P llr apMask a) (decideBits P llr apMask b) ∧
      (decideBits P llr apMask a).zn = (decideBits P llr apMask b).zn ∧
      (decideBits P llr apMask a).cw = (decideBits P llr apMask b).cw := by
  have hleft := sized_decideBits h.left llr apMask
  have hright := sized_decideBits h.right llr apMask
  refine ⟨⟨hleft,hright,h.tov,h.toc,h.tanhtoc⟩,?_,?_⟩
  · simp only [decideBits,h.tov,fill_congr _ h.left.zn h.right.zn]
  · simp only [decideBits,h.tov,fill_congr _ h.left.zn h.right.zn,fill_congr _ h.left.cw h.right.cw]

private theorem bpLoop_congr (llr : List F) (apMask : Option (List Bool))
    (verify : Option (List UInt8 → Bool)) (left iter : Nat) (stall : Stall)
    (h : Agree P (kind = .SumProduct) a b) :
    (bpLoop P llr apMask verify kind left iter stall a).1 =
      (bpLoop P llr apMask verify kind left iter stall b).1 := by
  induction left generalizing iter stall a b with
  | zero => rfl
  | succ left ih =>
    obtain ⟨hagree,hzn,hcw⟩ := agree_decideBits h llr apMask
    have hnext := agree_kindStep kind (hagree.withToc (congrArg₂ (toCheck P) hzn hagree.tov))
    unfold bpLoop
    dsimp only
    rw [hcw]
    split
    · rfl
    · split
      · rfl
      · exact ih _ _ hnext

private theorem sized_bpLoop (llr : List F) (apMask : Option (List Bool))
    (verify : Option (List UInt8 → Bool)) (left iter : Nat) (stall : Stall) (h : s.Sized P) :
    (bpLoop P llr apMask verify kind left iter stall s).2.Sized P := by
  induction left generalizing iter stall s with
  | zero => exact h
  | succ left ih =>
    have hdecide := sized_decideBits h llr apMask
    unfold bpLoop
    dsimp only
    split
    · exact hdecide
    · split
      · exact hdecide
      · exact ih _ _ (sized_kindStep kind (hdecide.withToc _))

theorem sized_kindBuffers : (kindBuffers P kind).Sized P := by
  cases kind <;> constructor <;> simp [kindBuffers]

/-- After the reset, and with the lazy buffer where the kernel needs it, a used pool holds what a call
that allocates its own starts from. -/
private theorem agree_kindBuffers (hs : s.Sized P) :
    Agree P (kind = .SumProduct)
      (match kind with
        | .SumProduct => s.reset.ensureTanhtoc P
        | .NormalizedMinSum _ => s.reset
        | .OffsetMinSum _ => s.reset)
      (kindBuffers P kind) := by
  have hbuffers := sized_kindBuffers (P := P) kind
  have htov := reset_tov hs
  have htoc := reset_toc hs
  cases kind with
  | SumProduct =>
    have hensure : (s.reset.ensureTanhtoc P).tov = s.reset.tov ∧ (s.reset.ensureTanhtoc P).toc = s.reset.toc := by
      unfold BpScratch.ensureTanhtoc
      split <;> exact ⟨rfl,rfl⟩
    exact ⟨hs.ensureTanhtoc,hbuffers,hensure.1.trans htov,hensure.2.trans htoc,fun _ => ensureTanhtoc_reset hs⟩
  | NormalizedMinSum alpha => exact ⟨hs.reset,hbuffers,htov,htoc,fun h => by cases h⟩
  | OffsetMinSum beta => exact ⟨hs.reset,hbuffers,htov,htoc,fun h => by cases h⟩

theorem kind_scratch (hs : s.Sized P) (llr : List F) (apMask : Option (List Bool)) (maxIter : Nat)
    (verify : Option (List UInt8 → Bool)) :
    (bpDecodeGenericKindWithScratch P s llr apMask maxIter verify kind).1 =
      bpDecodeGenericKind P llr apMask maxIter verify kind :=
  bpLoop_congr kind llr apMask verify _ _ _ ((agree_kindBuffers kind hs).withToc rfl)

theorem sized_kind (hs : s.Sized P) (llr : List F) (apMask : Option (List Bool)) (maxIter : Nat)
    (verify : Option (List UInt8 → Bool)) :
    (bpDecodeGenericKindWithScratch P s llr apMask maxIter verify kind).2.Sized P :=
  sized_bpLoop kind llr apMask verify _ _ _ ((agree_kindBuffers kind hs).left.withToc _)

end Kind

section Zsum
variable {F : Type} [F32 F] {P : LdpcParams} {a b s : BpScratch F F}

theorem sized_zsumStep (h : s.Sized P) (llr : List F) : (zsumStep P llr s).Sized P := by
  have hzn : BpScratch.Sized P { s with zn := fill P.N (estimate llr s.tov) s.zn } :=
    { h with zn := by simpa using h.zn }
  have hzsum : BpScratch.Sized P
      { s with
        zn := fill P.N (estimate llr s.tov) s.zn
        zsum := s.zsum.zipIdx.map fun zi => zi.1 + (fill P.N (estimate llr s.tov) s.zn).getD zi.2 0.0 } :=
    { hzn with zsum := by simpa using h.zsum }
  exact sized_sumProductStep (hzsum.withToc _)

/-- One iteration keeps the agreement and the running sum. -/
private theorem agree_zsumStep (h : Agree P True a b) (hzsum : a.zsum = b.zsum) (llr : List F) :
    Agree P True (zsumStep P llr a) (zsumStep P llr b) ∧
      (zsumStep P llr a).zsum = (zsumStep P llr b).zsum := by
  have hzn : fill P.N (estimate llr a.tov) a.zn = fill P.N (estimate llr b.tov) b.zn := by
    rw [h.tov,fill_congr _ h.left.zn h.right.zn]
  have hcheck : toCheck P (fill P.N (estimate llr a.tov) a.zn) a.tov =
      toCheck P (fill P.N (estimate llr b.tov) b.zn) b.tov := by
    rw [hzn,h.tov]
  have hsum : (zsumStep P llr a).zsum = (zsumStep P llr b).zsum := by
    show (a.zsum.zipIdx.map fun zi => zi.1 + (fill P.N (estimate llr a.tov) a.zn).getD zi.2 0.0) =
      b.zsum.zipIdx.map fun zi => zi.1 + (fill P.N (estimate llr b.tov) b.zn).getD zi.2 0.0
    rw [hzn,hzsum]
  have htoc := h.withToc hcheck
  have hstep := agree_sumProductStep htoc
  refine ⟨⟨sized_zsumStep h.left llr,sized_zsumStep h.right llr,hstep.tov,hstep.toc,hstep.tanhtoc⟩,hsum⟩

private theorem agree_zsumSteps (llr : List F) (iters : List Nat) (h : Agree P True a b)
    (hzsum : a.zsum = b.zsum) :
    (iters.foldl (fun s _ => zsumStep P llr s) a).zsum =
      (iters.foldl (fun s _ => zsumStep P llr s) b).zsum := by
  induction iters generalizing a b with
  | nil => exact hzsum
  | cons i iters ih =>
    obtain ⟨hagree,hsum⟩ := agree_zsumStep h hzsum llr
    exact ih hagree hsum

theorem sized_zsumSteps (llr : List F) (iters : List Nat) (h : s.Sized P) :
    (iters.foldl (fun s _ => zsumStep P llr s) s).Sized P := by
  induction iters generalizing s with
  | nil => exact h
  | cons i iters ih => exact ih (sized_zsumStep h llr)

private theorem sized_zsumStart (hs : s.Sized P) : ((s.reset.ensureTanhtoc P).ensureZsum P).Sized P :=
  hs.ensureTanhtoc.ensureZsum

theorem zsum_scratch (hs : s.Sized P) (llr : List F) (nIter : Nat) :
    (bpLlrZsumWithScratch P s llr nIter).1 = bpLlrZsum P llr nIter := by
  have hkind := agree_kindBuffers BpKind.SumProduct hs
  have hensure : ∀ t : BpScratch F F, (t.ensureZsum P).tov = t.tov ∧ (t.ensureZsum P).toc = t.toc ∧
      (t.ensureZsum P).tanhtoc = t.tanhtoc := by
    intro t
    unfold BpScratch.ensureZsum
    split <;> exact ⟨rfl,rfl,rfl⟩
  obtain ⟨htov,htoc,htanh⟩ := hensure (s.reset.ensureTanhtoc P)
  have hagree : Agree P True ((s.reset.ensureTanhtoc P).ensureZsum P)
      { kindBuffers P BpKind.SumProduct with zsum := List.replicate P.N 0.0 } :=
    ⟨sized_zsumStart hs,{ hkind.right with zsum := Or.inr (by simp) },htov.trans hkind.tov,
      htoc.trans hkind.toc,fun _ => htanh.trans (hkind.tanhtoc rfl)⟩
  exact agree_zsumSteps llr _ (hagree.withToc rfl) (ensureZsum_zsum hs.ensureTanhtoc)

theorem sized_zsum (hs : s.Sized P) (llr : List F) (nIter : Nat) :
    (bpLlrZsumWithScratch P s llr nIter).2.Sized P :=
  sized_zsumSteps llr _ ((sized_zsumStart hs).withToc _)

end Zsum

/-- A call on the pool of a min-sum decoder. -/
structure NmsCall (F T : Type) where
  llr : List T
  apMask : Option (List Bool)
  maxIter : Nat
  verify : Option (List UInt8 → Bool)
  alpha : F

/-- A call on a pool of floats, which all three decoders share. -/
inductive ScratchCall (F : Type) where
  | kind (llr : List F) (apMask : Option (List Bool)) (maxIter : Nat)
      (verify : Option (List UInt8 → Bool)) (kernel : BpKind F)
  | nms (call : NmsCall F F)
  | zsum (llr : List F) (nIter : Nat)

section Histories
variable {F T Wide : Type} [LlrScalar T Wide] [MulAlpha F T] (P : LdpcParams)

/-- What a call leaves in the pool. -/
def NmsCall.leave (s : BpScratch T Wide) (call : NmsCall F T) : BpScratch T Wide :=
  (bpDecodeGenericNmsWithScratch P s call.llr call.apMask call.maxIter call.verify call.alpha).2

theorem sized_nmsHistory (calls : List (NmsCall F T)) :
    (run (NmsCall.leave P) (BpScratch.new P : BpScratch T Wide) calls).Sized P := by
  refine run_invariant (fun s call h => ?_) sized_new
  exact sized_nms h call.llr call.apMask call.maxIter call.verify call.alpha

end Histories

section FloatHistories
variable {F : Type} [F32 F] (P : LdpcParams)

def ScratchCall.leave (s : BpScratch F F) : ScratchCall F → BpScratch F F
  | kind llr apMask maxIter verify kernel =>
    (bpDecodeGenericKindWithScratch P s llr apMask maxIter verify kernel).2
  | nms call => call.leave P s
  | zsum llr nIter => (bpLlrZsumWithScratch P s llr nIter).2

theorem sized_history (calls : List (ScratchCall F)) :
    (run (ScratchCall.leave P) (BpScratch.new P) calls).Sized P := by
  refine run_invariant (fun s call h => ?_) sized_new
  cases call with
  | kind llr apMask maxIter verify kernel => exact sized_kind kernel h llr apMask maxIter verify
  | nms call => exact sized_nms h call.llr call.apMask call.maxIter call.verify call.alpha
  | zsum llr nIter => exact sized_zsum h llr nIter

end FloatHistories

/-- After any history of calls, a decoder that takes the pool returns what the one that allocates its own
buffers does, whatever the scalar operations mean. -/
theorem scratch_reuse_invisible {F : Type} [F32 F] (P : LdpcParams) :
    (∀ calls : List (ScratchCall F),
      let s := run (ScratchCall.leave P) (BpScratch.new P) calls
      (∀ llr apMask maxIter verify kind,
        (bpDecodeGenericKindWithScratch P s llr apMask maxIter verify kind).1 =
          bpDecodeGenericKind P llr apMask maxIter verify kind) ∧
      (∀ llr apMask maxIter verify (alpha : F),
        (bpDecodeGenericNmsWithScratch P s llr apMask maxIter verify alpha).1 =
          bpDecodeGenericNms P llr apMask maxIter verify alpha) ∧
      (∀ llr nIter, (bpLlrZsumWithScratch P s llr nIter).1 = bpLlrZsum P llr nIter)) ∧
    (∀ (T Wide : Type) [LlrScalar T Wide] [MulAlpha F T] (calls : List (NmsCall F T))
      (llr : List T) (apMask : Option (List Bool)) (maxIter : Nat)
      (verify : Option (List UInt8 → Bool)) (alpha : F),
      (bpDecodeGenericNmsWithScratch P (run (NmsCall.leave P) (BpScratch.new P) calls) llr apMask
        maxIter verify alpha).1 = bpDecodeGenericNms P llr apMask maxIter verify alpha) := by
  refine ⟨fun calls => ?_,fun T Wide _ _ calls llr apMask maxIter verify alpha => ?_⟩
  · have hs := sized_history P calls
    exact ⟨fun llr apMask maxIter verify kind => kind_scratch kind hs llr apMask maxIter verify,
      fun llr apMask maxIter verify alpha => nms_scratch hs llr apMask maxIter verify alpha,
      fun llr nIter => zsum_scratch hs llr nIter⟩
  · exact nms_scratch (sized_nmsHistory P calls) llr apMask maxIter verify alpha

end MfskCore.Fec
