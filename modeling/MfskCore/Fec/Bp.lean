import MfskCore.Fec.LdpcTables
import MfskCore.Fec.LlrScalar
import MfskCore.Library.Positional

/-! The belief-propagation decoder of the LDPC codes (`fec/ldpc/bp.rs`) and the stage of `decode_soft`
that runs it (`fec/ldpc/mod.rs`, `fec/ldpc240_101/mod.rs`, `fec/ldpc_128_90/mod.rs`). The inputs have
the lengths the callers assert; the buffers are written in place, as the source does. -/
namespace MfskCore.Fec
open Rust Library

/-- The number of checks of a bit. -/
def NCW : Nat := 3

/-- The check-node update. -/
inductive BpKind (F : Type) where
  | SumProduct
  | NormalizedMinSum (alpha : F)
  | OffsetMinSum (beta : F)

structure BpResult where
  message77 : List UInt8
  info : List UInt8
  codeword : List UInt8
  hardErrors : Nat
  iterations : Nat
  deriving DecidableEq

/-- The working buffers. Two of them are empty until a call needs them. -/
@[ext] structure BpScratch (T Wide : Type) where
  tov : List T
  toc : List T
  tanhtoc : List T
  min1 : List T
  min2 : List T
  idxMin1 : List Nat
  signXor : List Bool
  zn : List Wide
  cw : List UInt8
  zsum : List Wide

namespace BpScratch
variable {T Wide : Type} [LlrScalar T Wide] (P : LdpcParams)

def new : BpScratch T Wide where
  tov := List.replicate (P.N * NCW) LlrScalar.zero
  toc := List.replicate (P.M * P.MAX_ROW) LlrScalar.zero
  tanhtoc := []
  min1 := List.replicate P.M LlrScalar.posInfLike
  min2 := List.replicate P.M LlrScalar.posInfLike
  idxMin1 := List.replicate P.M 0
  signXor := List.replicate P.M false
  zn := List.replicate P.N (LlrScalar.wideZero T)
  cw := List.replicate P.N 0
  zsum := []

/-- The reset before a call. The estimates and the hard decisions keep what they hold. -/
def reset (s : BpScratch T Wide) : BpScratch T Wide :=
  { s with
    tov := s.tov.map fun _ => LlrScalar.zero
    toc := s.toc.map fun _ => LlrScalar.zero
    tanhtoc := s.tanhtoc.map fun _ => LlrScalar.zero
    min1 := s.min1.map fun _ => LlrScalar.posInfLike
    min2 := s.min2.map fun _ => LlrScalar.posInfLike
    idxMin1 := s.idxMin1.map fun _ => 0
    signXor := s.signXor.map fun _ => false }

def ensureTanhtoc (s : BpScratch T Wide) : BpScratch T Wide :=
  if s.tanhtoc.isEmpty then { s with tanhtoc := List.replicate (P.M * P.MAX_ROW) LlrScalar.zero } else s

def ensureZsum (s : BpScratch T Wide) : BpScratch T Wide :=
  if s.zsum.isEmpty then { s with zsum := List.replicate P.N (LlrScalar.wideZero T) }
  else { s with zsum := s.zsum.map fun _ => LlrScalar.wideZero T }

end BpScratch

/-- What the loop counts: the run of iterations without progress, and the checks that failed last. -/
structure Stall where
  ncnt : Nat
  nclast : Nat

/-- The count after an iteration with `ncheck` failing checks. -/
def Stall.next (s : Stall) (iter ncheck : Nat) : Stall :=
  ⟨if iter > 0 then if ncheck < s.nclast then 0 else s.ncnt + 1 else s.ncnt,ncheck⟩

/-- The stall detector gives up. -/
def Stall.givesUp (s : Stall) (iter : Nat) : Bool := iter > 0 && s.ncnt ≥ 5 && iter ≥ 10 && s.nclast > 15

/-- A candidate whose checks hold and whose information part passes. -/
def acceptable (P : LdpcParams) (verify : Option (List UInt8 → Bool)) (cw : List UInt8) : Bool :=
  P.ncheck cw == 0 && verify.all fun f => f (cw.take P.K)

/-- The result of an accepted word; `one` says which observations favour a one. -/
def bpResult (P : LdpcParams) (one : Nat → Bool) (cw : List UInt8) (iter : Nat) : BpResult :=
  { message77 := (cw.take P.K).take 77
    info := cw.take P.K
    codeword := cw
    hardErrors := (List.range P.N).countP fun i => (cw.getD i 0 == 1) != one i
    iterations := iter }

section Messages
variable {F : Type} [F32 F] (P : LdpcParams)

def platanh (x : F) : F := if F32.abs x > 0.9999999 then F32.signum x * 4.6 else F32.atanh x

/-- A bit's estimate: its own value and the messages of its checks. -/
def estimate (llr tov : List F) (i : Nat) : F :=
  llr.getD i 0.0 + (List.range NCW).foldl (fun sum k => sum + tov.getD (i * NCW + k) 0.0) 0.0

/-- The estimate, or the bit's own value alone when the hint locks it. -/
def maskedEstimate (llr : List F) (apMask : Option (List Bool)) (tov : List F) (i : Nat) : F :=
  if apMask.any fun mm => mm.getD i false then llr.getD i 0.0 else estimate llr tov i

def hardDecision (z : F) : UInt8 := if z > 0.0 then 1 else 0

/-- The message of a bit to a check: its estimate less what that check told it. -/
def toCheck (zn tov : List F) (j i : Nat) : F :=
  let ibj := P.nm j i
  (List.range NCW).foldl (fun msg kk =>
    if (P.mn ibj).getD kk 0 = j then msg - tov.getD (ibj * NCW + kk) 0.0 else msg) (zn.getD ibj 0.0)

/-- Write one message for each slot in use of each check. -/
def writeChecks {α : Type} (f : Nat → Nat → α) (buf : List α) : List α := fillRows P.M P.MAX_ROW P.nrw f buf

/-- Write one message for each check of each bit. -/
def writeBits {α : Type} (f : Nat → Nat → α) (buf : List α) : List α :=
  fillRows P.N NCW (fun _ => NCW) (fun j k => f j ((P.mn j).getD k 0)) buf

def halfTanh (toc : List F) (i k : Nat) : F := F32.tanh (-toc.getD (i * P.MAX_ROW + k) 0.0 / 2.0)

/-- The sum-product message of a check to bit `j`. -/
def sumProduct (tanhtoc : List F) (j ichk : Nat) : F :=
  let tmn := (List.range (P.nrw ichk)).foldl (fun tmn s =>
    if P.nm ichk s ≠ j then tmn * tanhtoc.getD (ichk * P.MAX_ROW + s) 0.0 else tmn) 1.0
  2.0 * platanh (-tmn)

/-- The sum-product update. -/
def sumProductStep (s : BpScratch F F) : BpScratch F F :=
  let tanhtoc := writeChecks P (halfTanh P s.toc) s.tanhtoc
  { s with tanhtoc := tanhtoc, tov := writeBits P (sumProduct P tanhtoc) s.tov }

/-- The slot of a bit in a check; a bit the check does not list keeps the sentinel. -/
def mySlot (j ichk : Nat) : Nat := ((List.range (P.nrw ichk)).find? fun s => P.nm ichk s = j).getD (P.nrw ichk)

end Messages

/-- The two least magnitudes of a check, the slot of the least, and the sign of the product. -/
structure CheckMin (T : Type) where
  min1 : T
  min2 : T
  idxMin1 : Nat
  signXor : Bool

section MinSum
variable {T Wide : Type} [LlrScalar T Wide] (P : LdpcParams)

/-- One slot in the pass over a check. -/
def CheckMin.push (c : CheckMin T) (s : Nat) (v : T) : CheckMin T :=
  let sx := if LlrScalar.isNegative v then !c.signXor else c.signXor
  let av := LlrScalar.absSat v
  if LlrScalar.ltTotal av c.min1 then ⟨av,c.min1,s,sx⟩
  else if LlrScalar.ltTotal av c.min2 then ⟨c.min1,av,c.idxMin1,sx⟩
  else ⟨c.min1,c.min2,c.idxMin1,sx⟩

/-- The pass over the slots in use of check `i`. -/
def checkMin (toc : List T) (i : Nat) : CheckMin T :=
  (List.range (P.nrw i)).foldl (fun c s => c.push s (toc.getD (i * P.MAX_ROW + s) LlrScalar.zero))
    ⟨LlrScalar.posInfLike,LlrScalar.posInfLike,0,false⟩

/-- The four buffers of the first pass. -/
def minPass (s : BpScratch T Wide) : BpScratch T Wide :=
  { s with
    min1 := fill P.M (fun i => (checkMin P s.toc i).min1) s.min1
    min2 := fill P.M (fun i => (checkMin P s.toc i).min2) s.min2
    idxMin1 := fill P.M (fun i => (checkMin P s.toc i).idxMin1) s.idxMin1
    signXor := fill P.M (fun i => (checkMin P s.toc i).signXor) s.signXor }

/-- The message of a check to bit `j`: the scaled magnitude, with the sign of the other edges and of the
row weight. -/
def minSum (s : BpScratch T Wide) (scale : T → T) (j ichk : Nat) : T :=
  let slot := mySlot P j ichk
  let myV := if slot < P.nrw ichk then s.toc.getD (ichk * P.MAX_ROW + slot) LlrScalar.zero else LlrScalar.zero
  let negative := s.signXor.getD ichk false ^^ LlrScalar.isNegative myV ^^ decide (P.nrw ichk % 2 ≠ 0)
  let mag := if slot < P.nrw ichk ∧ slot = s.idxMin1.getD ichk 0 then s.min2.getD ichk LlrScalar.zero
    else s.min1.getD ichk LlrScalar.zero
  if negative then LlrScalar.negSat (scale mag) else scale mag

/-- The min-sum update. -/
def minSumStep (scale : T → T) (s : BpScratch T Wide) : BpScratch T Wide :=
  let s := minPass P s
  { s with tov := writeBits P (minSum P s scale) s.tov }

end MinSum

section Kind
variable {F : Type} [F32 F] (P : LdpcParams)

/-- The check-node update of a kind. -/
def kindStep (kind : BpKind F) (s : BpScratch F F) : BpScratch F F :=
  match kind with
  | .SumProduct => sumProductStep P s
  | .NormalizedMinSum alpha => minSumStep P (fun mag => alpha * mag) s
  | .OffsetMinSum beta => minSumStep P (fun mag => F32.max (mag - beta) 0.0) s

/-- The estimates and the hard decisions of an iteration. -/
def decideBits (llr : List F) (apMask : Option (List Bool)) (s : BpScratch F F) : BpScratch F F :=
  let zn := fill P.N (maskedEstimate llr apMask s.tov) s.zn
  { s with zn := zn, cw := fill P.N (fun i => hardDecision (zn.getD i 0.0)) s.cw }

/-- The messages to the checks. -/
def updateToc (s : BpScratch F F) : BpScratch F F :=
  { s with toc := writeChecks P (toCheck P s.zn s.tov) s.toc }

/-- The iterations left, from iteration `iter` on. -/
def bpLoop (llr : List F) (apMask : Option (List Bool)) (verify : Option (List UInt8 → Bool))
    (kind : BpKind F) : Nat → Nat → Stall → BpScratch F F → Option BpResult × BpScratch F F
  | 0, _, _, s => (none,s)
  | left + 1, iter, stall, s =>
    let s := decideBits P llr apMask s
    let stall := stall.next iter (P.ncheck s.cw)
    if acceptable P verify s.cw then
      (some (bpResult P (fun i => llr.getD i 0.0 > 0.0) s.cw iter),s)
    else if stall.givesUp iter then (none,s)
    else bpLoop llr apMask verify kind left (iter + 1) stall (kindStep P kind (updateToc P s))

/-- The common body: the first messages are the observations. -/
def bpRun (llr : List F) (apMask : Option (List Bool)) (maxIter : Nat)
    (verify : Option (List UInt8 → Bool)) (kind : BpKind F) (s : BpScratch F F) :
    Option BpResult × BpScratch F F :=
  bpLoop P llr apMask verify kind (maxIter + 1) 0 ⟨0,0⟩
    { s with toc := writeChecks P (fun j i => llr.getD (P.nm j i) 0.0) s.toc }

/-- The buffers of a call that allocates its own. -/
def kindBuffers (kind : BpKind F) : BpScratch F F where
  tov := List.replicate (P.N * NCW) 0.0
  toc := List.replicate (P.M * P.MAX_ROW) 0.0
  tanhtoc := match kind with
    | .SumProduct => List.replicate (P.M * P.MAX_ROW) 0.0
    | .NormalizedMinSum _ => []
    | .OffsetMinSum _ => []
  min1 := List.replicate P.M 0.0
  min2 := List.replicate P.M 0.0
  idxMin1 := List.replicate P.M 0
  signXor := List.replicate P.M false
  zn := List.replicate P.N 0.0
  cw := List.replicate P.N 0
  zsum := []

def bpDecodeGenericKind (llr : List F) (apMask : Option (List Bool)) (maxIter : Nat)
    (verify : Option (List UInt8 → Bool)) (kind : BpKind F) : Option BpResult :=
  (bpRun P llr apMask maxIter verify kind (kindBuffers P kind)).1

def bpDecodeGenericKindWithScratch (s : BpScratch F F) (llr : List F) (apMask : Option (List Bool))
    (maxIter : Nat) (verify : Option (List UInt8 → Bool)) (kind : BpKind F) :
    Option BpResult × BpScratch F F :=
  let s := s.reset
  let s := match kind with
    | .SumProduct => s.ensureTanhtoc P
    | .NormalizedMinSum _ => s
    | .OffsetMinSum _ => s
  bpRun P llr apMask maxIter verify kind s

end Kind

section Zsum
variable {F : Type} [F32 F] (P : LdpcParams)

/-- One iteration of the running sum of estimates. -/
def zsumStep (llr : List F) (s : BpScratch F F) : BpScratch F F :=
  let zn := fill P.N (estimate llr s.tov) s.zn
  let s := { s with zn := zn, zsum := (s.zsum.zipIdx).map fun (z, i) => z + zn.getD i 0.0 }
  sumProductStep P (updateToc P s)

def zsumRun (llr : List F) (nIter : Nat) (s : BpScratch F F) : BpScratch F F :=
  (List.range (nIter + 1)).foldl (fun s _ => zsumStep P llr s)
    { s with toc := writeChecks P (fun j i => llr.getD (P.nm j i) 0.0) s.toc }

def bpLlrZsum (llr : List F) (nIter : Nat) : List F :=
  (zsumRun P llr nIter
    { kindBuffers P BpKind.SumProduct with zsum := List.replicate P.N 0.0 }).zsum

def bpLlrZsumWithScratch (s : BpScratch F F) (llr : List F) (nIter : Nat) : List F × BpScratch F F :=
  let s := zsumRun P llr nIter ((s.reset.ensureTanhtoc P).ensureZsum P)
  (s.zsum,s)

end Zsum

section Nms
variable {F T Wide : Type} [LlrScalar T Wide] [MulAlpha F T] (P : LdpcParams)

/-- A bit's estimate in the wide accumulator. -/
def wideEstimate (llr : List T) (apMask : Option (List Bool)) (tov : List T) (i : Nat) : Wide :=
  let own := LlrScalar.toWide (llr.getD i LlrScalar.zero)
  if apMask.any fun mm => mm.getD i false then own
  else (List.range NCW).foldl (fun sum k =>
    LlrScalar.wideAdd T sum (LlrScalar.toWide (tov.getD (i * NCW + k) LlrScalar.zero))) own

def wideDecide (llr : List T) (apMask : Option (List Bool)) (s : BpScratch T Wide) : BpScratch T Wide :=
  let zn := fill P.N (wideEstimate llr apMask s.tov) s.zn
  { s with
    zn := zn
    cw := fill P.N (fun i =>
      if LlrScalar.wideIsPositive T (zn.getD i (LlrScalar.wideZero T)) then 1 else 0) s.cw }

def wideToCheck (zn : List Wide) (tov : List T) (j i : Nat) : T :=
  let ibj := P.nm j i
  LlrScalar.fromWideSat ((List.range NCW).foldl (fun msg kk =>
    if (P.mn ibj).getD kk 0 = j then
      LlrScalar.wideSub T msg (LlrScalar.toWide (tov.getD (ibj * NCW + kk) LlrScalar.zero))
    else msg) (zn.getD ibj (LlrScalar.wideZero T)))

def wideUpdateToc (s : BpScratch T Wide) : BpScratch T Wide :=
  { s with toc := writeChecks P (wideToCheck P s.zn s.tov) s.toc }

def nmsLoop (llr : List T) (apMask : Option (List Bool)) (verify : Option (List UInt8 → Bool))
    (alpha : F) : Nat → Nat → Stall → BpScratch T Wide → Option BpResult × BpScratch T Wide
  | 0, _, _, s => (none,s)
  | left + 1, iter, stall, s =>
    let s := wideDecide P llr apMask s
    let stall := stall.next iter (P.ncheck s.cw)
    if acceptable P verify s.cw then
      (some (bpResult P (fun i => !LlrScalar.isNegative (llr.getD i LlrScalar.zero)) s.cw iter),s)
    else if stall.givesUp iter then (none,s)
    else nmsLoop llr apMask verify alpha left (iter + 1) stall
      (minSumStep P (fun mag => MulAlpha.mulAlpha mag alpha) (wideUpdateToc P s))

def bpDecodeGenericNmsWithScratch (s : BpScratch T Wide) (llr : List T) (apMask : Option (List Bool))
    (maxIter : Nat) (verify : Option (List UInt8 → Bool)) (alpha : F) :
    Option BpResult × BpScratch T Wide :=
  let s := s.reset
  nmsLoop P llr apMask verify alpha (maxIter + 1) 0 ⟨0,0⟩
    { s with toc := writeChecks P (fun j i => llr.getD (P.nm j i) LlrScalar.zero) s.toc }

def bpDecodeGenericNms (llr : List T) (apMask : Option (List Bool)) (maxIter : Nat)
    (verify : Option (List UInt8 → Bool)) (alpha : F) : Option BpResult :=
  (bpDecodeGenericNmsWithScratch P (BpScratch.new P) llr apMask maxIter verify alpha).1

end Nms

/-- The options the belief-propagation stage reads. -/
structure FecOpts (F : Type) where
  bpMaxIter : Nat
  apMask : Option (List UInt8 × List UInt8)
  apMagScale : F
  verifyInfo : Option (List UInt8 → Bool)
  bpKind : BpKind F

/-- The codecs that share the decoder; the trait of their parameters is sealed. -/
inductive LdpcCodec where
  | Ldpc174_91
  | Ldpc240_101
  | Ldpc128_90
  deriving DecidableEq

namespace LdpcCodec
variable {F : Type} [F32 F] (codec : LdpcCodec)

def params : LdpcCodec → LdpcParams
  | Ldpc174_91 => Ldpc174_91Params
  | Ldpc240_101 => Ldpc240_101Params
  | Ldpc128_90 => Ldpc128_90Params

/-- `FecCodec::encode`. -/
def encode (info : List UInt8) : List UInt8 := codec.params.ldpcEncodeGeneric info

/-- The strength of a locked bit against the strongest observation. MSK144's codec ignores the option. -/
def apScale (opts : FecOpts F) : F := match codec with
  | Ldpc128_90 => 1.01
  | Ldpc174_91 => opts.apMagScale
  | Ldpc240_101 => opts.apMagScale

/-- `prepare_ap_llr`: the observations with the hinted bits replaced, and which bits are locked. The lengths are asserted
first; no value is a panic. -/
def prepareApLlr (llr : List F) (opts : FecOpts F) : Option (List F × Option (List Bool)) :=
  if llr.length ≠ codec.params.N then none
  else match opts.apMask with
  | none => some (llr,none)
  | some (mask, values) =>
    if mask.length ≠ codec.params.N ∨ values.length ≠ codec.params.N then none
    else
      let apmag := (llr.map F32.abs).foldl F32.max 0.0 * codec.apScale opts
      let locked i := mask.getD i 0 != 0
      some (llr.mapIdx fun i x => if locked i then if values.getD i 0 ≠ 0 then apmag else -apmag else x,
        some ((List.range codec.params.N).map locked))

/-- The belief-propagation stage of `decode_soft`. -/
def bpStage (llr : List F) (opts : FecOpts F) : Option (Option BpResult) :=
  (codec.prepareApLlr llr opts).map fun (llr, apMask) =>
    bpDecodeGenericKind codec.params llr apMask opts.bpMaxIter opts.verifyInfo opts.bpKind

/-- The observations are those of a codeword, and so is the hint. -/
structure OverCodeword (llr : List F) (opts : FecOpts F) : Prop where
  llr : llr.length = codec.params.N
  hint : ∀ mask values, opts.apMask = some (mask,values) →
    mask.length = codec.params.N ∧ values.length = codec.params.N

variable {codec} {llr : List F} {opts : FecOpts F}

theorem prepareApLlr_unhinted (hllr : llr.length = codec.params.N) (hmask : opts.apMask = none) :
    codec.prepareApLlr llr opts = some (llr,none) := by
  rw [prepareApLlr,if_neg (not_not.2 hllr),hmask]

/-- The assertions are the only panics. -/
theorem prepareApLlr_isSome_iff : (codec.prepareApLlr llr opts).isSome ↔ codec.OverCodeword llr opts := by
  unfold prepareApLlr
  split
  · rename_i hllr
    exact iff_of_false Bool.false_ne_true fun h => hllr h.llr
  · rename_i hllr
    split
    · rename_i hmask
      exact iff_of_true rfl ⟨not_not.1 hllr,fun mask values h => by rw [hmask] at h; cases h⟩
    · rename_i mask values hmask
      split
      · rename_i hlen
        refine iff_of_false Bool.false_ne_true fun h => ?_
        obtain ⟨hm,hv⟩ := h.hint mask values hmask
        exact hlen.elim (fun h => h hm) fun h => h hv
      · rename_i hlen
        obtain ⟨hm,hv⟩ := not_or.1 hlen
        refine iff_of_true rfl ⟨not_not.1 hllr,fun mask' values' h => ?_⟩
        obtain ⟨rfl,rfl⟩ := Prod.mk.inj (Option.some.inj (hmask.symm.trans h))
        exact ⟨not_not.1 hm,not_not.1 hv⟩

end LdpcCodec

end MfskCore.Fec
