import MfskCore.Fec.LdpcNoiseFree
import MfskCore.Rust.ExactF32
import MfskCore.Uvpacket.Puncture
import Mathlib.Data.Bool.AllAny

/-! The modem of uvpacket from the channel bits to the soft values (`uvpacket/tx.rs`, `uvpacket/rx.rs`,
`uvpacket/sync_pattern.rs`): differential phases behind a known preamble. -/
namespace MfskCore.Uvpacket
open Fec Rust Library

def PREAMBLE_LEN : Nat := 127

/-- `count_ones() & 1`. -/
def onesParity (x : UInt8) : UInt8 := UInt8.ofNat ((List.range 8).countP (fun i => x.toNat.testBit i) % 2)

def lfsrSeven (taps : UInt8) : Nat → UInt8 → List Bool
  | 0, _ => []
  | n + 1, state => (state &&& 1 != 0) :: lfsrSeven taps n (state >>> 1 ||| onesParity (state &&& taps) <<< 6)

def preambleFor : Mode → List Bool
  | .UltraRobust => lfsrSeven 0b1000001 PREAMBLE_LEN 1
  | .Robust => lfsrSeven 0b0001001 PREAMBLE_LEN 1
  | .Standard => lfsrSeven 0b0000011 PREAMBLE_LEN 1
  | .Express => lfsrSeven 0b0011101 PREAMBLE_LEN 1

section Definitions
variable {F : Type} [F32Trig F]

/-- The phases by the pair of bits. -/
def PI4_DQPSK_DELTA : List F := [F32Trig.pi / 4.0,3.0 * F32Trig.pi / 4.0,-F32Trig.pi / 4.0,-3.0 * F32Trig.pi / 4.0]

def dqpskDeltas (dataBits : List UInt8) : Option (List F) :=
  (List.range (dataBits.length / 2)).mapM fun symIdx =>
    (dataBits[symIdx * 2]?).bind fun b1 => (dataBits[symIdx * 2 + 1]?).bind fun b0 =>
      PI4_DQPSK_DELTA[((b1 <<< 1) ||| b0).toNat]?

def chipSign (b : Bool) : F := if b then -1.0 else 1.0

def chip (b : Bool) : Complex32 F := ⟨chipSign b,0.0⟩

/-- Every symbol is the one before, turned. -/
def turned (prev : Complex32 F) : List F → List (Complex32 F)
  | [] => []
  | delta :: deltas => prev.mul (.fromPolar 1.0 delta) :: turned (prev.mul (.fromPolar 1.0 delta)) deltas

/-- The symbol stream: the preamble and the data. -/
def frameSymbols (preambleBits : List Bool) (dataBits : List UInt8) : Option (List (Complex32 F)) :=
  (dqpskDeltas dataBits).bind fun deltas => (preambleBits.map chip).getLast?.map fun prev =>
    preambleBits.map chip ++ turned prev deltas

def differential (equalised : List (Complex32 F)) : List (Complex32 F) :=
  List.zipWith (fun later earlier => later.mul earlier.conj) equalised.tail equalised

structure DiffStats (F : Type) where
  aSqEst : F
  sigmaSqNDiff : F
  residualRotation : F

/-- A chip times the one before. -/
def chipProducts (preambleBits : List Bool) : List F :=
  List.zipWith (fun bk bkm1 => chipSign bk * chipSign bkm1) preambleBits.tail preambleBits

/-- A preamble that is too short is read out of range. -/
def estimateDiffStats (rDiffPreamble : List (Complex32 F)) (preambleBits : List Bool) : Option (DiffStats F) :=
  if rDiffPreamble.length > (chipProducts preambleBits : List F).length then none
  else
    let pairs := rDiffPreamble.zip (chipProducts preambleBits)
    let count : F := ofUsize (max rDiffPreamble.length 1)
    let signedAcc := pairs.foldl (fun acc p => acc.add (p.1.scale p.2)) Complex32.zero
    let signedMean := signedAcc.unscale count
    let derotResid : Complex32 F := .fromPolar 1.0 (-signedMean.arg)
    let noiseImSq := pairs.foldl (fun noise p =>
      noise + ((p.1.scale p.2).mul derotResid).im * ((p.1.scale p.2).mul derotResid).im) 0.0
    some ⟨F32.max signedMean.norm 1e-6,F32.max (noiseImSq / count) 1e-6,signedMean.arg⟩

def qpskLlrs (r : Complex32 F) : F × F := (-(r.re + r.im),F32.max r.im (-r.re) - F32.max r.re (-r.im))

def computeLlrs (rDiff : List (Complex32 F)) (stats : DiffStats F) (nData : Nat) : Option (List F) :=
  let llrScale := stats.aSqEst / stats.sigmaSqNDiff
  let combinedRotate : Complex32 F := .fromPolar 1.0 (-stats.residualRotation - F32Trig.pi / 4.0)
  ((List.range nData).mapM fun k => (rDiff[k]?).map fun r =>
    [(qpskLlrs (r.mul combinedRotate)).1 * llrScale,(qpskLlrs (r.mul combinedRotate)).2 * llrScale]).map List.flatten

/-- The soft values of a symbol before they are scaled. -/
def softPair (rDiff : List (Complex32 F)) (stats : DiffStats F) (k : Nat) : F × F :=
  qpskLlrs ((rDiff.getD k .zero).mul (.fromPolar 1.0 (-stats.residualRotation - F32Trig.pi / 4.0)))

/-- Two soft values for every symbol. -/
theorem computeLlrs_eq (stats : DiffStats F) {rDiff : List (Complex32 F)} {c : Nat} (hc : c ≤ rDiff.length) :
    computeLlrs rDiff stats c = some ((List.range (c * 2)).map fun i =>
      (if i % 2 = 0 then (softPair rDiff stats (i / 2)).1 else (softPair rDiff stats (i / 2)).2) *
        (stats.aSqEst / stats.sigmaSqNDiff)) := by
  have hpairs : ∀ f : Complex32 F → List F, (List.range c).mapM (fun k => (rDiff[k]?).map f) =
      some ((List.range c).map fun k => f (rDiff.getD k .zero)) := by
    intro f
    refine mapM_eq_some fun k hk => ?_
    rw [getElem?_eq_some_getD (Nat.lt_of_lt_of_le (List.mem_range.1 hk) hc) .zero,Option.map_some]
  rw [computeLlrs,hpairs,map_range_mul,Option.map_some,List.flatMap_def]
  refine congrArg some (congrArg List.flatten (List.map_congr_left fun k _ => ?_))
  have h0 : (k * 2 + 0) % 2 = 0 ∧ (k * 2 + 0) / 2 = k := by omega
  have h1 : (k * 2 + 1) % 2 = 1 ∧ (k * 2 + 1) / 2 = k := by omega
  show [(softPair rDiff stats k).1 * _,(softPair rDiff stats k).2 * _] =
    [(if (k * 2 + 0) % 2 = 0 then _ else _) * _,(if (k * 2 + 1) % 2 = 0 then _ else _) * _]
  rw [h0.1,h0.2,h1.1,h1.2,if_pos rfl,if_neg Nat.one_ne_zero]

end Definitions

section Stream
variable {preambleBits : List Bool} {bits : List UInt8} {n : Nat}

/-- The phase of a pair of bits. -/
noncomputable def deltaAt (bits : List UInt8) (j : Nat) : Real :=
  PI4_DQPSK_DELTA.getD ((bits.getD (j * 2) 0 <<< 1) ||| bits.getD (j * 2 + 1) 0).toNat 0

theorem pair_lt {b1 b0 : UInt8} (h1 : b1 < 2) (h0 : b0 < 2) : ((b1 <<< 1) ||| b0).toNat < 4 := by
  have h1' : b1.toNat < 2 := h1
  have h0' : b0.toNat < 2 := h0
  rw [UInt8.toNat_or,UInt8.toNat_shiftLeft]
  refine Nat.or_lt_two_pow (n := 2) ?_ (by omega)
  show b1.toNat <<< 1 % 2^8 < 2^2
  rw [Nat.shiftLeft_eq]
  omega

theorem dqpskDeltas_eq (hbits : IsBits n bits) (heven : n % 2 = 0) :
    dqpskDeltas bits = some ((List.range (n / 2)).map (deltaAt bits)) := by
  rw [dqpskDeltas,hbits.1]
  refine mapM_eq_some fun j hj => ?_
  have hj := List.mem_range.1 hj
  have hlen := hbits.1
  have hpair := pair_lt (hbits.getD_lt (j * 2)) (hbits.getD_lt (j * 2 + 1))
  rw [getElem?_eq_some_getD (by omega : j * 2 < bits.length) 0,Option.bind_some,
    getElem?_eq_some_getD (by omega : j * 2 + 1 < bits.length) 0,Option.bind_some]
  exact getElem?_eq_some_getD (l := (PI4_DQPSK_DELTA : List Real)) hpair 0

/-- Every symbol of the data is the one before, turned by its phase, and as strong. -/
theorem turned_step (prev : Complex32 Real) (deltas : List Real) {j : Nat} (hj : j < deltas.length) :
    ∃ a, (prev :: turned prev deltas)[j]? = some a ∧
      (turned prev deltas)[j]? = some (a.mul (.fromPolar 1.0 (deltas.getD j 0))) ∧ ‖toComplex a‖ = ‖toComplex prev‖ := by
  induction deltas generalizing prev j with
  | nil => exact absurd hj (Nat.not_lt_zero j)
  | cons delta deltas ih =>
    cases j with
    | zero => exact ⟨prev,rfl,rfl,rfl⟩
    | succ j =>
      obtain ⟨a,hprev,hnext,hnorm⟩ := ih (prev.mul (.fromPolar 1.0 delta)) (Nat.lt_of_succ_lt_succ hj)
      refine ⟨a,hprev,hnext,hnorm.trans ?_⟩
      rw [toComplex_mul,toComplex_fromPolar,norm_mul,norm_mul,Complex.norm_exp_ofReal_mul_I,mul_one]
      norm_num

theorem length_turned (prev : Complex32 Real) (deltas : List Real) : (turned prev deltas).length = deltas.length := by
  induction deltas generalizing prev with
  | nil => rfl
  | cons delta deltas ih => exact congrArg Nat.succ (ih _)

theorem toComplex_chip (b : Bool) : toComplex (chip b) = ((chipSign b : Real) : ℂ) :=
  Complex.ext rfl zero_literal

theorem chipSign_mul_self (b : Bool) : (chipSign b : Real) * chipSign b = 1 := by
  cases b with
  | false => norm_num [chipSign]
  | true => norm_num [chipSign]

/-- What a symbol is to the one before: the product of two chips, or the phase of a pair of bits. -/
noncomputable def stepAt (preambleBits : List Bool) (bits : List UInt8) (k : Nat) : ℂ :=
  if k + 1 < preambleBits.length then (((chipProducts preambleBits : List Real).getD k 0 : Real) : ℂ)
  else Complex.exp (deltaAt bits (k + 1 - preambleBits.length) * Complex.I)

theorem frameSymbols_steps (hpre : preambleBits ≠ []) (hbits : IsBits n bits) (heven : n % 2 = 0) :
    ∃ symbols, frameSymbols preambleBits bits = some symbols ∧ symbols.length = preambleBits.length + n / 2 ∧
      ∀ k a b, symbols[k]? = some a → symbols[k + 1]? = some b →
        toComplex b * starRingEnd ℂ (toComplex a) = stepAt preambleBits bits k := by
  obtain ⟨front,last,rfl⟩ : ∃ front last, preambleBits = front ++ [last] :=
    ⟨_,_,(List.dropLast_append_getLast hpre).symm⟩
  have hdeltas := dqpskDeltas_eq hbits heven
  have hlen : (turned (chip last) ((List.range (n / 2)).map (deltaAt bits))).length = n / 2 := by
    rw [length_turned,List.length_map,List.length_range]
  refine ⟨(front ++ [last]).map chip ++ turned (chip last) ((List.range (n / 2)).map (deltaAt bits)),?_,?_,?_⟩
  · rw [frameSymbols,hdeltas,Option.bind_some,List.map_append,List.map_singleton,List.getLast?_append]
    rfl
  · rw [List.length_append,List.length_map,hlen]
  · intro k a b ha hb
    rw [stepAt,List.length_append,List.length_singleton]
    by_cases hk : k < front.length
    · -- Two chips.
      have hk' : k + 1 < (front ++ [last]).length := by simpa using hk
      have hk0 : k < (front ++ [last]).length := Nat.lt_of_succ_lt hk'
      rw [if_pos (Nat.succ_lt_succ hk)]
      rw [List.getElem?_append_left (by rwa [List.length_map]),List.getElem?_map,List.getElem?_eq_getElem hk0] at ha
      rw [List.getElem?_append_left (by rwa [List.length_map]),List.getElem?_map,List.getElem?_eq_getElem hk'] at hb
      obtain rfl := Option.some.inj ha
      obtain rfl := Option.some.inj hb
      have hproduct : (chipProducts (front ++ [last]) : List Real).getD k 0 =
          chipSign (front ++ [last])[k + 1] * chipSign (front ++ [last])[k] := by
        rw [chipProducts,List.getD_eq_getElem _ _ (by simp; omega),List.getElem_zipWith,List.getElem_tail]
      rw [toComplex_chip,toComplex_chip,Complex.conj_ofReal,hproduct,Complex.ofReal_mul]
    · -- The last chip or a symbol of the data, and the next one.
      rw [if_neg (by omega),Nat.add_sub_add_right]
      have hsplit : (front ++ [last]).map chip ++ turned (chip last) ((List.range (n / 2)).map (deltaAt bits)) =
          front.map chip ++ (chip last :: turned (chip last) ((List.range (n / 2)).map (deltaAt bits))) := by
        rw [List.map_append,List.append_assoc]
        rfl
      have hfront : (front.map (chip (F := Real))).length = front.length := List.length_map _
      rw [hsplit,List.getElem?_append_right (by omega),hfront] at ha hb
      rw [Nat.sub_add_comm (Nat.not_lt.1 hk),List.getElem?_cons_succ] at hb
      have hj : k - front.length < ((List.range (n / 2)).map (deltaAt bits)).length := by
        obtain ⟨hlt,-⟩ := List.getElem?_eq_some_iff.1 hb
        rwa [length_turned] at hlt
      obtain ⟨c,hc,hnext,hnorm⟩ := turned_step (chip last) _ hj
      obtain rfl := Option.some.inj (hc.symm.trans ha)
      obtain rfl := Option.some.inj (hnext.symm.trans hb)
      have hdelta : ((List.range (n / 2)).map (deltaAt bits)).getD (k - front.length) 0 = deltaAt bits (k - front.length) := by
        rw [List.length_map,List.length_range] at hj
        rw [getD_map_range _ _ hj]
      have hone : ‖toComplex (chip last)‖ = 1 := by
        have hself := chipSign_mul_self last
        rw [toComplex_chip,Complex.norm_real,Real.norm_eq_abs,← Real.sqrt_mul_self_eq_abs,hself,Real.sqrt_one]
      rw [toComplex_mul,toComplex_fromPolar,hdelta,mul_right_comm,Complex.mul_conj,Complex.normSq_eq_norm_sq,hnorm,hone]
      norm_num

/-- The same of any stream that was sent. -/
theorem steps_of_frameSymbols {symbols : List (Complex32 Real)} (hsent : frameSymbols preambleBits bits = some symbols)
    (hpre : preambleBits ≠ []) (hbits : IsBits n bits) (heven : n % 2 = 0) :
    symbols.length = preambleBits.length + n / 2 ∧ ∀ k a b, symbols[k]? = some a → symbols[k + 1]? = some b →
      toComplex b * starRingEnd ℂ (toComplex a) = stepAt preambleBits bits k := by
  obtain ⟨symbols',hsent',hsteps⟩ := frameSymbols_steps hpre hbits heven
  obtain rfl := Option.some.inj (hsent'.symm.trans hsent)
  exact hsteps

end Stream

section Receive
variable {preambleBits : List Bool} {gain : ℂ} {rho : Real} {edge : Nat} {symbols heard : List (Complex32 Real)}

/-- A stream on a steady carrier behind the equalizer: nothing at the edge, and then every symbol as strong as the one before,
its phase advanced by the same angle. -/
structure Heard (gain : ℂ) (rho : Real) (edge : Nat) (symbols heard : List (Complex32 Real)) : Prop where
  length : heard.length ≤ symbols.length
  early : ∀ k < edge, ∀ z, heard[k]? = some z → toComplex z = 0
  late : ∀ k, edge ≤ k → ∀ z s, heard[k]? = some z → symbols[k]? = some s →
    toComplex z = gain * Complex.exp ((rho * k : Real) * Complex.I) * toComplex s

/-- The strength and the turn of the carrier from one symbol to the next. -/
noncomputable def spin (gain : ℂ) (rho : Real) : ℂ := (Complex.normSq gain : Real) * Complex.exp (rho * Complex.I)

theorem getElem?_differential {k : Nat} {a b : Complex32 Real} (ha : heard[k]? = some a) (hb : heard[k + 1]? = some b) :
    (differential heard)[k]? = some (b.mul a.conj) := by
  rw [differential,List.getElem?_zipWith,List.getElem?_tail,ha,hb]

theorem length_differential (heard : List (Complex32 Real)) : (differential heard).length = heard.length - 1 := by
  rw [differential,List.length_zipWith,List.length_tail]
  omega

/-- The phase of the carrier drops out of a difference, up to its turn. -/
theorem Heard.difference (h : Heard gain rho edge symbols heard) {step : Nat → ℂ}
    (hsteps : ∀ k a b, symbols[k]? = some a → symbols[k + 1]? = some b → toComplex b * starRingEnd ℂ (toComplex a) = step k)
    {k : Nat} (hk : k + 1 < heard.length) : ∃ d, (differential heard)[k]? = some d ∧
      toComplex d = if k < edge then 0 else spin gain rho * step k := by
  have hlen := h.length
  have hk0 : k < heard.length := Nat.lt_of_succ_lt hk
  have ha := List.getElem?_eq_getElem hk0
  have hb := List.getElem?_eq_getElem hk
  refine ⟨_,getElem?_differential ha hb,?_⟩
  rw [toComplex_mul,toComplex_conj]
  by_cases hedge : k < edge
  · rw [if_pos hedge,h.early k hedge _ ha,map_zero,mul_zero]
  · have hsa := List.getElem?_eq_getElem (Nat.lt_of_lt_of_le hk0 hlen)
    have hsb := List.getElem?_eq_getElem (Nat.lt_of_lt_of_le hk hlen)
    have hturn : Complex.exp ((rho * (k + 1 : Nat) : Real) * Complex.I) *
        starRingEnd ℂ (Complex.exp ((rho * k : Real) * Complex.I)) = Complex.exp (rho * Complex.I) := by
      rw [← Complex.exp_conj,map_mul,Complex.conj_ofReal,Complex.conj_I,← Complex.exp_add]
      congr 1
      push_cast
      ring
    rw [if_neg hedge,h.late k (Nat.not_lt.1 hedge) _ _ ha hsa,h.late (k + 1) (by omega) _ _ hb hsb,← hsteps k _ _ hsa hsb,
      spin,← hturn,Complex.normSq_eq_conj_mul_self,map_mul,map_mul]
    ring

theorem chipProducts_mul_self {k : Nat} (hk : k + 1 < preambleBits.length) :
    (chipProducts preambleBits : List Real).getD k 0 * (chipProducts preambleBits : List Real).getD k 0 = 1 := by
  rw [chipProducts,List.getD_eq_getElem _ _ (by simp; omega),List.getElem_zipWith,mul_mul_mul_comm,chipSign_mul_self,
    chipSign_mul_self,mul_one]

/-- The signed differences add up to a positive multiple of what they have in common. -/
theorem foldl_aligned {turn : ℂ} {pairs : List (Complex32 Real × Real)}
    (hpairs : ∀ p ∈ pairs, toComplex (p.1.scale p.2) = 0 ∨ toComplex (p.1.scale p.2) = turn) (acc : Complex32 Real) {t : Real}
    (hacc : toComplex acc = t * turn) : ∃ t', t ≤ t' ∧
      toComplex (pairs.foldl (fun acc p => acc.add (p.1.scale p.2)) acc) = t' * turn ∧
      ((∃ p ∈ pairs, toComplex (p.1.scale p.2) = turn) → turn ≠ 0 → t < t') := by
  induction pairs generalizing acc t with
  | nil => exact ⟨t,le_refl t,hacc,fun ⟨p,hp,_⟩ => absurd hp List.not_mem_nil⟩
  | cons p pairs ih =>
    have hrest : ∀ q ∈ pairs, _ := fun q hq => hpairs q (List.mem_cons_of_mem p hq)
    rcases hpairs p List.mem_cons_self with hzero | hturn
    · obtain ⟨t',hle,hsum,hlt⟩ := ih hrest (acc.add (p.1.scale p.2)) (t := t)
        (by rw [toComplex_add,hzero,hacc,add_zero])
      refine ⟨t',hle,hsum,fun ⟨q,hq,hqturn⟩ hne => hlt ?_ hne⟩
      rcases List.mem_cons.1 hq with rfl | hq
      · exact absurd (hqturn.symm.trans hzero) hne
      · exact ⟨q,hq,hqturn⟩
    · obtain ⟨t',hle,hsum,-⟩ := ih hrest (acc.add (p.1.scale p.2)) (t := t + 1)
        (by rw [toComplex_add,hturn,hacc,Complex.ofReal_add,Complex.ofReal_one,add_mul,one_mul])
      exact ⟨t',by linarith,hsum,fun _ _ => by linarith⟩

/-- A preamble on a steady carrier: its strength is positive, and its turn is the carrier's. -/
theorem estimateDiffStats_aligned {turn : ℂ} (hturn : turn ≠ 0) {rDiff : List (Complex32 Real)}
    (hlen : rDiff.length + 1 = preambleBits.length)
    (hdiff : ∀ k d, rDiff[k]? = some d →
      toComplex d = 0 ∨ toComplex d = turn * ((chipProducts preambleBits : List Real).getD k 0 : Real))
    (hsome : ∃ k d, rDiff[k]? = some d ∧ toComplex d = turn * ((chipProducts preambleBits : List Real).getD k 0 : Real)) :
    ∃ stats, estimateDiffStats rDiff preambleBits = some stats ∧ 0 < stats.aSqEst ∧ 0 < stats.sigmaSqNDiff ∧
      ‖turn‖ * Complex.exp (stats.residualRotation * Complex.I) = turn := by
  have hproducts : (chipProducts preambleBits : List Real).length = rDiff.length := by
    rw [chipProducts,List.length_zipWith,List.length_tail]
    omega
  have hsigned : ∀ k, k < rDiff.length → ∀ z, z = turn * ((chipProducts preambleBits : List Real).getD k 0 : Real) →
      z * ((chipProducts preambleBits : List Real).getD k 0 : Real) = turn := by
    rintro k hk z rfl
    rw [mul_assoc,← Complex.ofReal_mul,chipProducts_mul_self (by omega),Complex.ofReal_one,mul_one]
  have hpairs : ∀ p ∈ rDiff.zip (chipProducts preambleBits : List Real),
      toComplex (p.1.scale p.2) = 0 ∨ toComplex (p.1.scale p.2) = turn := by
    intro p hp
    obtain ⟨k,hk,rfl⟩ := List.getElem_of_mem hp
    have hk' : k < rDiff.length := by
      rw [List.length_zip] at hk
      omega
    rw [List.getElem_zip,toComplex_scale,← List.getD_eq_getElem (chipProducts preambleBits : List Real) 0]
    rcases hdiff k _ (List.getElem?_eq_getElem hk') with hzero | hstep
    · exact .inl (by rw [hzero,zero_mul])
    · exact .inr (hsigned k hk' _ hstep)
  have hexists : ∃ p ∈ rDiff.zip (chipProducts preambleBits : List Real), toComplex (p.1.scale p.2) = turn := by
    obtain ⟨k,d,hd,hstep⟩ := hsome
    obtain ⟨hk,rfl⟩ := List.getElem?_eq_some_iff.1 hd
    have hkp : k < (chipProducts preambleBits : List Real).length := hproducts.symm ▸ hk
    refine ⟨(rDiff[k],(chipProducts preambleBits : List Real)[k]),?_,?_⟩
    · rw [← List.getElem_zip (h := by rw [List.length_zip]; omega)]
      exact List.getElem_mem _
    · rw [toComplex_scale,← List.getD_eq_getElem (chipProducts preambleBits : List Real) 0]
      exact hsigned k hk _ hstep
  obtain ⟨t,-,hsum,hpos⟩ := foldl_aligned hpairs Complex32.zero (t := 0)
    (by rw [Complex.ofReal_zero,zero_mul,toComplex_zero])
  have ht := hpos hexists hturn
  have hcount : 0 < (ofUsize (max rDiff.length 1) : Real) := by
    rw [ofUsize_eq,Nat.cast_pos]
    exact Nat.lt_of_lt_of_le Nat.zero_lt_one (Nat.le_max_right _ 1)
  rw [estimateDiffStats,if_neg (by omega)]
  refine ⟨_,rfl,lt_max_of_lt_right (by norm_num),lt_max_of_lt_right (by norm_num),?_⟩
  dsimp only
  generalize (ofUsize (max rDiff.length 1) : Real) = count at hcount
  generalize List.foldl _ _ _ = sum at hsum
  have hmean : toComplex (sum.unscale count) = (t / count : Real) * turn := by
    rw [toComplex_unscale,hsum,Complex.ofReal_div]
    ring
  have hscale : 0 < t / count := div_pos ht hcount
  have hpolar := Complex.norm_mul_exp_arg_mul_I (toComplex (sum.unscale count))
  rw [← arg_eq,hmean,norm_mul,Complex.norm_real,Real.norm_of_nonneg hscale.le,Complex.ofReal_mul,mul_assoc] at hpolar
  exact mul_left_cancel₀ (Complex.ofReal_ne_zero.2 hscale.ne') hpolar

theorem re_im_of_polar {z : Complex32 Real} {r theta : Real} (h : toComplex z = r * Complex.exp (theta * Complex.I)) :
    z.re = r * Real.cos theta ∧ z.im = r * Real.sin theta := by
  constructor
  · rw [← Complex.exp_ofReal_mul_I_re,← Complex.re_ofReal_mul,← h]
    rfl
  · rw [← Complex.exp_ofReal_mul_I_im,← Complex.im_ofReal_mul,← h]
    rfl

theorem delta_values : (PI4_DQPSK_DELTA : List Real) = [Real.pi / 4,3 * Real.pi / 4,-Real.pi / 4,-3 * Real.pi / 4] := by
  show [Real.pi / (4.0 : Real),(3.0 : Real) * Real.pi / (4.0 : Real),-Real.pi / (4.0 : Real),
    (-3.0 : Real) * Real.pi / (4.0 : Real)] = _
  norm_num

/-- The soft values of a pair of bits, from the phase that was sent for them. -/
theorem qpskLlrs_eq {bits : List UInt8} {n j : Nat} (hbits : IsBits n bits) {r : Complex32 Real} {g : Real} (hg : 0 < g)
    (hr : toComplex r = g * Complex.exp ((deltaAt bits j - Real.pi / 4 : Real) * Complex.I)) :
    qpskLlrs r = (antipodal g (bits.getD (j * 2) 0 = 1),antipodal g (bits.getD (j * 2 + 1) 0 = 1)) := by
  obtain ⟨hre,him⟩ := re_im_of_polar hr
  have hllrs : qpskLlrs r = (-(r.re + r.im),max r.im (-r.re) - max r.re (-r.im)) := rfl
  have hb1 := bit_cases hbits (j * 2)
  have hb0 := bit_cases hbits (j * 2 + 1)
  rw [deltaAt,delta_values] at hre him
  rw [hllrs]
  generalize bits.getD (j * 2) 0 = b1 at *
  generalize bits.getD (j * 2 + 1) 0 = b0 at *
  have hzero : antipodal g ((0 : UInt8) = 1) = -g := if_neg (by decide)
  have hone : antipodal g ((1 : UInt8) = 1) = g := if_pos rfl
  rcases hb1 with rfl | rfl
  · rcases hb0 with rfl | rfl
    · replace hre : r.re = g * Real.cos (Real.pi / 4 - Real.pi / 4) := hre
      replace him : r.im = g * Real.sin (Real.pi / 4 - Real.pi / 4) := him
      rw [sub_self,Real.cos_zero,mul_one] at hre
      rw [sub_self,Real.sin_zero,mul_zero] at him
      rw [hre,him,neg_zero,max_eq_left (by linarith),max_eq_left hg.le,add_zero,zero_sub,hzero]
    · replace hre : r.re = g * Real.cos (3 * Real.pi / 4 - Real.pi / 4) := hre
      replace him : r.im = g * Real.sin (3 * Real.pi / 4 - Real.pi / 4) := him
      have htheta : 3 * Real.pi / 4 - Real.pi / 4 = Real.pi / 2 := by ring
      rw [htheta,Real.cos_pi_div_two,mul_zero] at hre
      rw [htheta,Real.sin_pi_div_two,mul_one] at him
      rw [hre,him,neg_zero,max_eq_left hg.le,max_eq_left (by linarith),zero_add,sub_zero,hzero,hone]
  · rcases hb0 with rfl | rfl
    · replace hre : r.re = g * Real.cos (-Real.pi / 4 - Real.pi / 4) := hre
      replace him : r.im = g * Real.sin (-Real.pi / 4 - Real.pi / 4) := him
      have htheta : -Real.pi / 4 - Real.pi / 4 = -(Real.pi / 2) := by ring
      rw [htheta,Real.cos_neg,Real.cos_pi_div_two,mul_zero] at hre
      rw [htheta,Real.sin_neg,Real.sin_pi_div_two,mul_neg,mul_one] at him
      rw [hre,him,neg_zero,neg_neg,max_eq_right (by linarith),max_eq_right hg.le,zero_add,neg_neg,zero_sub,hzero,hone]
    · replace hre : r.re = g * Real.cos (-3 * Real.pi / 4 - Real.pi / 4) := hre
      replace him : r.im = g * Real.sin (-3 * Real.pi / 4 - Real.pi / 4) := him
      have htheta : -3 * Real.pi / 4 - Real.pi / 4 = -Real.pi := by ring
      rw [htheta,Real.cos_neg,Real.cos_pi,mul_neg,mul_one] at hre
      rw [htheta,Real.sin_neg,Real.sin_pi,neg_zero,mul_zero] at him
      rw [hre,him,neg_zero,neg_neg,max_eq_right hg.le,max_eq_right (by linarith),add_zero,neg_neg,sub_zero,hone]

/-- Statistics that are those of a carrier with this turn. -/
structure DiffStats.Of (stats : DiffStats Real) (turn : ℂ) : Prop where
  strength : 0 < stats.aSqEst
  noise : 0 < stats.sigmaSqNDiff
  rotation : ‖turn‖ * Complex.exp (stats.residualRotation * Complex.I) = turn

/-- The strength of the soft values. -/
noncomputable def softStrength (stats : DiffStats Real) (turn : ℂ) : Real := ‖turn‖ * (stats.aSqEst / stats.sigmaSqNDiff)

theorem softStrength_pos {stats : DiffStats Real} {turn : ℂ} (h : stats.Of turn) (hturn : turn ≠ 0) :
    0 < softStrength stats turn := mul_pos (norm_pos_iff.2 hturn) (div_pos h.strength h.noise)

/-- Differences with the phases of the bits, on a carrier whose turn is known: soft values of one strength. -/
theorem computeLlrs_turned {bits : List UInt8} {n o c : Nat} (hbits : IsBits n bits) (hfits : 2 * o + 2 * c ≤ n) {turn : ℂ}
    (hturn : turn ≠ 0) {stats : DiffStats Real} (hstats : stats.Of turn) {rDiff : List (Complex32 Real)}
    (hdiff : ∀ k < c, ∃ d, rDiff[k]? = some d ∧ toComplex d = turn * Complex.exp (deltaAt bits (o + k) * Complex.I)) :
    computeLlrs rDiff stats c =
      some (((bits.drop (2 * o)).take (2 * c)).map fun bit => antipodal (softStrength stats turn) (bit = 1)) := by
  have hpair : ∀ k < c, softPair rDiff stats k =
      (antipodal ‖turn‖ (bits.getD ((o + k) * 2) 0 = 1),antipodal ‖turn‖ (bits.getD ((o + k) * 2 + 1) 0 = 1)) := by
    intro k hk
    obtain ⟨d,hd,hphase⟩ := hdiff k hk
    rw [softPair,List.getD_eq_getElem?_getD,hd,Option.getD_some]
    refine qpskLlrs_eq hbits (norm_pos_iff.2 hturn) ?_
    have hone : ((1.0 : Real) : ℂ) = 1 := by norm_num
    have hpi : (-stats.residualRotation - F32Trig.pi / 4.0 : Real) = -stats.residualRotation - Real.pi / 4 := by
      show (-stats.residualRotation - Real.pi / (4.0 : Real) : Real) = _
      norm_num
    -- The rotation takes out the turn of the carrier.
    have hunturn : turn * Complex.exp (-(stats.residualRotation * Complex.I)) = ‖turn‖ := by
      conv_lhs => rw [← hstats.rotation]
      rw [mul_assoc,← Complex.exp_add,add_neg_cancel,Complex.exp_zero,mul_one]
    rw [toComplex_mul,toComplex_fromPolar,hphase,hpi]
    show _ * (((1.0 : Real) : ℂ) * _) = _
    rw [hone,one_mul,← hunturn,mul_assoc,mul_assoc,← Complex.exp_add,← Complex.exp_add]
    congr 2
    push_cast
    ring
  have hc : c ≤ rDiff.length := by
    cases c with
    | zero => exact Nat.zero_le _
    | succ c =>
      obtain ⟨d,hd,-⟩ := hdiff c (Nat.lt_succ_self c)
      exact (List.getElem?_eq_some_iff.1 hd).1
  have hscaled (one : Prop) [Decidable one] : antipodal ‖turn‖ one * (stats.aSqEst / stats.sigmaSqNDiff) =
      antipodal (softStrength stats turn) one := by
    rw [antipodal,antipodal,softStrength]
    split
    · rfl
    · rw [neg_mul]
  have hlen := hbits.1
  rw [computeLlrs_eq stats hc]
  refine congrArg some (List.ext_getElem ?_ fun i hi hi' => ?_)
  · rw [List.length_map,List.length_range,List.length_map,List.length_take,List.length_drop]
    omega
  · rw [List.length_map,List.length_range] at hi
    have hlt : i < ((bits.drop (2 * o)).take (2 * c)).length := by rwa [List.length_map] at hi'
    have hbit : ((bits.drop (2 * o)).take (2 * c))[i] = bits.getD (2 * o + i) 0 := by
      rw [List.getElem_take,List.getElem_drop,List.getD_eq_getElem]
    rw [List.getElem_map,List.getElem_range,hpair (i / 2) (by omega),List.getElem_map,hbit]
    rcases Nat.mod_two_eq_zero_or_one i with heven | hodd
    · have hi : (o + i / 2) * 2 = 2 * o + i := by omega
      rw [if_pos heven,hscaled]
      simp only [hi]
    · have hi : (o + i / 2) * 2 + 1 = 2 * o + i := by omega
      rw [if_neg (by omega),hscaled]
      simp only [hi]

section Steady
variable {bits : List UInt8} {n : Nat}

theorem spin_ne_zero (hgain : gain ≠ 0) (rho : Real) : spin gain rho ≠ 0 :=
  mul_ne_zero (Complex.ofReal_ne_zero.2 (mt Complex.normSq_eq_zero.1 hgain)) (Complex.exp_ne_zero _)

variable (hbits : IsBits n bits) (heven : n % 2 = 0) (hgain : gain ≠ 0) (hedge : edge + 1 < preambleBits.length)
  (hsent : frameSymbols preambleBits bits = some symbols) (hheard : Heard gain rho edge symbols heard)
include hbits heven hgain hedge hsent hheard

/-- The preamble gives the statistics of the carrier. -/
theorem estimateDiffStats_heard (hlong : preambleBits.length ≤ heard.length) :
    ∃ stats, estimateDiffStats ((differential heard).take (preambleBits.length - 1)) preambleBits = some stats ∧
      stats.Of (spin gain rho) := by
  have hpre : preambleBits ≠ [] := List.ne_nil_of_length_pos (by omega)
  obtain ⟨-,hsteps⟩ := steps_of_frameSymbols hsent hpre hbits heven
  have hstep := fun k => hheard.difference hsteps (k := k)
  have hchip : ∀ k, k + 1 < preambleBits.length →
      stepAt preambleBits bits k = ((chipProducts preambleBits : List Real).getD k 0 : Real) := fun k hk => if_pos hk
  have hpairs : ((differential heard).take (preambleBits.length - 1)).length + 1 = preambleBits.length := by
    rw [List.length_take,length_differential]
    omega
  obtain ⟨stats,hstats,ha,hsigma,hrotation⟩ := estimateDiffStats_aligned (spin_ne_zero hgain rho) hpairs
    (by
      intro k d hd
      obtain ⟨hk,-⟩ := List.getElem?_eq_some_iff.1 hd
      rw [List.length_take,length_differential] at hk
      obtain ⟨d',hd',hvalue⟩ := hstep k (by omega)
      rw [List.getElem?_take_of_lt (by omega)] at hd
      obtain rfl := Option.some.inj (hd'.symm.trans hd)
      rw [hvalue,hchip k (by omega)]
      split
      · exact .inl rfl
      · exact .inr rfl)
    (by
      obtain ⟨d,hd,hvalue⟩ := hstep edge (by omega)
      rw [if_neg (Nat.lt_irrefl edge),hchip edge hedge] at hvalue
      exact ⟨edge,d,by rwa [List.getElem?_take_of_lt (by omega)],hvalue⟩)
  exact ⟨stats,hstats,ha,hsigma,hrotation⟩

/-- Any stretch of the data gives the soft values of its bits. -/
theorem computeLlrs_heard {stats : DiffStats Real} (hstats : stats.Of (spin gain rho)) {o c : Nat}
    (hfits : preambleBits.length + o + c ≤ heard.length) :
    computeLlrs ((differential heard).drop (preambleBits.length - 1 + o)) stats c =
      some (((bits.drop (2 * o)).take (2 * c)).map fun bit => antipodal (softStrength stats (spin gain rho)) (bit = 1)) := by
  have hpre : preambleBits ≠ [] := List.ne_nil_of_length_pos (by omega)
  obtain ⟨hlen,hsteps⟩ := steps_of_frameSymbols hsent hpre hbits heven
  have hlength := hheard.length
  refine computeLlrs_turned hbits (by omega) (spin_ne_zero hgain rho) hstats fun k hk => ?_
  obtain ⟨d,hd,hvalue⟩ := hheard.difference hsteps (k := preambleBits.length - 1 + o + k) (by omega)
  refine ⟨d,by rwa [List.getElem?_drop],?_⟩
  have hdata : stepAt preambleBits bits (preambleBits.length - 1 + o + k) =
      Complex.exp (deltaAt bits (o + k) * Complex.I) := by
    have hindex : preambleBits.length - 1 + o + k + 1 - preambleBits.length = o + k := by omega
    rw [stepAt,if_neg (by omega),hindex]
  rw [hvalue,if_neg (by omega),hdata]

end Steady

/-- The receiver hears the bits of a stream on a steady carrier: whatever its gain, phase and frequency are, the soft values of
any stretch of the data have the signs of its bits. -/
theorem modem_round_trip (preambleBits : List Bool) (bits : List UInt8) (n edge : Nat) (gain : ℂ) (rho : Real)
    (symbols heard : List (Complex32 Real)) (hbits : IsBits n bits) (heven : n % 2 = 0) (hgain : gain ≠ 0)
    (hedge : edge + 1 < preambleBits.length) (hsent : frameSymbols preambleBits bits = some symbols)
    (hheard : Heard gain rho edge symbols heard) (hlong : preambleBits.length ≤ heard.length) :
    ∃ stats, estimateDiffStats ((differential heard).take (preambleBits.length - 1)) preambleBits = some stats ∧
      ∀ o c, preambleBits.length + o + c ≤ heard.length →
        ∃ llrs, computeLlrs ((differential heard).drop (preambleBits.length - 1 + o)) stats c = some llrs ∧
          llrs.length = 2 * c ∧ ∀ i < 2 * c, Signed (bits.getD (2 * o + i) 0 = 1) (llrs.getD i 0) := by
  obtain ⟨stats,hstats,hof⟩ := estimateDiffStats_heard hbits heven hgain hedge hsent hheard hlong
  refine ⟨stats,hstats,fun o c hfits => ⟨_,computeLlrs_heard hbits heven hgain hedge hsent hheard hof hfits,?_⟩⟩
  have hpre : preambleBits ≠ [] := List.ne_nil_of_length_pos (by omega)
  obtain ⟨hsymbols,-⟩ := steps_of_frameSymbols hsent hpre hbits heven
  have hlength := hheard.length
  have hstretch : ((bits.drop (2 * o)).take (2 * c)).length = 2 * c := by
    rw [List.length_take,List.length_drop,hbits.1]
    omega
  refine ⟨(List.length_map _).trans hstretch,fun i hi => ?_⟩
  have hlt : 2 * o + i < bits.length := by
    rw [hbits.1]
    omega
  rw [List.getD_eq_getElem bits _ hlt,List.getD_eq_getElem _ _ (by rwa [List.length_map,hstretch]),List.getElem_map,
    List.getElem_take,List.getElem_drop]
  exact signed_antipodal (softStrength_pos hof (spin_ne_zero hgain rho)) _

/-- A steady carrier. -/
noncomputable def carried (gain : Complex32 Real) (rho : Real) (edge : Nat) (symbols : List (Complex32 Real)) :
    List (Complex32 Real) :=
  symbols.mapIdx fun k s => if k < edge then .zero else (gain.mul (.fromPolar 1 (rho * k))).mul s

theorem heard_carried (gain : Complex32 Real) (rho : Real) (edge : Nat) (symbols : List (Complex32 Real)) :
    Heard (toComplex gain) rho edge symbols (carried gain rho edge symbols) := by
  refine ⟨(List.length_mapIdx).le,fun k hk z hz => ?_,fun k hk z s hz hs => ?_⟩
  · rw [carried,List.getElem?_mapIdx] at hz
    obtain ⟨s,-,rfl⟩ := Option.map_eq_some_iff.1 hz
    rw [if_pos hk,toComplex_zero]
  · rw [carried,List.getElem?_mapIdx,hs] at hz
    obtain rfl := Option.some.inj hz
    dsimp only
    rw [if_neg (Nat.not_lt.2 hk),toComplex_mul,toComplex_mul,toComplex_fromPolar,Complex.ofReal_one,one_mul]

theorem modem_round_trip_four : ∃ symbols stats llrs, frameSymbols [false,true,true] [0,1,1,1] = some symbols ∧
    estimateDiffStats ((differential (carried ⟨0,2⟩ 1 1 symbols)).take 2) [false,true,true] = some stats ∧
    computeLlrs ((differential (carried ⟨0,2⟩ 1 1 symbols)).drop 2) stats 2 = some llrs ∧
    ∀ i < 4, Signed ([0,1,1,1].getD i 0 = (1 : UInt8)) (llrs.getD i 0) := by
  have hbits : IsBits 4 [0,1,1,1] := ⟨rfl,List.all_iff_forall_prop.1 rfl⟩
  have hpre : [false,true,true] ≠ [] := List.cons_ne_nil _ _
  obtain ⟨symbols,hsent,hlen,-⟩ := frameSymbols_steps hpre hbits rfl
  have hcarried : (carried ⟨0,2⟩ 1 1 symbols).length = 5 := List.length_mapIdx.trans hlen
  have hgain : toComplex ⟨0,2⟩ ≠ 0 := fun h => two_ne_zero (congrArg Complex.im h)
  obtain ⟨stats,hstats,hany⟩ := modem_round_trip [false,true,true] [0,1,1,1] 4 1 _ 1 symbols _ hbits rfl hgain
    (by decide) hsent (heard_carried ⟨0,2⟩ 1 1 symbols) (by rw [hcarried]; decide)
  obtain ⟨llrs,hllrs,-,hsigned⟩ := hany 0 2 hcarried.ge
  refine ⟨symbols,stats,llrs,hsent,hstats,hllrs,fun i hi => ?_⟩
  have h := hsigned i hi
  rwa [Nat.mul_zero,Nat.zero_add] at h

end Receive

end MfskCore.Uvpacket
