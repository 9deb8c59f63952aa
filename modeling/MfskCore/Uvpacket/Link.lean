import MfskCore.Uvpacket.FrameBits
import MfskCore.Uvpacket.Modem
import Mathlib.Analysis.SpecialFunctions.Trigonometric.DerivHyp

/-! A uvpacket frame over a carrier, from the bytes of the sender (`uvpacket/tx.rs`) to the bytes of the receiver
(`uvpacket/rx.rs`), behind the equalizer. -/
namespace MfskCore.Uvpacket
open Fec Library Rust

def HEADER_BLOCK_SYMS : Nat := N / 2

namespace Mode

def headerCode : Mode → UInt8
  | UltraRobust => 0
  | Robust => 1
  | Standard => 2
  | Express => 3

/-- Samples of a symbol. -/
def nsps : Mode → Nat
  | UltraRobust => 20
  | _ => 10

end Mode

section Definitions
variable {F : Type} [F32Trig F]

def SAMPLE_RATE_HZ : F := 12_000.0

/-- By the code of the mode. -/
def SNR_CALIBRATION_DB : List F := [-6.2,-3.0,-3.0,-3.4]

def computeSnr2500hz (stats : DiffStats F) (mode : Mode) : F :=
  let a := F32.max stats.aSqEst 1e-9
  let sigmaSq := F32.max stats.sigmaSqNDiff 1e-9
  let symbolSnr := 2.0 * a * a / sigmaSq
  if symbolSnr ≤ 1e-9 then -30.0
  else
    let baud := SAMPLE_RATE_HZ / ofUsize mode.nsps
    let bwCorrection := 10.0 * F32Trig.log10 (baud / 2500.0)
    let cal := SNR_CALIBRATION_DB.getD mode.headerCode.toNat 0.0
    F32.max (10.0 * F32Trig.log10 symbolSnr + bwCorrection + cal) (-30.0)

/-- The soft values of so many symbols of a stream behind the equalizer, from one of its differences on, with the
statistics of its preamble. No value is a panic. -/
def demodulate (equalised : List (Complex32 F)) (preambleBits : List Bool) (start nData : Nat) :
    Option (List F × DiffStats F) :=
  let rDiff := differential equalised
  ((checkedTake (PREAMBLE_LEN - 1) rDiff).bind (estimateDiffStats · preambleBits)).bind fun stats =>
    ((checkedDrop start rDiff).bind (computeLlrs · stats nData)).map (·,stats)

/-- What stands behind the equalizer: the preamble with the header, and with so many symbols of the payload too, or the
number of samples that they need. -/
structure Equalised (F : Type) where
  header : List (Complex32 F)
  full : Nat → Except Nat (List (Complex32 F))

/-- `decode_at_inner` from the equalizer to the soft values. -/
def demodulated (mode : Mode) (received : Equalised F) : Demodulated F where
  headerLlrs := (demodulate received.header (preambleFor mode) (PREAMBLE_LEN - 1) HEADER_BLOCK_SYMS).map Prod.fst
  payloadLlrs payloadSyms :=
    match received.full payloadSyms with
    | .error neededSamples => some (.error neededSamples)
    | .ok equalised =>
      (demodulate equalised (preambleFor mode) (PREAMBLE_LEN + HEADER_BLOCK_SYMS - 1) payloadSyms).map fun out =>
        .ok (out.1,computeSnr2500hz out.2 mode)

end Definitions

section Carrier
variable {preambleBits : List Bool} {bits : List UInt8} {n edge m : Nat} {gain : ℂ} {rho : Real}
  {symbols heard heard' : List (Complex32 Real)}

theorem length_lfsrSeven (taps : UInt8) (n : Nat) (state : UInt8) : (lfsrSeven taps n state).length = n := by
  induction n generalizing state with
  | zero => rfl
  | succ n ih => exact congrArg Nat.succ (ih _)

theorem length_preambleFor (mode : Mode) : (preambleFor mode).length = PREAMBLE_LEN := by
  cases mode with
  | UltraRobust => exact length_lfsrSeven _ _ _
  | Robust => exact length_lfsrSeven _ _ _
  | Standard => exact length_lfsrSeven _ _ _
  | Express => exact length_lfsrSeven _ _ _

theorem preambleFor_ne_nil (mode : Mode) : preambleFor mode ≠ [] :=
  List.ne_nil_of_length_pos ((length_preambleFor mode).symm ▸ by decide)

theorem toComplex_inj {z w : Complex32 Real} (h : toComplex z = toComplex w) : z = w :=
  congrArg₂ Complex32.mk (congrArg Complex.re h) (congrArg Complex.im h)

theorem Heard.take (h : Heard gain rho edge symbols heard) (m : Nat) : Heard gain rho edge symbols (heard.take m) := by
  have hcut {k : Nat} {z : Complex32 Real} (hz : (heard.take m)[k]? = some z) : heard[k]? = some z := by
    rw [List.getElem?_take] at hz
    split at hz
    · exact hz
    · exact absurd hz (by simp)
  refine ⟨?_,fun k hk z hz => h.early k hk z (hcut hz),fun k hk z s hz hs => h.late k hk z s (hcut hz) hs⟩
  rw [List.length_take]
  exact (Nat.min_le_right _ _).trans h.length

/-- Two streams on one carrier agree as far as both go. -/
theorem Heard.take_eq (h : Heard gain rho edge symbols heard) (h' : Heard gain rho edge symbols heard')
    (hm : m ≤ heard.length) (hm' : m ≤ heard'.length) : heard.take m = heard'.take m := by
  refine List.ext_getElem (by rw [List.length_take,List.length_take,Nat.min_eq_left hm,Nat.min_eq_left hm'])
    fun k hk _ => ?_
  rw [List.length_take,Nat.min_eq_left hm] at hk
  have hz := List.getElem?_eq_getElem (hk.trans_le hm)
  have hz' := List.getElem?_eq_getElem (hk.trans_le hm')
  rw [List.getElem_take,List.getElem_take]
  by_cases hedge : k < edge
  · exact toComplex_inj ((h.early k hedge _ hz).trans (h'.early k hedge _ hz').symm)
  · have hs := List.getElem?_eq_getElem (hk.trans_le (hm.trans h.length))
    exact toComplex_inj ((h.late k (Nat.not_lt.1 hedge) _ _ hz hs).trans (h'.late k (Nat.not_lt.1 hedge) _ _ hz' hs).symm)

theorem take_differential (heard : List (Complex32 Real)) (m : Nat) :
    (differential heard).take m = differential (heard.take (m + 1)) := by
  refine List.ext_getElem? fun k => ?_
  rw [List.getElem?_take,differential,differential,List.getElem?_zipWith,List.getElem?_zipWith,List.getElem?_tail,
    List.getElem?_tail,List.getElem?_take,List.getElem?_take]
  by_cases hk : k < m
  · rw [if_pos hk,if_pos (Nat.succ_lt_succ hk),if_pos (Nat.lt_succ_of_lt hk)]
  · rw [if_neg hk,if_neg (by omega)]

/-- A stretch of the data, where the statistics of the preamble are those of the carrier. -/
theorem demodulate_heard (hbits : IsBits n bits) (heven : n % 2 = 0) (hgain : gain ≠ 0)
    (hlength : preambleBits.length = PREAMBLE_LEN) (hedge : edge + 1 < PREAMBLE_LEN)
    (hsent : frameSymbols preambleBits bits = some symbols) (hheard : Heard gain rho edge symbols heard)
    {stats : DiffStats Real} (hof : stats.Of (spin gain rho))
    (hstats : estimateDiffStats ((differential heard).take (PREAMBLE_LEN - 1)) preambleBits = some stats) {o c : Nat}
    (hfits : PREAMBLE_LEN + o + c ≤ heard.length) :
    demodulate heard preambleBits (PREAMBLE_LEN - 1 + o) c = some
      (((bits.drop (2 * o)).take (2 * c)).map fun bit => antipodal (softStrength stats (spin gain rho)) (bit = 1),stats) := by
  have hllrs := computeLlrs_heard hbits heven hgain (hlength ▸ hedge) hsent hheard hof (o := o) (c := c) (hlength ▸ hfits)
  rw [hlength] at hllrs
  have htake : PREAMBLE_LEN - 1 ≤ (differential heard).length := by
    rw [length_differential]
    omega
  have hdrop : PREAMBLE_LEN - 1 + o ≤ (differential heard).length := by
    have hpos : 0 < PREAMBLE_LEN := by decide
    rw [length_differential]
    omega
  rw [demodulate,checkedTake_eq htake,checkedDrop_eq hdrop,Option.bind_some,hstats,Option.bind_some,Option.bind_some,hllrs]
  rfl

end Carrier

section Frames
variable {header : FrameHeader} {payload padded : List UInt8} {mode : Mode} {keep : List Nat} {nBlocks edge : Nat}
  {gain : ℂ} {rho : Real} {symbols : List (Complex32 Real)}

theorem keepsSide_tanh : KeepsSide Real.tanh := by
  constructor
  · intro x hx
    rw [Real.tanh_eq_sinh_div_cosh]
    exact div_nonneg (Real.sinh_nonneg_iff.2 hx) (Real.cosh_pos x).le
  · intro x hx
    rw [Real.tanh_eq_sinh_div_cosh]
    exact div_nonpos_of_nonpos_of_nonneg (Real.sinh_nonpos_iff.2 hx) (Real.cosh_pos x).le

theorem keepsSide_artanh : KeepsSide Real.artanh := ⟨fun _ => Real.artanh_nonneg,fun _ => Real.artanh_nonpos⟩

theorem chBitsPerBlock_even (mode : Mode) : mode.chBitsPerBlock % 2 = 0 := by
  cases mode with
  | UltraRobust => rfl
  | Robust => rfl
  | Standard => rfl
  | Express => rfl

theorem isBits_sentPayload (hkeeps : Keeps mode keep) (hlength : padded.length = nBlocks * INFO_BYTES_PER_BLOCK) :
    IsBits (nBlocks * mode.chBitsPerBlock) (sentPayload mode keep nBlocks padded) := by
  have hblocks : IsBits (nBlocks * mode.chBitsPerBlock)
      ((List.range nBlocks).flatMap fun k => sentBlock keep (payloadChunk padded k)) := by
    refine ⟨length_flatMap_sentBlock hkeeps _ _,fun b hb => ?_⟩
    obtain ⟨k,hk,hb⟩ := List.mem_flatMap.1 hb
    obtain ⟨i,-,rfl⟩ := List.mem_map.1 hb
    have hchunk := isBits_infoBits (length_payloadChunk hlength (List.mem_range.1 hk))
    exact (isBits_encode (LdpcCodec.consistent .Ldpc240_101).size hchunk).getD_lt i
  refine ⟨length_sentPayload,fun b hb => ?_⟩
  obtain ⟨p,-,rfl⟩ := List.mem_map.1 hb
  exact hblocks.getD_lt p

/-- A stream on one carrier, cut behind the header, and whole. -/
structure OnCarrier (gain : ℂ) (rho : Real) (edge : Nat) (symbols : List (Complex32 Real)) (received : Equalised Real) :
    Prop where
  header : Heard gain rho edge symbols received.header
  header_length : received.header.length = PREAMBLE_LEN + HEADER_BLOCK_SYMS
  full : ∃ full, received.full (symbols.length - (PREAMBLE_LEN + HEADER_BLOCK_SYMS)) = .ok full ∧
    Heard gain rho edge symbols full ∧ full.length = symbols.length

/-- The receiver hears every bit of a frame on one carrier as strong as the others. -/
theorem demodulated_onCarrier {bits : List UInt8} {n : Nat} (hbits : IsBits (N + n) bits) (heven : n % 2 = 0)
    (hgain : gain ≠ 0) (hedge : edge + 1 < PREAMBLE_LEN) (hsent : frameSymbols (preambleFor mode) bits = some symbols)
    {received : Equalised Real} (h : OnCarrier gain rho edge symbols received) :
    ∃ stats : DiffStats Real, stats.Of (spin gain rho) ∧
      HeardExactly (fun bit => antipodal (softStrength stats (spin gain rho)) (bit = 1)) bits
        (computeSnr2500hz stats mode) (demodulated mode received) := by
  have hpre : (preambleFor mode).length = PREAMBLE_LEN := length_preambleFor mode
  have hN : N = 2 * HEADER_BLOCK_SYMS := rfl
  have hall : (N + n) % 2 = 0 := by omega
  obtain ⟨hlen,-⟩ := steps_of_frameSymbols hsent (preambleFor_ne_nil mode) hbits hall
  have hsyms : symbols.length - (PREAMBLE_LEN + HEADER_BLOCK_SYMS) = n / 2 := by omega
  obtain ⟨hheader,hheaderLength,full,hfull,hheard,hfullLength⟩ := h
  obtain ⟨stats,hstats,hof⟩ := estimateDiffStats_heard hbits hall hgain (hpre ▸ hedge) hsent hheader (by omega)
  rw [hpre] at hstats
  -- The statistics are estimated again, on the same preamble.
  have hstats' : estimateDiffStats ((differential full).take (PREAMBLE_LEN - 1)) (preambleFor mode) = some stats := by
    have heq := hheard.take_eq hheader (m := PREAMBLE_LEN - 1 + 1) (by omega) (by omega)
    rwa [take_differential,heq,← take_differential]
  refine ⟨stats,hof,?_,?_⟩
  · have hsoft := demodulate_heard hbits hall hgain hpre hedge hsent hheader hof hstats (o := 0) (c := HEADER_BLOCK_SYMS)
      (by omega)
    rw [Nat.mul_zero,List.drop_zero,Nat.add_zero] at hsoft
    rw [demodulated,hsoft]
    rfl
  · have hsoft := demodulate_heard hbits hall hgain hpre hedge hsent hheard hof hstats' (o := HEADER_BLOCK_SYMS)
      (c := n / 2) (by omega)
    have hsyms' : (bits.length - N) / 2 = n / 2 := by rw [hbits.1,Nat.add_sub_cancel_left]
    have hdata : (bits.drop (2 * HEADER_BLOCK_SYMS)).take (2 * (n / 2)) = bits.drop N := by
      refine List.take_of_length_le ?_
      rw [List.length_drop,hbits.1]
      omega
    rw [hdata] at hsoft
    rw [demodulated,hsyms']
    dsimp only
    rw [← hsyms,hfull]
    dsimp only
    rw [hsyms]
    exact congrArg (Option.map _) hsoft

end Frames

end MfskCore.Uvpacket
