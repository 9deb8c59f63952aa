import MfskCore.Engine.FrameDecode
import MfskCore.Engine.SoftDemap
import MfskCore.Fec.LdpcNoiseFree

/-! From the tones of a message back to the message: in exact arithmetic a candidate decodes to what was sent wherever
the tone of every symbol is the strongest of that symbol. -/
namespace MfskCore.Engine
open Rust Fec Library

section Sync
variable {K S : Type} [Field K] [LinearOrder K] [IsStrictOrderedRing K] [ExactRoots K] {P : FrameParams}
  {toAmp : S → K × K} {cs : List S} {itone : List UInt8}

/-- The tone of a symbol is the strongest there. -/
def ToneClear (P : FrameParams) (toAmp : S → K × K) (cs : List S) (itone : List UInt8) (sym : Nat) : Prop :=
  ∀ a < P.NTONES, a ≠ (itone.getD sym 0).toNat →
    normSqrWide (symbolAmp P toAmp cs sym a) < normSqrWide (symbolAmp P toAmp cs sym (itone.getD sym 0).toNat)

omit [IsStrictOrderedRing K] in
theorem dominantTone_of_clear (h : P.Valid) (hcs : cs.length = P.N_SYMBOLS * P.NTONES) {sym : Nat}
    (hsym : sym < P.N_SYMBOLS) (htone : (itone.getD sym 0).toNat < P.NTONES) (hclear : ToneClear P toAmp cs itone sym) :
    dominantTone P toAmp cs sym = some (itone.getD sym 0).toNat := by
  obtain ⟨t,ht⟩ : ∃ t, t = (itone.getD sym 0).toNat := ⟨_,rfl⟩
  have hin {a : Nat} (ha : a < P.NTONES) : ∃ z, cs[sym * P.NTONES + a]? = some z ∧ toAmp z = symbolAmp P toAmp cs sym a := by
    have hlt := List.getElem?_eq_getElem (hcs ▸ rowMajor_lt hsym ha)
    exact ⟨_,hlt,by rw [symbolAmp,hlt]; rfl⟩
  rw [ToneClear,← ht] at hclear
  rw [← ht] at htone ⊢
  have hone := one_lt_tones h
  obtain ⟨first,hfirst,hamp⟩ := hin (by omega : 0 < P.NTONES)
  rw [Nat.add_zero] at hfirst
  -- After some tones the best of them is held, and it is the sent one from there on.
  have hrun : ∀ n < P.NTONES, ∃ best, (List.range' 1 n).foldlM (fun (best : Nat × K) a =>
      (cs[sym * P.NTONES + a]?).map fun z =>
        if normSqrWide (toAmp z) > best.2 then (a,normSqrWide (toAmp z)) else best) (0,normSqrWide (toAmp first)) =
      some (best,normSqrWide (symbolAmp P toAmp cs sym best)) ∧ best ≤ n ∧ (t ≤ n → best = t) := by
    intro n
    induction n with
    | zero => exact fun _ => ⟨0,by rw [hamp]; rfl,Nat.le_refl 0,fun h0 => (Nat.le_zero.1 h0).symm⟩
    | succ n ih =>
      intro hn
      obtain ⟨best,hbest,hle,hheld⟩ := ih (by omega)
      obtain ⟨z,hz,hzamp⟩ := hin hn
      rw [List.range'_concat,List.foldlM_append,hbest,Option.bind_eq_bind,Option.bind_some,List.foldlM_cons,
        Nat.one_mul,Nat.add_comm 1 n,hz,Option.map_some,hzamp]
      by_cases hstronger : normSqrWide (symbolAmp P toAmp cs sym (n + 1)) > normSqrWide (symbolAmp P toAmp cs sym best)
      · rw [if_pos hstronger]
        refine ⟨n + 1,rfl,Nat.le_refl _,fun htn => ?_⟩
        by_contra hne
        have hbt := hheld (by omega)
        rw [hbt] at hstronger
        exact absurd (hclear (n + 1) hn hne) (not_lt_of_gt hstronger)
      · rw [if_neg hstronger]
        refine ⟨best,rfl,by omega,fun htn => ?_⟩
        by_contra hne
        have htn' : t = n + 1 := by
          by_contra hnt
          exact hne (hheld (by omega))
        exact hstronger (htn' ▸ hclear best (by omega) hne)
  obtain ⟨best,hbest,-,hheld⟩ := hrun (P.NTONES - 1) (by omega)
  rw [dominantTone,hfirst,Option.bind_eq_bind,Option.bind_some,hbest,Option.bind_eq_bind,Option.bind_some,
    hheld (by omega)]
  rfl

omit [IsStrictOrderedRing K] in
/-- Where every sync tone is the strongest, every sync tone counts. -/
theorem syncQuality_of_clear (h : P.Valid) (hcs : cs.length = P.N_SYMBOLS * P.NTONES)
    (htones : ∀ b ∈ P.blocks, ∀ i c, b.pattern[i]? = some c → itone[b.startSymbol + i]? = some c ∧ c.toNat < P.NTONES)
    (hclear : ∀ sym ∈ P.syncSymbols, ToneClear P toAmp cs itone sym) :
    syncQuality P toAmp cs = some P.syncSymbols.length := by
  have hblock : ∀ b ∈ P.blocks, ∀ count : Nat, b.pattern.zipIdx.foldlM (fun count c =>
      (dominantTone P toAmp cs (b.startSymbol + c.2)).map fun best =>
        if best = c.1.toNat then count + 1 else count) count = some (count + b.pattern.length) := by
    intro b hb count
    have hstep : ∀ c ∈ b.pattern.zipIdx, ∀ count : Nat, ((dominantTone P toAmp cs (b.startSymbol + c.2)).map fun best =>
        if best = c.1.toNat then count + 1 else count) = some (count + 1) := by
      intro c hc count
      have hplace := List.mem_zipIdx_iff_getElem?.1 hc
      have hlt := (List.getElem?_eq_some_iff.1 hplace).1
      obtain ⟨htone,hrange⟩ := htones b hb c.2 c.1 hplace
      have hget : itone.getD (b.startSymbol + c.2) 0 = c.1 := by
        rw [List.getD_eq_getElem?_getD,htone,Option.getD_some]
      have hsym : b.startSymbol + c.2 ∈ P.syncSymbols :=
        List.mem_flatMap.2 ⟨b,hb,List.mem_range'_1.2 ⟨Nat.le_add_right _ _,Nat.add_lt_add_left hlt _⟩⟩
      have hend := h.inFrame b hb
      rw [dominantTone_of_clear h hcs (by omega) (by rwa [hget]) (hclear _ hsym),hget,Option.map_some,if_pos rfl]
    rw [foldlM_congr hstep]
    have hcount : ∀ (l : List (UInt8 × Nat)) (count : Nat),
        l.foldlM (fun (count : Nat) _ => some (count + 1)) count = some (count + l.length) := by
      intro l
      induction l with
      | nil => exact fun count => rfl
      | cons c l ih =>
        intro count
        rw [List.foldlM_cons,Option.bind_eq_bind,Option.bind_some,ih,List.length_cons,Nat.add_assoc,Nat.add_comm 1]
    rw [hcount,List.length_zipIdx]
  have hblocks : ∀ l : List SyncBlock, l ⊆ P.blocks → ∀ count : Nat, l.foldlM (fun count block =>
      block.pattern.zipIdx.foldlM (fun count c => (dominantTone P toAmp cs (block.startSymbol + c.2)).map fun best =>
        if best = c.1.toNat then count + 1 else count) count) count =
      some (count + (l.flatMap fun b => List.range' b.startSymbol b.pattern.length).length) := by
    intro l
    induction l with
    | nil => exact fun _ count => rfl
    | cons b l ih =>
      intro hl count
      rw [List.foldlM_cons,hblock b (hl List.mem_cons_self),Option.bind_eq_bind,Option.bind_some,
        ih (fun c hc => hl (List.mem_cons_of_mem b hc)),List.flatMap_cons,List.length_append,List.length_range',
        Nat.add_assoc]
  rw [syncQuality,hblocks P.blocks (List.Subset.refl _),Nat.zero_add,FrameParams.syncSymbols]

/-- Single symbols are groups of one. -/
theorem frameClear_one (h : ∀ sym ∈ P.dataSymbols, ToneClear P toAmp cs itone sym) :
    FrameClear P toAmp cs itone 1 := by
  intro chunk hchunk k hk tones htones hother
  have hgroup := groupStarts_le hk
  have hdata : chunk.1 + k ∈ P.dataSymbols :=
    List.mem_flatMap.2 ⟨chunk,hchunk,List.mem_range'_1.2 ⟨by omega,by omega⟩⟩
  obtain ⟨s,hs,hne⟩ := hother
  obtain rfl : s = 0 := Nat.lt_one_iff.1 hs
  rw [groupAmp,groupAmp,Finset.sum_range_one,Finset.sum_range_one]
  rw [Nat.add_zero] at hne ⊢
  exact sqrt_lt_sqrt (add_nonneg (mul_self_nonneg _) (mul_self_nonneg _))
    (h (chunk.1 + k) hdata (tones 0) (htones 0 Nat.one_pos) hne)

omit [IsStrictOrderedRing K] in
/-- Soft values on the sides of the bits favour the word. -/
theorem SoftWord.favours {llr : List K} (hsize : P.dataBits = P.fec.params.N) {cw : List UInt8}
    (h : SoftWord P cw llr) : Favours P.fec.params llr cw := by
  intro i hi
  have hzero : (0.0 : K) = 0 := zero_literal
  obtain ⟨hone,hnone⟩ := h.signed i (hsize ▸ hi)
  rw [hzero]
  exact ⟨fun hpos => by_contra fun hbit => (hnone hbit).asymm hpos,hone⟩

end Sync

section Delivery
variable {Candidate FftCache Cd0 S K : Type} [Field K] [LinearOrder K] [IsStrictOrderedRing K] [ExactRoots K]

/-- Where the candidate was refined to, the spectra have the sent tone as the strongest of every sync symbol, and after
the equalizer of every data symbol. -/
structure StrongAt {P : FrameParams} (toAmp : S → K × K) (front : FrontEnd P Candidate FftCache Cd0 S K) (cand : Candidate)
    (refined : Refined Cd0 K) (itone : List UInt8) : Prop where
  sync : ∀ sym ∈ P.syncSymbols,
    ToneClear P toAmp (front.spectra refined.cd0 (refined.freqHz - front.freqHz cand) refined.i0) itone sym
  data : ∀ sym ∈ P.dataSymbols, ToneClear P toAmp
    (front.equalize (front.spectra refined.cd0 (refined.freqHz - front.freqHz cand) refined.i0)) itone sym

/-- The first rung of the ladder reads the word whose tones are the strongest. -/
theorem decodeLadder_of_clear {P : FrameParams} (hP : Decodable P) {toAmp : S → K × K} {policy : LadderPolicy P}
    (sorter : SortUnstable) (useNpre : Bool) (here : Position K) {cs : List S} (hcs : cs.length = P.N_SYMBOLS * P.NTONES)
    {word itone : List UInt8} (hword : IsBits P.fec.params.K word) (hverify : verifyInfo word = true)
    (haccept : policy.accept (descrambleInfo P word) = true) (htones : P.infoToTones word = some itone)
    (hclear : ∀ sym ∈ P.dataSymbols, ToneClear P toAmp cs itone sym) :
    ∃ r, decodeLadder P toAmp (freshDecoder P sorter useNpre) policy here cs () = some (some r,()) ∧
      r.info = descrambleInfo P word ∧ r.hardErrors = 0 ∧ r.pass = 0 := by
  have hsingle : 1 * P.BITS_PER_SYMBOL ≤ MAX_IBMAX_PLUS_1 :=
    (Nat.mul_le_mul_right _ (by decide : 1 ≤ 2)).trans hP.pair
  have hbits : IsBits P.dataBits (P.fec.encode word) := hP.size.symm ▸ isBits_encode P.fec.consistent.size hword
  obtain ⟨set,llra,llrd,hset,hllra,hllrd,hsoft,-⟩ := fast_of_clear
    (hP.processable hcs (Nat.le_refl 1) hsingle) hbits htones (frameClear_one hclear)
  have hzero : ZeroNeutral K := zeroNeutral_fieldF32 K ExactRoots.tanh ExactRoots.atanh ExactRoots.infinity ExactRoots.toI32
  have hquiet : P.fec.decodeSoft sorter useNpre llra (rungOpts P 0 none) = some (some ⟨word,0,0⟩) :=
    LdpcCodec.decodeSoft_quiet hzero P.fec sorter useNpre hword
      (overCodeword_rungOpts (hsoft.length.trans hP.size) 0 none) (hsoft.favours hP.size) hverify
      fun mask values h => by cases h
  obtain ⟨snrDb,hsnr⟩ : ∃ x, (if policy.skipSnr then some (0.0 / 0.0) else (P.infoToTones word).map here.snrDb) =
      some x := by
    rw [htones]
    split
    · exact ⟨_,rfl⟩
    · exact ⟨_,rfl⟩
  have hrung : ∃ r, tryBp P (freshDecoder P sorter useNpre) policy here llra 0 () = some (some r,()) ∧
      r.info = descrambleInfo P word ∧ r.hardErrors = 0 ∧ r.pass = 0 := by
    rw [tryBp,attempt,Attempt.andThen,freshDecoder,hquiet,Option.map_some,Option.bind_some]
    dsimp only
    rw [if_neg (by decide),Attempt.after,hsnr,Option.bind_some,haccept,if_neg (by decide)]
    exact ⟨_,rfl,rfl,rfl,rfl⟩
  obtain ⟨r,hr,hread⟩ := hrung
  refine ⟨r,?_,hread⟩
  rw [decodeLadder,Attempt.after,hset,Option.bind_some,Attempt.after,hllra,Option.bind_some,Attempt.after,hllrd,
    Option.bind_some,Attempt.orNext,hr]
  rfl

theorem GenericPipelineProtocol.carries (p : GenericPipelineProtocol) : CarriesMessage p.params := p.message.carries

/-- The sync tones are tones. -/
theorem GenericPipelineProtocol.syncTone_lt (p : GenericPipelineProtocol) :
    ∀ b ∈ p.params.blocks, ∀ c ∈ b.pattern, c.toNat < p.params.NTONES := by
  have hall : p.params.blocks.all fun b => b.pattern.all fun c => decide (c.toNat < p.params.NTONES) := by
    cases p with
    | Ft4 => rfl
    | Fst4 => rfl
  exact fun b hb => List.all_iff_forall_prop.1 (List.all_eq_true.1 hall b hb)

variable {p : GenericPipelineProtocol} {toAmp : S → K × K} {front : FrontEnd p.params Candidate FftCache Cd0 S K}
  {cand : Candidate} {refined : Refined Cd0 K} {policy : LadderPolicy p.params} {message itone : List UInt8} {syncQMin : Nat}
  (sorter : SortUnstable) (useNpre : Bool) (fftCache : FftCache) (known : List (DecodeResult K))

/-- A candidate where the tones of a message are the strongest decodes to that message on the first rung. -/
theorem decodeCandidate_sent (hm : IsBits 77 message) (htones : messageToTones p.params message = some itone)
    (hquality : syncQMin < p.params.syncSymbols.length)
    (haccept : ∀ info, IsBits p.params.fec.params.K info → info.take 77 = message → policy.accept info = true)
    (hstrong : StrongAt toAmp front cand refined itone) :
    ∃ r, decodeCandidate p.params toAmp sorter useNpre front policy syncQMin fftCache known cand refined = some r ∧
      r.info.take 77 = message ∧ r.hardErrors = 0 ∧ r.pass = 0 := by
  have hP : Decodable p.params := p.message.decodable
  obtain ⟨word,hword,hverify,htake,hsent⟩ := messageToTones_eq p.carries hm
  have hword' : p.params.infoToTones word = some itone := hsent.symm.trans htones
  have hlen : (p.params.fec.encode word).length = p.params.dataBits :=
    hP.size ▸ (isBits_encode p.params.fec.consistent.size hword).1
  have hspectra := front.length_spectra refined.cd0 (refined.freqHz - front.freqHz cand) refined.i0
  have hsync := syncQuality_of_clear hP.valid hspectra
    (fun b hb i c hc => ⟨itone_sync hP.valid hlen hword' hb hc,p.syncTone_lt b hb c (List.mem_of_getElem? hc)⟩) hstrong.sync
  obtain ⟨r,hladder,hinfo,herrors,hpass⟩ := decodeLadder_of_clear hP sorter useNpre
    (positionAt p.params front fftCache known cand refined refined.i0 p.params.syncSymbols.length)
    ((front.length_equalize _).trans hspectra) hword hverify
    (haccept _ (isBits_scrambleBits _ hword) htake) hword' hstrong.data
  have htry : tryPosition p.params toAmp sorter useNpre front policy syncQMin fftCache known cand refined refined.i0 =
      some (some r) := by
    rw [tryPosition,hsync,Option.bind_eq_bind,Option.bind_some,if_neg (Nat.not_le.2 hquality),
      ladder_fresh p.params toAmp policy _ sorter useNpre _ sized_new]
    exact congrArg (Option.map Prod.fst) hladder
  refine ⟨r,?_,by rw [hinfo,htake],herrors,hpass⟩
  rw [decodeCandidate,processCandidate,htry]
  rfl

variable (stable : SortStable) (toneSpacingHz : K) (score : Candidate → K) (candidates : List Candidate)

/-- The candidates that a frame works on: of FT4 all of them, of FST4 one of each place. -/
def workedOn (front : FrontEnd p.params Candidate FftCache Cd0 S K) : List (Candidate × Refined Cd0 K) :=
  if p = .Ft4 then candidates.map fun cand => (cand,front.refine fftCache cand)
  else dedupRefinedCandidates stable toneSpacingHz (front.refine fftCache) candidates

omit [IsStrictOrderedRing K] in
/-- Without a budget all of them are decoded. -/
theorem decodeFrameImpl_unbudgeted (front : FrontEnd p.params Candidate FftCache Cd0 S K) :
    (decodeFrameImpl p.params toAmp sorter useNpre front policy syncQMin fftCache stable toneSpacingHz score none
      candidates).1 = bestPerKey DecodeResult.info higher ((workedOn fftCache stable toneSpacingHz candidates front).filterMap
        fun c => decodeCandidate p.params toAmp sorter useNpre front policy syncQMin fftCache [] c.1 c.2) := by
  cases p with
  | Ft4 =>
    have hft4 : GenericPipelineProtocol.Ft4.params.ID = .Ft4 := rfl
    rw [decodeFrameImpl,if_pos hft4,workedOn,if_pos rfl,List.filterMap_map,decodeFt4]
    split
    · rename_i hempty
      rw [List.isEmpty_iff.1 hempty]
      rfl
    · exact finishFrame_eq _ _ _
  | Fst4 =>
    have hft4 : ¬GenericPipelineProtocol.Fst4.params.ID = .Ft4 := fun h => by cases h
    rw [decodeFrameImpl,if_neg hft4,workedOn,if_neg (by decide),decodeFst4]
    split
    · rename_i hempty
      rw [dedup_of_isEmpty stable toneSpacingHz (front.refine fftCache) candidates hempty]
      rfl
    · exact finishFrame_eq _ _ _

/-- The tones that a message is sent with are read back as that message: by a candidate where they are the strongest, on
the first rung and without an error, whatever the other spectra, the kernel, the hints and the earlier decodes are, and
so by every frame that works on such a candidate, whatever its other candidates hold. -/
theorem message_delivered (p : GenericPipelineProtocol) (toAmp : S → K × K)
    (front : FrontEnd p.params Candidate FftCache Cd0 S K) (policy : LadderPolicy p.params) (syncQMin : Nat)
    {message : List UInt8}
    (hm : IsBits 77 message) (hquality : syncQMin < p.params.syncSymbols.length)
    (haccept : ∀ info, IsBits p.params.fec.params.K info → info.take 77 = message → policy.accept info = true) :
    ∃ itone, messageToTones p.params message = some itone ∧ itone.length = p.params.N_SYMBOLS ∧
      (∀ cand refined, StrongAt toAmp front cand refined itone → ∃ r,
        decodeCandidate p.params toAmp sorter useNpre front policy syncQMin fftCache known cand refined = some r ∧
          r.info.take 77 = message ∧ r.hardErrors = 0 ∧ r.pass = 0) ∧
      ∀ c ∈ workedOn fftCache stable toneSpacingHz candidates front, StrongAt toAmp front c.1 c.2 itone →
        ∃ r ∈ (decodeFrameImpl p.params toAmp sorter useNpre front policy syncQMin fftCache stable toneSpacingHz score none
          candidates).1, r.info.take 77 = message := by
  obtain ⟨word,hword,-,-,hsent⟩ := messageToTones_eq p.carries hm
  have hP : Decodable p.params := p.message.decodable
  have hlen : (p.params.fec.encode word).length = p.params.dataBits :=
    hP.size ▸ (isBits_encode p.params.fec.consistent.size hword).1
  obtain ⟨itone,hitone⟩ := infoToTones_some hP hword
  have htones := hsent.trans hitone
  refine ⟨itone,htones,length_itone hP.valid hlen hitone,fun cand refined hstrong =>
    decodeCandidate_sent sorter useNpre fftCache known hm htones hquality haccept hstrong,fun c hc hstrong => ?_⟩
  obtain ⟨r,hr,hread,-⟩ := decodeCandidate_sent sorter useNpre fftCache [] hm htones hquality haccept hstrong
  rw [decodeFrameImpl_unbudgeted]
  -- One report of that information is kept, perhaps of another candidate.
  have hinfo : r.info ∈ ((workedOn fftCache stable toneSpacingHz candidates front).filterMap fun c =>
      decodeCandidate p.params toAmp sorter useNpre front policy syncQMin fftCache [] c.1 c.2).map DecodeResult.info :=
    List.mem_map_of_mem (List.mem_filterMap.2 ⟨c,hc,hr⟩)
  rw [← List.mem_eraseDups,← map_key_bestPerKey] at hinfo
  obtain ⟨r',hr',hsame⟩ := List.mem_map.1 hinfo
  exact ⟨r',hr',by rw [hsame,hread]⟩

omit [LinearOrder K] [IsStrictOrderedRing K] [ExactRoots K] in
/-- Every symbol of a frame has a tone of the protocol. -/
theorem tones_lt (hm : IsBits 77 message) (htones : messageToTones p.params message = some itone) {sym : Nat}
    (hsym : sym ∈ p.params.syncSymbols ∨ sym ∈ p.params.dataSymbols) : (itone.getD sym 0).toNat < p.params.NTONES := by
  have hP : Decodable p.params := p.message.decodable
  obtain ⟨word,hword,-,-,hsent⟩ := messageToTones_eq p.carries hm
  have hitone : p.params.infoToTones word = some itone := hsent.symm.trans htones
  have hlen : (p.params.fec.encode word).length = p.params.dataBits :=
    hP.size ▸ (isBits_encode p.params.fec.consistent.size hword).1
  rcases hsym with hsym | hsym
  · obtain ⟨b,hb,hplace⟩ := List.mem_flatMap.1 hsym
    obtain ⟨hfrom,hto⟩ := List.mem_range'_1.1 hplace
    have hlt : sym - b.startSymbol < b.pattern.length := by omega
    have hget := itone_sync hP.valid hlen hitone hb (List.getElem?_eq_getElem hlt)
    rw [Nat.add_sub_cancel' hfrom] at hget
    rw [List.getD_eq_getElem?_getD,hget,Option.getD_some]
    exact p.syncTone_lt b hb _ (List.getElem_mem hlt)
  · exact itone_data_lt hP.valid hlen hitone hsym

/-- The front end of a frame without noise: the tones of the frame alone. -/
def cleanFront (P : FrameParams) (itone : List UInt8) : FrontEnd P Unit Unit Unit (K × K) K where
  freqHz _ := 0
  refine _ _ := ⟨(),0,0,0⟩
  spectra _ _ _ := cleanSpectra P (1,0) itone
  equalize cs := cs
  syncCv _ _ _ := 0
  dtSec _ := 0
  snrDb _ _ _ _ _ _ := 0
  length_spectra _ _ _ := length_cleanSpectra _
  length_equalize _ := rfl

/-- There the tones of the frame are the strongest. -/
theorem strongAt_cleanFront (hm : IsBits 77 message) (htones : messageToTones p.params message = some itone)
    (refined : Refined Unit K) : StrongAt id (cleanFront p.params itone) () refined itone := by
  have hclear : ∀ sym, sym ∈ p.params.syncSymbols ∨ sym ∈ p.params.dataSymbols → ToneClear p.params id
      ((cleanFront p.params itone : FrontEnd p.params Unit Unit Unit (K × K) K).spectra () 0 0) itone sym := by
    intro sym hmem a ha hne
    have hsym : sym < p.params.N_SYMBOLS :=
      List.mem_range.1 (p.message.valid.1.places.subset (List.mem_append.2 hmem))
    rw [cleanFront,symbolAmp_cleanSpectra _ hsym ha,symbolAmp_cleanSpectra _ hsym (tones_lt hm htones hmem),if_neg hne,
      if_pos rfl,normSqrWide,normSqrWide]
    simp
  exact ⟨fun sym h => hclear sym (Or.inl h),fun sym h => hclear sym (Or.inr h)⟩

end Delivery

section Real

/-- A frame of FT4 without noise reports the message it was sent with. -/
theorem message_delivered_ft4 :
    ∃ itone, messageToTones Ft4 (List.replicate 77 1) = some itone ∧
      ∃ r ∈ (decodeFrameImpl Ft4 id insertionSort false (cleanFront Ft4 itone : FrontEnd Ft4 Unit Unit Unit (ℝ × ℝ) ℝ)
        ⟨false,.Normal,[],false,false,fun _ => true⟩ 8 () stableInsertionSort 1 (fun _ => 0) none [()]).1,
        r.info.take 77 = List.replicate 77 1 := by
  have hm : IsBits 77 (List.replicate 77 1) := ⟨List.length_replicate,List.all_iff_forall_prop.1 rfl⟩
  obtain ⟨itone,hitone,-,-,hframe⟩ := message_delivered insertionSort false () [] stableInsertionSort 1 (fun _ => 0) [()]
    .Ft4 id (cleanFront Ft4 ((messageToTones Ft4 (List.replicate 77 1)).getD []) :
      FrontEnd Ft4 Unit Unit Unit (ℝ × ℝ) ℝ) ⟨false,.Normal,[],false,false,fun _ => true⟩ 8 hm (by decide)
      fun _ _ _ => rfl
  have hitone' : messageToTones Ft4 (List.replicate 77 1) = some itone := hitone
  rw [hitone',Option.getD_some] at hframe
  exact ⟨itone,hitone',hframe _ List.mem_cons_self (strongAt_cleanFront (p := .Ft4) hm hitone' _)⟩

end Real

end MfskCore.Engine
