import MfskCore.Engine.BitMetrics
import MfskCore.Engine.FinishFrame
import MfskCore.Fec.HardErrors
import MfskCore.Library.FirstSuccess

/-! The ladder of a candidate (`engine/pipeline.rs`): belief propagation at every depth of the soft values, then
ordered statistics, then the hints, up to the first word that everything accepts. -/
namespace MfskCore.Engine
open Rust Fec Library

inductive DecodeStrictness where
  | Strict
  | Normal
  | Deep
  deriving DecidableEq

namespace DecodeStrictness

def osdMaxErrors : DecodeStrictness → Nat → Nat
  | .Strict, 3 => 20
  | .Strict, 4 => 24
  | .Strict, _ => 22
  | .Normal, 3 => 28
  | .Normal, 4 => 30
  | .Normal, _ => 31
  | .Deep, 3 => 30
  | .Deep, 4 => 36
  | .Deep, _ => 40

def apMaxErrors (strictness : DecodeStrictness) (lockedBits : Nat) : Nat :=
  match strictness, decide (lockedBits ≥ 55) with
  | .Strict, true => 20
  | .Strict, false => 24
  | .Normal, true => 25
  | .Normal, false => 30
  | .Deep, true => 30
  | .Deep, false => 36

end DecodeStrictness

/-- The sync tones it takes to attempt ordered statistics, and to go on to the deeper searches. -/
def osdEscalationGates (P : FrameParams) : Nat × Nat :=
  if P.ID = .Ft4 then ((12 * P.N_SYNC + 10) / 21,(18 * P.N_SYNC + 10) / 21)
  else if P.ID = .Fst4 then (12,20)
  else (12,18)

/-- A hint over the codeword: the mask and the values of the bits it locks, and the number that marks its decodes. -/
structure ApConfig (P : FrameParams) where
  mask : List UInt8
  values : List UInt8
  passId : UInt8
  length_mask : mask.length = P.fec.params.N
  length_values : values.length = P.fec.params.N

def ApConfig.locked {P : FrameParams} (ap : ApConfig P) : Nat := ap.mask.countP fun m => m != 0

/-- What the caller asks for. -/
structure LadderPolicy (P : FrameParams) where
  osd : Bool
  strictness : DecodeStrictness
  ap : List (ApConfig P)
  skipSnr : Bool
  skipLlrNsymMax : Bool
  accept : List UInt8 → Bool

/-- What is known of a candidate where it is tried. `snrDb` is the protocol's own formula, from the tones of a word. -/
structure Position (F : Type) where
  freqHz : F
  dtSec : F
  score : F
  nsync : Nat
  syncCv : F
  freqDup : Bool
  snrDb : List UInt8 → F

/-- `decode_soft_pooled` and what it works in. -/
abbrev SoftDecoder (F B : Type) := List F → DecodeOpts F → Attempt B FecResult

section Ladder
variable {F S B : Type} [F32Sqrt F] (P : FrameParams) (toAmp : S → F × F) (decoder : SoftDecoder F B)
  (policy : LadderPolicy P) (here : Position F)

/-- `AP_MAG_SCALE`, which the two protocols set. -/
def apMagScale : F := if P.ID = .Ft4 ∨ P.ID = .Fst4 then 1.1 else 1.01

/-- The options of every call, by the depth of ordered statistics and the hint. -/
def rungOpts (osdDepth : Nat) (ap : Option (ApConfig P)) : DecodeOpts F where
  bpMaxIter := if P.ID = .Ft4 then 40 else 30
  apMask := ap.map fun ap => (ap.mask,ap.values)
  apMagScale := if ap.isSome then apMagScale P else 1.01
  verifyInfo := some verifyInfo
  bpKind := .SumProduct
  osdDepth := osdDepth

/-- One call of the decoder. A word with few enough errors is measured by its tones, its scrambler is undone, and the
message has to be acceptable. -/
def attempt (llr : List F) (opts : DecodeOpts F) (gate : Nat → Bool) (skipSnr : Bool) (pass : UInt8) :
    Attempt B (DecodeResult F) :=
  (decoder llr opts).andThen fun r =>
    if !gate r.hardErrors then .nothing
    else .after (if skipSnr then some (0.0 / 0.0) else (P.infoToTones r.info).map here.snrDb) fun snrDb =>
      let info := descrambleInfo P r.info
      if !policy.accept info then .nothing
      else .found
        { info := info
          freqHz := here.freqHz
          dtSec := here.dtSec
          hardErrors := UInt32.ofNat r.hardErrors
          syncScore := here.score
          pass := pass
          syncCv := here.syncCv
          snrDb := snrDb }

def tryBp (llr : List F) (pass : UInt8) : Attempt B (DecodeResult F) :=
  attempt P decoder policy here llr (rungOpts P 0 none) (fun _ => true) policy.skipSnr pass

/-- FST4 trusts the CRC alone. -/
def tryOsd (osdDepth : Nat) (pass : UInt8) (llr : List F) : Attempt B (DecodeResult F) :=
  attempt P decoder policy here llr (rungOpts P osdDepth none)
    (fun hardErrors => P.ID = .Fst4 || hardErrors < policy.strictness.osdMaxErrors osdDepth) false pass

def tryAp (ap : ApConfig P) (llr : List F) : Attempt B (DecodeResult F) :=
  attempt P decoder policy here llr (rungOpts P 0 (some ap))
    (fun hardErrors => hardErrors ≤ policy.strictness.apMaxErrors ap.locked) false ap.passId

/-- Not next to a known decode, and the deepest search only where the sync is good. -/
def osdRungs (variants : List (List F)) : Attempt B (DecodeResult F) :=
  let gates := osdEscalationGates P
  if policy.osd && here.nsync ≥ gates.1 && !here.freqDup then
    let osdDepth := if here.nsync ≥ gates.2 then 3 else 2
    (Attempt.firstOf (variants.map (tryOsd P decoder policy here osdDepth (if osdDepth = 3 then 5 else 4)))).orNext
      (if here.nsync ≥ gates.2 then Attempt.firstOf (variants.map (tryOsd P decoder policy here 4 13)) else .nothing)
  else .nothing

def apRungs (variants : List (List F)) : Attempt B (DecodeResult F) :=
  Attempt.firstOf ((policy.ap.filter fun _ => here.nsync ≥ (osdEscalationGates P).1).map fun ap =>
    Attempt.firstOf (variants.map (tryAp P decoder policy here ap)))

/-- The depth between, which is not put in the order of the codeword. -/
def tryMid (cs : List S) (rest : List F → Attempt B (DecodeResult F)) : Attempt B (DecodeResult F) :=
  match P.LLR_NSYM_MID with
  | none => rest []
  | some mid => .after (computeLlrPartial P toAmp cs id mid) fun llre =>
    (tryBp P decoder policy here llre 6).orNext (rest llre)

def tryMax (cs : List S) (rest : List F → Attempt B (DecodeResult F)) : Attempt B (DecodeResult F) :=
  if policy.skipLlrNsymMax then rest []
  else .after ((computeLlrPartial P toAmp cs id P.LLR_NSYM_MAX).bind (deinterleave P)) fun llrc =>
    (tryBp P decoder policy here llrc 2).orNext (rest llrc)

/-- The soft values for the later rungs, in the order of the first ones. -/
def variantsOf (llra llrb llre llrc llrd : List F) : List (List F) :=
  [llra,llrb] ++ (if llre.isEmpty then [] else [llre]) ++ (if policy.skipLlrNsymMax then [] else [llrc]) ++
    if P.ID = .Ft4 then [] else [llrd]

/-- What is left when every depth but the relative one has failed. -/
def lastRungs (llra llrb llre llrc llrd : List F) : Attempt B (DecodeResult F) :=
  let variants := variantsOf P policy llra llrb llre llrc llrd
  (if P.ID = .Ft4 then Attempt.nothing else tryBp P decoder policy here llrd 3).orNext <|
  (osdRungs P decoder policy here variants).orNext <|
  apRungs P decoder policy here variants

/-- The closure `decode`. Each depth of the soft values is worked out when the ladder reaches it. -/
def decodeLadder (cs : List S) : Attempt B (DecodeResult F) :=
  .after (computeLlrFast P toAmp cs id) fun set =>
  .after (deinterleave P set.llra) fun llra =>
  .after (deinterleave P set.llrd) fun llrd =>
  (tryBp P decoder policy here llra 0).orNext <|
  .after ((computeLlrPartial P toAmp cs id 2).bind (deinterleave P)) fun llrb =>
  (tryBp P decoder policy here llrb 1).orNext <|
  tryMid P toAmp decoder policy here cs fun llre =>
  tryMax P toAmp decoder policy here cs fun llrc =>
  lastRungs P decoder policy here llra llrb llre llrc llrd

end Ladder

section Pool
variable {F S B C : Type} [F32Sqrt F] {P : FrameParams} {toAmp : S → F × F} {policy : LadderPolicy P}
  {here : Position F} {rel : B → C → Prop} {d₁ : SoftDecoder F B} {d₂ : SoftDecoder F C}

/-- From related states the two decoders decode the same. -/
def SameDecodes (rel : B → C → Prop) (d₁ : SoftDecoder F B) (d₂ : SoftDecoder F C) : Prop :=
  ∀ llr opts, Attempt.Agree rel (d₁ llr opts) (d₂ llr opts)

theorem agree_attempt (h : SameDecodes rel d₁ d₂) (llr : List F) (opts : DecodeOpts F) (gate : Nat → Bool)
    (skipSnr : Bool) (pass : UInt8) : Attempt.Agree rel (attempt P d₁ policy here llr opts gate skipSnr pass)
      (attempt P d₂ policy here llr opts gate skipSnr pass) := by
  refine (h llr opts).andThen fun r => ?_
  split
  · exact Attempt.agree_nothing
  · refine .after _ fun snrDb => ?_
    dsimp only
    split
    · exact Attempt.agree_nothing
    · exact Attempt.agree_found _

theorem agree_tryBp (h : SameDecodes rel d₁ d₂) (llr : List F) (pass : UInt8) :
    Attempt.Agree rel (tryBp P d₁ policy here llr pass) (tryBp P d₂ policy here llr pass) := agree_attempt h _ _ _ _ _

theorem agree_lastRungs (h : SameDecodes rel d₁ d₂) (llra llrb llre llrc llrd : List F) :
    Attempt.Agree rel (lastRungs P d₁ policy here llra llrb llre llrc llrd)
      (lastRungs P d₂ policy here llra llrb llre llrc llrd) := by
  refine .orNext ?_ (.orNext ?_ ?_)
  · split
    · exact Attempt.agree_nothing
    · exact agree_tryBp h llrd 3
  · rw [osdRungs,osdRungs]
    dsimp only
    split
    · refine .orNext (Attempt.agree_firstOf fun llr => agree_attempt h _ _ _ _ _) ?_
      split
      · exact Attempt.agree_firstOf fun llr => agree_attempt h _ _ _ _ _
      · exact Attempt.agree_nothing
    · exact Attempt.agree_nothing
  · exact Attempt.agree_firstOf fun ap => Attempt.agree_firstOf fun llr => agree_attempt h _ _ _ _ _

theorem agree_tryMax (h : SameDecodes rel d₁ d₂) (cs : List S) {r₁ : List F → Attempt B (DecodeResult F)}
    {r₂ : List F → Attempt C (DecodeResult F)} (hrest : ∀ llrc, Attempt.Agree rel (r₁ llrc) (r₂ llrc)) :
    Attempt.Agree rel (tryMax P toAmp d₁ policy here cs r₁) (tryMax P toAmp d₂ policy here cs r₂) := by
  rw [tryMax,tryMax]
  split
  · exact hrest []
  · exact .after _ fun llrc => .orNext (agree_tryBp h llrc 2) (hrest llrc)

theorem agree_tryMid (h : SameDecodes rel d₁ d₂) (cs : List S) {r₁ : List F → Attempt B (DecodeResult F)}
    {r₂ : List F → Attempt C (DecodeResult F)} (hrest : ∀ llre, Attempt.Agree rel (r₁ llre) (r₂ llre)) :
    Attempt.Agree rel (tryMid P toAmp d₁ policy here cs r₁) (tryMid P toAmp d₂ policy here cs r₂) := by
  rw [tryMid,tryMid]
  split
  · exact hrest []
  · exact .after _ fun llre => .orNext (agree_tryBp h llre 6) (hrest llre)

variable (P toAmp policy here)

/-- The ladder does not depend on what a decoder works in. -/
theorem agree_decodeLadder (h : SameDecodes rel d₁ d₂) (cs : List S) :
    Attempt.Agree rel (decodeLadder P toAmp d₁ policy here cs) (decodeLadder P toAmp d₂ policy here cs) := by
  refine .after _ fun set => .after _ fun llra => .after _ fun llrd => .orNext (agree_tryBp h llra 0) ?_
  refine .after _ fun llrb => .orNext (agree_tryBp h llrb 1) ?_
  exact agree_tryMid h cs fun llre => agree_tryMax h cs fun llrc => agree_lastRungs h llra llrb llre llrc llrd

/-- The decoder with buffers of its own for every call. -/
def freshDecoder (sorter : SortUnstable) (useNpre : Bool) : SoftDecoder F Unit :=
  fun llr opts _ => (P.fec.decodeSoft sorter useNpre llr opts).map fun found => (found,())

theorem sameDecodes_fresh (sorter : SortUnstable) (useNpre : Bool) :
    SameDecodes (fun (s : BpScratch F F) (_ : Unit) => s.Sized P.fec.params) (P.fec.decodeSoftPooled sorter useNpre)
      (freshDecoder P sorter useNpre) := by
  intro llr opts s _ hs
  rw [freshDecoder,← LdpcCodec.decodeSoftPooled_eq hs,Option.map_map]
  cases h : P.fec.decodeSoftPooled sorter useNpre llr opts s with
  | none => exact .none
  | some found => exact .some ⟨rfl,LdpcCodec.sized_decodeSoftPooled hs h⟩

/-- A ladder that shares one pool, of the right sizes, has the decode of a ladder with fresh buffers for every call. -/
theorem ladder_fresh (sorter : SortUnstable) (useNpre : Bool) (cs : List S) {s : BpScratch F F}
    (hs : s.Sized P.fec.params) :
    (decodeLadder P toAmp (P.fec.decodeSoftPooled sorter useNpre) policy here cs s).map Prod.fst =
      (decodeLadder P toAmp (freshDecoder P sorter useNpre) policy here cs ()).map Prod.fst :=
  (agree_decodeLadder P toAmp policy here (sameDecodes_fresh P sorter useNpre) cs).result hs

/-- The pool is left by any calls of the decoders on any soft values, and no read of the ladder sees what they wrote:
the decode, or the panic, is that of fresh buffers at every call. -/
theorem ladder_pool_free (sorter : SortUnstable) (useNpre : Bool) (cs : List S) (calls : List (ScratchCall F)) :
    (decodeLadder P toAmp (P.fec.decodeSoftPooled sorter useNpre) policy here cs
      (run (ScratchCall.leave P.fec.params) (BpScratch.new P.fec.params) calls)).map Prod.fst =
        (decodeLadder P toAmp (freshDecoder P sorter useNpre) policy here cs ()).map Prod.fst :=
  ladder_fresh P toAmp policy here sorter useNpre cs (sized_history P.fec.params calls)

end Pool

section Hints
variable {F S B : Type} [F32Sqrt F] {P : FrameParams} {toAmp : S → F × F} {decoder : SoftDecoder F B}
  {policy : LadderPolicy P} {here : Position F} {hints more : List (ApConfig P)}

/-- Only the last rungs look at the hints. -/
theorem extends_apRungs (h : hints <+: more) (variants : List (List F)) :
    Attempt.Extends (apRungs P decoder { policy with ap := hints } here variants)
      (apRungs P decoder { policy with ap := more } here variants) :=
  Attempt.extends_firstOf ((h.filter _).map _)

/-- With more hints behind the others the ladder still has the decodes it had, each from the same rung. -/
theorem extends_decodeLadder (h : hints <+: more) (cs : List S) :
    Attempt.Extends (decodeLadder P toAmp decoder { policy with ap := hints } here cs)
      (decodeLadder P toAmp decoder { policy with ap := more } here cs) := by
  have hlast (llra llrb llre llrc llrd : List F) :
      Attempt.Extends (lastRungs P decoder { policy with ap := hints } here llra llrb llre llrc llrd)
        (lastRungs P decoder { policy with ap := more } here llra llrb llre llrc llrd) :=
    .orNext _ (.orNext _ (extends_apRungs h _))
  have hmax {r₁ r₂ : List F → Attempt B (DecodeResult F)} (hrest : ∀ llrc, Attempt.Extends (r₁ llrc) (r₂ llrc)) :
      Attempt.Extends (tryMax P toAmp decoder { policy with ap := hints } here cs r₁)
        (tryMax P toAmp decoder { policy with ap := more } here cs r₂) := by
    rw [tryMax,tryMax]
    dsimp only
    split
    · exact hrest []
    · exact .after _ fun llrc => .orNext _ (hrest llrc)
  have hmid {r₁ r₂ : List F → Attempt B (DecodeResult F)} (hrest : ∀ llre, Attempt.Extends (r₁ llre) (r₂ llre)) :
      Attempt.Extends (tryMid P toAmp decoder { policy with ap := hints } here cs r₁)
        (tryMid P toAmp decoder { policy with ap := more } here cs r₂) := by
    rw [tryMid,tryMid]
    split
    · exact hrest []
    · exact .after _ fun llre => .orNext _ (hrest llre)
  refine .after _ fun set => .after _ fun llra => .after _ fun llrd => .orNext _ ?_
  refine .after _ fun llrb => .orNext _ ?_
  exact hmid fun llre => hmax fun llrc => hlast llra llrb llre llrc llrd

end Hints

section Sound
variable {F S B : Type} [F32Sqrt F] (P : FrameParams) (policy : LadderPolicy P) (here : Position F)

/-- What a decoder gives out is information that passes the check it was given. -/
def SoundDecoder (decoder : SoftDecoder F B) : Prop := ∀ llr opts,
  (decoder llr opts).Yields fun r => passes opts.verifyInfo r.info = true ∧ IsBits P.fec.params.K r.info

theorem soundDecoder_fresh (sorter : SortUnstable) (useNpre : Bool) :
    SoundDecoder P (freshDecoder P sorter useNpre : SoftDecoder F Unit) := by
  intro llr opts s r s' hrun
  obtain ⟨found,hfound,hsame⟩ := Option.map_eq_some_iff.1 hrun
  obtain rfl := (Prod.mk.inj hsame).1
  exact LdpcCodec.decodeSoft_some hfound

/-- A decode of a word that the check accepts, at the place where it was tried. -/
structure Credible (r : DecodeResult F) : Prop where
  word : ∃ word, IsBits P.fec.params.K word ∧ verifyInfo word = true ∧ r.info = descrambleInfo P word
  accepted : policy.accept r.info = true
  place : r.freqHz = here.freqHz ∧ r.dtSec = here.dtSec ∧ r.syncScore = here.score ∧ r.syncCv = here.syncCv

/-- The rung a decode comes from, and what that rung asks for. -/
inductive Origin (r : DecodeResult F) : Prop where
  | propagation (pass : r.pass ∈ [0,1,6,2,3])
  | ordered (depth : Nat) (pass : (depth,r.pass) ∈ [(2,(4 : UInt8)),(3,5),(4,13)]) (asked : policy.osd = true)
      (synced : (osdEscalationGates P).1 ≤ here.nsync) (deep : 2 < depth → (osdEscalationGates P).2 ≤ here.nsync)
      (alone : here.freqDup = false) (few : P.ID = .Fst4 ∨ r.hardErrors.toNat < policy.strictness.osdMaxErrors depth)
  | hinted (ap : ApConfig P) (mem : ap ∈ policy.ap) (pass : r.pass = ap.passId)
      (synced : (osdEscalationGates P).1 ≤ here.nsync)
      (few : r.hardErrors.toNat ≤ policy.strictness.apMaxErrors ap.locked)

variable {P policy here} {toAmp : S → F × F} {decoder : SoftDecoder F B}

theorem yields_attempt (hd : SoundDecoder P decoder) (llr : List F) {opts : DecodeOpts F}
    (hopts : opts.verifyInfo = some verifyInfo) (gate : Nat → Bool) (skipSnr : Bool) (pass : UInt8) :
    (attempt P decoder policy here llr opts gate skipSnr pass).Yields fun r =>
      Credible P policy here r ∧ r.pass = pass ∧ ∃ e, gate e = true ∧ r.hardErrors = UInt32.ofNat e := by
  refine (hd llr opts).andThen fun r hr => ?_
  obtain ⟨hverify,hbits⟩ := hr
  rw [hopts] at hverify
  split
  · exact Attempt.yields_nothing
  · rename_i hgate
    refine .after fun snrDb _ => ?_
    dsimp only
    split
    · exact Attempt.yields_nothing
    · rename_i haccept
      rw [Bool.not_eq_true',Bool.not_eq_false] at hgate haccept
      exact Attempt.yields_found
        ⟨⟨⟨r.info,hbits,hverify,rfl⟩,haccept,rfl,rfl,rfl,rfl⟩,rfl,r.hardErrors,hgate,rfl⟩

private theorem toNat_ofNat_le (e : Nat) : (UInt32.ofNat e).toNat ≤ e := by
  rw [UInt32.toNat_ofNat']
  exact Nat.mod_le _ _

theorem yields_tryBp (hd : SoundDecoder P decoder) (llr : List F) {pass : UInt8} (hpass : pass ∈ [0,1,6,2,3]) :
    (tryBp P decoder policy here llr pass).Yields fun r => Credible P policy here r ∧ Origin P policy here r :=
  (yields_attempt hd llr rfl _ _ pass).imp fun _ h => ⟨h.1,.propagation (h.2.1.symm ▸ hpass)⟩

theorem yields_tryOsd (hd : SoundDecoder P decoder) (llr : List F) {depth : Nat} {pass : UInt8}
    (hpass : (depth,pass) ∈ [(2,(4 : UInt8)),(3,5),(4,13)]) (hasked : policy.osd = true)
    (hsynced : (osdEscalationGates P).1 ≤ here.nsync) (hdeep : 2 < depth → (osdEscalationGates P).2 ≤ here.nsync)
    (halone : here.freqDup = false) : (tryOsd P decoder policy here depth pass llr).Yields fun r =>
      Credible P policy here r ∧ Origin P policy here r := by
  refine (yields_attempt hd llr rfl _ _ pass).imp fun r h => ?_
  obtain ⟨hcredible,rfl,e,hgate,herrors⟩ := h
  refine ⟨hcredible,.ordered depth hpass hasked hsynced hdeep halone ?_⟩
  rw [Bool.or_eq_true,decide_eq_true_eq,decide_eq_true_eq] at hgate
  exact hgate.imp_right fun hlt => herrors ▸ (toNat_ofNat_le e).trans_lt hlt

theorem yields_tryAp (hd : SoundDecoder P decoder) (llr : List F) {ap : ApConfig P} (hap : ap ∈ policy.ap)
    (hsynced : (osdEscalationGates P).1 ≤ here.nsync) : (tryAp P decoder policy here ap llr).Yields fun r =>
      Credible P policy here r ∧ Origin P policy here r := by
  refine (yields_attempt hd llr rfl _ _ ap.passId).imp fun r h => ?_
  obtain ⟨hcredible,hpass,e,hgate,herrors⟩ := h
  refine ⟨hcredible,.hinted ap hap hpass hsynced ?_⟩
  rw [decide_eq_true_eq] at hgate
  exact herrors ▸ (toNat_ofNat_le e).trans hgate

theorem yields_osdRungs (hd : SoundDecoder P decoder) (variants : List (List F)) :
    (osdRungs P decoder policy here variants).Yields fun r => Credible P policy here r ∧ Origin P policy here r := by
  rw [osdRungs]
  dsimp only
  split
  · rename_i hasked
    rw [Bool.and_eq_true,Bool.and_eq_true,decide_eq_true_eq,Bool.not_eq_true'] at hasked
    obtain ⟨⟨hosd,hsynced⟩,halone⟩ := hasked
    refine .orNext (Attempt.yields_firstOf fun a ha => ?_) ?_
    · obtain ⟨llr,-,rfl⟩ := List.mem_map.1 ha
      refine yields_tryOsd hd llr ?_ hosd hsynced ?_ halone
      · split
        · exact List.mem_cons_of_mem _ List.mem_cons_self
        · exact List.mem_cons_self
      · split
        · exact fun _ => ‹_›
        · exact fun h => absurd h (lt_irrefl 2)
    · split
      · rename_i hdeep
        refine Attempt.yields_firstOf fun a ha => ?_
        obtain ⟨llr,-,rfl⟩ := List.mem_map.1 ha
        exact yields_tryOsd hd llr (by decide) hosd hsynced (fun _ => hdeep) halone
      · exact Attempt.yields_nothing
  · exact Attempt.yields_nothing

theorem yields_apRungs (hd : SoundDecoder P decoder) (variants : List (List F)) :
    (apRungs P decoder policy here variants).Yields fun r => Credible P policy here r ∧ Origin P policy here r := by
  refine Attempt.yields_firstOf fun a ha => ?_
  obtain ⟨ap,hap,rfl⟩ := List.mem_map.1 ha
  obtain ⟨hap,hsynced⟩ := List.mem_filter.1 hap
  refine Attempt.yields_firstOf fun a ha => ?_
  obtain ⟨llr,-,rfl⟩ := List.mem_map.1 ha
  exact yields_tryAp hd llr hap (of_decide_eq_true hsynced)

/-- Every decode of the ladder is credible, and meets what its rung asks for. -/
theorem yields_decodeLadder (hd : SoundDecoder P decoder) (cs : List S) :
    (decodeLadder P toAmp decoder policy here cs).Yields fun r =>
      Credible P policy here r ∧ Origin P policy here r := by
  have hlast (llra llrb llre llrc llrd : List F) :
      (lastRungs P decoder policy here llra llrb llre llrc llrd).Yields fun r =>
        Credible P policy here r ∧ Origin P policy here r := by
    refine .orNext ?_ (.orNext (yields_osdRungs hd _) (yields_apRungs hd _))
    split
    · exact Attempt.yields_nothing
    · exact yields_tryBp hd llrd (by decide)
  refine .after fun set _ => .after fun llra _ => .after fun llrd _ => .orNext (yields_tryBp hd llra (by decide)) ?_
  refine .after fun llrb _ => .orNext (yields_tryBp hd llrb (by decide)) ?_
  have hmax (llre : List F) : (tryMax P toAmp decoder policy here cs fun llrc =>
      lastRungs P decoder policy here llra llrb llre llrc llrd).Yields fun r =>
        Credible P policy here r ∧ Origin P policy here r := by
    rw [tryMax]
    split
    · exact hlast llra llrb llre [] llrd
    · exact .after fun llrc _ => .orNext (yields_tryBp hd llrc (by decide)) (hlast llra llrb llre llrc llrd)
  rw [tryMid]
  split
  · exact hmax []
  · exact .after fun llre _ => .orNext (yields_tryBp hd llre (by decide)) (hmax llre)

end Sound

section Total
variable {F S B : Type} [F32Sqrt F] {P : FrameParams} (toAmp : S → F × F) (policy : LadderPolicy P) (here : Position F)
  {decoder : SoftDecoder F B}

/-- The decoder does not panic on lists over the codeword. -/
def TotalDecoder (P : FrameParams) (decoder : SoftDecoder F B) : Prop :=
  ∀ llr opts, P.fec.OverCodeword llr opts.toFecOpts → (decoder llr opts).Total

theorem totalDecoder_fresh (sorter : SortUnstable) (useNpre : Bool) :
    TotalDecoder P (freshDecoder P sorter useNpre : SoftDecoder F Unit) := by
  intro llr opts hover s
  obtain ⟨found,hfound⟩ : ∃ found, P.fec.decodeSoft sorter useNpre llr opts = some found :=
    Option.isSome_iff_exists.1 (LdpcCodec.decodeSoft_isSome_iff.2 hover)
  exact ⟨(found,()),by rw [freshDecoder,hfound]; rfl⟩

/-- The hints of a rung are over the codeword. -/
theorem overCodeword_rungOpts {llr : List F} (hllr : llr.length = P.fec.params.N) (osdDepth : Nat)
    (ap : Option (ApConfig P)) : P.fec.OverCodeword llr (rungOpts P osdDepth ap : DecodeOpts F).toFecOpts := by
  refine ⟨hllr,fun mask values h => ?_⟩
  obtain ⟨ap,-,hpair⟩ := Option.map_eq_some_iff.1 h
  obtain ⟨rfl,rfl⟩ := Prod.mk.inj hpair
  exact ⟨ap.length_mask,ap.length_values⟩

/-- The layout fits the code and the depths of its soft values fit their tables. -/
structure Decodable (P : FrameParams) : Prop where
  valid : P.Valid
  size : P.dataBits = P.fec.params.N
  pair : 2 * P.BITS_PER_SYMBOL ≤ MAX_IBMAX_PLUS_1
  mid : ∀ mid, P.LLR_NSYM_MID = some mid → 1 ≤ mid ∧ mid * P.BITS_PER_SYMBOL ≤ MAX_IBMAX_PLUS_1
  max : 1 ≤ P.LLR_NSYM_MAX ∧ P.LLR_NSYM_MAX * P.BITS_PER_SYMBOL ≤ MAX_IBMAX_PLUS_1

theorem MessageProtocol.decodable (p : MessageProtocol) : Decodable p.params := by
  obtain ⟨hvalid,hsize⟩ := p.valid
  cases p with
  | Ft8 => exact ⟨hvalid,hsize,by decide,fun mid h => (by cases h),by decide⟩
  | Ft4 => exact ⟨hvalid,hsize,by decide,fun mid h => (by cases h),by decide⟩
  | Fst4 => exact ⟨hvalid,hsize,by decide,fun mid h => Option.some.inj h ▸ by decide,by decide⟩

theorem Decodable.processable (hP : Decodable P) {cs : List S} (hcs : cs.length = P.N_SYMBOLS * P.NTONES) {nsym : Nat}
    (hone : 1 ≤ nsym) (hwidth : nsym * P.BITS_PER_SYMBOL ≤ MAX_IBMAX_PLUS_1) : Processable P cs nsym :=
  ⟨hP.valid,hone,hwidth,hcs⟩

/-- A word of the code has tones. -/
theorem infoToTones_some (hP : Decodable P) {word : List UInt8} (hword : IsBits P.fec.params.K word) :
    ∃ itone, P.infoToTones word = some itone := by
  have hlen : (P.fec.encode word).length = P.dataBits :=
    hP.size ▸ (isBits_encode P.fec.consistent.size hword).1
  exact ⟨_,codewordToItone_eq hP.valid hlen⟩

/-- A rung with soft values of the codeword. -/
theorem total_attempt (hP : Decodable P) (hd : SoundDecoder P decoder) (ht : TotalDecoder P decoder) {llr : List F}
    (hllr : llr.length = P.fec.params.N) (osdDepth : Nat) (ap : Option (ApConfig P)) (gate : Nat → Bool)
    (skipSnr : Bool) (pass : UInt8) :
    (attempt P decoder policy here llr (rungOpts P osdDepth ap) gate skipSnr pass).Total := by
  refine (ht llr _ (overCodeword_rungOpts hllr osdDepth ap)).andThen (hd llr _) fun r hr => ?_
  obtain ⟨itone,htones⟩ := infoToTones_some hP hr.2
  obtain ⟨snrDb,hsnr⟩ : ∃ x, (if skipSnr then some (0.0 / 0.0) else (P.infoToTones r.info).map here.snrDb) =
      some x := by
    rw [htones]
    split
    · exact ⟨_,rfl⟩
    · exact ⟨_,rfl⟩
  split
  · exact Attempt.total_nothing
  · refine .after ⟨snrDb,hsnr,?_⟩
    dsimp only
    split
    · exact Attempt.total_nothing
    · exact Attempt.total_found _

omit [F32Sqrt F] in
/-- The later rungs have only soft values of the codeword. -/
theorem length_of_mem_variantsOf {llra llrb llre llrc llrd llr : List F}
    (hmem : llr ∈ variantsOf P policy llra llrb llre llrc llrd) (ha : llra.length = P.fec.params.N) (hb : llrb.length = P.fec.params.N)
    (he : llre = [] ∨ llre.length = P.fec.params.N) (hc : policy.skipLlrNsymMax = true ∨ llrc.length = P.fec.params.N)
    (hd : llrd.length = P.fec.params.N) : llr.length = P.fec.params.N := by
  rw [variantsOf] at hmem
  rcases List.mem_append.1 hmem with hmem | hmem
  · rcases List.mem_append.1 hmem with hmem | hmem
    · rcases List.mem_append.1 hmem with hmem | hmem
      · rcases List.mem_cons.1 hmem with rfl | hmem
        · exact ha
        · exact List.mem_singleton.1 hmem ▸ hb
      · split at hmem
        · cases hmem
        · rename_i hempty
          obtain rfl := List.mem_singleton.1 hmem
          exact he.resolve_left fun h => hempty (List.isEmpty_iff.2 h)
    · split at hmem
      · cases hmem
      · rename_i hskip
        exact List.mem_singleton.1 hmem ▸ hc.resolve_left hskip
  · split at hmem
    · cases hmem
    · exact List.mem_singleton.1 hmem ▸ hd

theorem total_lastRungs (hP : Decodable P) (hd : SoundDecoder P decoder) (ht : TotalDecoder P decoder)
    {llra llrb llre llrc llrd : List F} (hllrd : llrd.length = P.fec.params.N)
    (hvariants : ∀ llr ∈ variantsOf P policy llra llrb llre llrc llrd, llr.length = P.fec.params.N) :
    (lastRungs P decoder policy here llra llrb llre llrc llrd).Total := by
  have hseries {f : List F → Attempt B (DecodeResult F)} (hf : ∀ llr, llr.length = P.fec.params.N → (f llr).Total) :
      (Attempt.firstOf ((variantsOf P policy llra llrb llre llrc llrd).map f)).Total := by
    refine Attempt.total_firstOf fun a ha => ?_
    obtain ⟨llr,hmem,rfl⟩ := List.mem_map.1 ha
    exact hf llr (hvariants llr hmem)
  refine .orNext ?_ (.orNext ?_ ?_)
  · split
    · exact Attempt.total_nothing
    · exact total_attempt policy here hP hd ht hllrd _ _ _ _ _
  · rw [osdRungs]
    dsimp only
    split
    · refine .orNext (hseries fun llr hllr => total_attempt policy here hP hd ht hllr _ _ _ _ _) ?_
      split
      · exact hseries fun llr hllr => total_attempt policy here hP hd ht hllr _ _ _ _ _
      · exact Attempt.total_nothing
    · exact Attempt.total_nothing
  · refine Attempt.total_firstOf fun a ha => ?_
    obtain ⟨ap,-,rfl⟩ := List.mem_map.1 ha
    exact hseries fun llr hllr => total_attempt policy here hP hd ht hllr _ _ _ _ _

/-- On spectra of the right size the ladder never panics, whatever they hold and whatever the hints are. -/
theorem total_decodeLadder (hP : Decodable P) (hd : SoundDecoder P decoder) (ht : TotalDecoder P decoder) {cs : List S}
    (hcs : cs.length = P.N_SYMBOLS * P.NTONES) : (decodeLadder P toAmp decoder policy here cs).Total := by
  have hsize := hP.size
  have hrung {llr : List F} (hllr : llr.length = P.fec.params.N) (pass : UInt8) :
      (tryBp P decoder policy here llr pass).Total := total_attempt policy here hP hd ht hllr _ _ _ _ _
  have hdepth {nsym : Nat} (hp : Processable P cs nsym) : ∃ llr,
      (computeLlrPartial P toAmp cs id nsym).bind (deinterleave P) = some llr ∧ llr.length = P.fec.params.N := by
    obtain ⟨llr,hllr,hlen⟩ := computeLlrPartial_some toAmp id hp
    obtain ⟨out,hout,hlen,-⟩ := deinterleave_eq hP.valid hlen
    exact ⟨out,by rw [hllr,Option.bind_some,hout],hlen.trans hsize⟩
  have hsingle : 1 * P.BITS_PER_SYMBOL ≤ MAX_IBMAX_PLUS_1 :=
    (Nat.mul_le_mul_right _ (by decide : 1 ≤ 2)).trans hP.pair
  obtain ⟨set,hset,hlena,hlend⟩ := computeLlrFast_some toAmp id
    (hP.processable hcs (Nat.le_refl 1) hsingle)
  obtain ⟨llra,hllra,ha,-⟩ := deinterleave_eq hP.valid hlena
  obtain ⟨llrd,hllrd,hd',-⟩ := deinterleave_eq hP.valid hlend
  obtain ⟨llrb,hllrb,hb⟩ := hdepth (hP.processable hcs (by decide) hP.pair)
  rw [hsize] at ha hd'
  have hlast {llre llrc : List F} (he : llre = [] ∨ llre.length = P.fec.params.N)
      (hc : policy.skipLlrNsymMax = true ∨ llrc.length = P.fec.params.N) :
      (lastRungs P decoder policy here llra llrb llre llrc llrd).Total :=
    total_lastRungs policy here hP hd ht hd' fun llr hmem => length_of_mem_variantsOf policy hmem ha hb he hc hd'
  have hmax {llre : List F} (he : llre = [] ∨ llre.length = P.fec.params.N) :
      (tryMax P toAmp decoder policy here cs fun llrc =>
        lastRungs P decoder policy here llra llrb llre llrc llrd).Total := by
    rw [tryMax]
    split
    · rename_i hskip
      exact hlast he (Or.inl hskip)
    · obtain ⟨llrc,hllrc,hc⟩ := hdepth (hP.processable hcs hP.max.1 hP.max.2)
      exact .after ⟨llrc,hllrc,.orNext (hrung hc 2) (hlast he (Or.inr hc))⟩
  refine .after ⟨set,hset,.after ⟨llra,hllra,.after ⟨llrd,hllrd,.orNext (hrung ha 0) ?_⟩⟩⟩
  refine .after ⟨llrb,hllrb,.orNext (hrung hb 1) ?_⟩
  rw [tryMid]
  split
  · exact hmax (Or.inl rfl)
  · rename_i mid hmid
    obtain ⟨llre,hllre,he⟩ := computeLlrPartial_some toAmp id
      (hP.processable hcs (hP.mid mid hmid).1 (hP.mid mid hmid).2)
    exact .after ⟨llre,hllre,.orNext (hrung (he.trans hsize) 6) (hmax (Or.inr (he.trans hsize)))⟩

end Total

end MfskCore.Engine
