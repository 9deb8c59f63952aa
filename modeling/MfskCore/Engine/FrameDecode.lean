import MfskCore.Engine.BudgetAccount
import MfskCore.Engine.DecodeLadder

/-! The candidates of a frame, each at the places where it is tried, and what the frame reports (`engine/pipeline.rs`).
The signal processing up to the spectra is a parameter. -/
namespace MfskCore.Engine
open Rust Fec Library

/-- The protocols of this pipeline; FT8 has an engine of its own. -/
inductive GenericPipelineProtocol where
  | Ft4
  | Fst4
  deriving DecidableEq

def GenericPipelineProtocol.message : GenericPipelineProtocol → MessageProtocol
  | .Ft4 => .Ft4
  | .Fst4 => .Fst4

def GenericPipelineProtocol.params (p : GenericPipelineProtocol) : FrameParams := p.message.params

/-- What comes before the ladder: the refinement of a candidate, the spectra of the shifted baseband from a sample on,
the equalizer (the identity when it is off), and the measurements that a result carries along. -/
structure FrontEnd (P : FrameParams) (Candidate FftCache Cd0 S F : Type) where
  freqHz : Candidate → F
  refine : FftCache → Candidate → Refined Cd0 F
  spectra : Cd0 → F → Int → List S
  equalize : List S → List S
  syncCv : Cd0 → F → Int → F
  dtSec : Int → F
  snrDb : FftCache → Candidate → Refined Cd0 F → Int → List S → List UInt8 → F
  length_spectra : ∀ cd0 dfHz iStart, (spectra cd0 dfHz iStart).length = P.N_SYMBOLS * P.NTONES
  length_equalize : ∀ cs, (equalize cs).length = cs.length

section Definitions
variable {Candidate FftCache Cd0 S F : Type} [F32Sqrt F] (P : FrameParams) (toAmp : S → F × F)

def normSqrWide (z : F × F) : F := z.1 * z.1 + z.2 * z.2

/-- The strongest tone of a symbol, the first of equals. -/
def dominantTone (cs : List S) (sym : Nat) : Option Nat := do
  let first ← cs[sym * P.NTONES]?
  let r ← (List.range' 1 (P.NTONES - 1)).foldlM (fun (best : Nat × F) a =>
    (cs[sym * P.NTONES + a]?).map fun z =>
      if normSqrWide (toAmp z) > best.2 then (a,normSqrWide (toAmp z)) else best) (0,normSqrWide (toAmp first))
  pure r.1

def syncQuality (cs : List S) : Option Nat :=
  P.blocks.foldlM (fun count block => block.pattern.zipIdx.foldlM (fun count c =>
    (dominantTone P toAmp cs (block.startSymbol + c.2)).map fun best =>
      if best = c.1.toNat then count + 1 else count) count) 0

variable (sorter : SortUnstable) (useNpre : Bool) (front : FrontEnd P Candidate FftCache Cd0 S F)
  (policy : LadderPolicy P) (syncQMin : Nat) (fftCache : FftCache) (known : List (DecodeResult F))

/-- What is known of a candidate at a sample. -/
def positionAt (cand : Candidate) (refined : Refined Cd0 F) (i0 : Int) (nsync : Nat) : Position F where
  freqHz := refined.freqHz
  dtSec := front.dtSec i0
  score := refined.score
  nsync := nsync
  syncCv := front.syncCv refined.cd0 (refined.freqHz - front.freqHz cand) i0
  freqDup := known.any fun r => F32.abs (r.freqHz - front.freqHz cand) < 20.0
  snrDb := front.snrDb fftCache cand refined i0
    (front.equalize (front.spectra refined.cd0 (refined.freqHz - front.freqHz cand) i0))

/-- The closure `try_position`. -/
def tryPosition (cand : Candidate) (refined : Refined Cd0 F) (i0 : Int) : Option (Option (DecodeResult F)) := do
  let csRaw := front.spectra refined.cd0 (refined.freqHz - front.freqHz cand) i0
  let nsync ← syncQuality P toAmp csRaw
  if nsync ≤ syncQMin then pure none
  else
    let here := positionAt P front fftCache known cand refined i0 nsync
    (decodeLadder P toAmp (P.fec.decodeSoftPooled sorter useNpre) policy here (front.equalize csRaw)
      (BpScratch.new P.fec.params)).map Prod.fst

/-- `process_candidate_basic_impl`: where the candidate was refined to, and for FST4 a sample after and before it. -/
def processCandidate (cand : Candidate) (refined : Refined Cd0 F) : Option (Option (DecodeResult F)) := do
  let at0 ← tryPosition P toAmp sorter useNpre front policy syncQMin fftCache known cand refined refined.i0
  if at0.isSome then pure at0
  else if P.ID ≠ .Ft4 ∧ policy.osd then
    let after ← tryPosition P toAmp sorter useNpre front policy syncQMin fftCache known cand refined (refined.i0 + 1)
    if after.isSome then pure after
    else tryPosition P toAmp sorter useNpre front policy syncQMin fftCache known cand refined (refined.i0 - 1)
  else pure none

/-- A candidate that is not given up in a panic. -/
def decodeCandidate (cand : Candidate) (refined : Refined Cd0 F) : Option (DecodeResult F) :=
  (processCandidate P toAmp sorter useNpre front policy syncQMin fftCache known cand refined).join

/-- The tones of a decode, scrambled back and encoded again, are taken out of what is left of the audio. -/
def subtractDecode {Audio : Type} (subtractTones : Audio → List UInt8 → F → F → Audio) (residual : Audio)
    (r : DecodeResult F) : Audio :=
  ((P.infoToTones (descrambleInfo P r.info)).map fun tones => subtractTones residual tones r.freqHz r.dtSec).getD residual

/-- `decode_frame_impl` from the coarse candidates on: FT4 takes them as they are, FST4 one of each place. -/
def decodeFrameImpl (stable : SortStable) (toneSpacingHz : F) (score : Candidate → F) (budget : Option (Nat → Bool))
    (candidates : List Candidate) : List (DecodeResult F) × FftCache × BudgetReport F :=
  if P.ID = .Ft4 then
    decodeFt4 score (fun cand => decodeCandidate P toAmp sorter useNpre front policy syncQMin fftCache [] cand
      (front.refine fftCache cand)) budget candidates fftCache
  else
    decodeFst4 stable toneSpacingHz (front.refine fftCache) (fun p => decodeCandidate P toAmp sorter useNpre front policy
      syncQMin fftCache [] p.1 p.2) budget candidates fftCache

end Definitions

section Positions
variable {Candidate FftCache Cd0 S F : Type} [F32Sqrt F] {P : FrameParams} {toAmp : S → F × F} {sorter : SortUnstable}
  {useNpre : Bool} {front : FrontEnd P Candidate FftCache Cd0 S F} {policy : LadderPolicy P} {syncQMin : Nat}
  {fftCache : FftCache} {known : List (DecodeResult F)} {cand : Candidate} {refined : Refined Cd0 F}

/-- The candidate is tried at its place, and for FST4 with ordered statistics next to it. -/
def tried (P : FrameParams) (policy : LadderPolicy P) (i0 : Int) : List Int :=
  if P.ID ≠ .Ft4 ∧ policy.osd then [i0,i0 + 1,i0 - 1] else [i0]

theorem processCandidate_some {r : DecodeResult F}
    (h : processCandidate P toAmp sorter useNpre front policy syncQMin fftCache known cand refined = some (some r)) :
    ∃ i0 ∈ tried P policy refined.i0,
      tryPosition P toAmp sorter useNpre front policy syncQMin fftCache known cand refined i0 = some (some r) := by
  rw [processCandidate] at h
  obtain ⟨at0,hat0,h⟩ := Option.bind_eq_some_iff.1 h
  rw [tried]
  split at h
  · obtain rfl := Option.some.inj h
    split
    · exact ⟨_,List.mem_cons_self,hat0⟩
    · exact ⟨_,List.mem_cons_self,hat0⟩
  · split at h
    · rename_i hjitter
      rw [if_pos hjitter]
      obtain ⟨after,hafter,h⟩ := Option.bind_eq_some_iff.1 h
      split at h
      · obtain rfl := Option.some.inj h
        exact ⟨_,List.mem_cons_of_mem _ List.mem_cons_self,hafter⟩
      · exact ⟨_,List.mem_cons_of_mem _ (List.mem_cons_of_mem _ List.mem_cons_self),h⟩
    · cases h

/-- A decode is of a place where the spectra have enough sync tones, and stands on a rung of its ladder. -/
def Earned (toAmp : S → F × F) (front : FrontEnd P Candidate FftCache Cd0 S F) (policy : LadderPolicy P)
    (syncQMin : Nat) (fftCache : FftCache) (known : List (DecodeResult F)) (cand : Candidate) (refined : Refined Cd0 F)
    (r : DecodeResult F) : Prop :=
  ∃ i0 ∈ tried P policy refined.i0, ∃ nsync > syncQMin,
    syncQuality P toAmp (front.spectra refined.cd0 (refined.freqHz - front.freqHz cand) i0) = some nsync ∧
    Credible P policy (positionAt P front fftCache known cand refined i0 nsync) r ∧
    Origin P policy (positionAt P front fftCache known cand refined i0 nsync) r

theorem decodeCandidate_earned {r : DecodeResult F}
    (h : decodeCandidate P toAmp sorter useNpre front policy syncQMin fftCache known cand refined = some r) :
    Earned toAmp front policy syncQMin fftCache known cand refined r := by
  obtain ⟨i0,hi0,htry⟩ := processCandidate_some (Option.join_eq_some_iff.1 h)
  rw [tryPosition] at htry
  obtain ⟨nsync,hquality,htry⟩ := Option.bind_eq_some_iff.1 htry
  split at htry
  · cases htry
  · rename_i hnsync
    -- The ladder with a new pool decodes what the one with fresh buffers does.
    rw [ladder_fresh P toAmp policy _ sorter useNpre _ sized_new] at htry
    obtain ⟨⟨x,u⟩,hrun,hx⟩ := Option.map_eq_some_iff.1 htry
    obtain rfl : x = some r := hx
    obtain ⟨hcredible,horigin⟩ := yields_decodeLadder (soundDecoder_fresh P sorter useNpre) _ () r u hrun
    exact ⟨i0,hi0,nsync,Nat.lt_of_not_le hnsync,hquality,hcredible,horigin⟩

/-- A decode keeps the score of the place where the candidate was refined to. -/
theorem syncScore_decodeCandidate {r : DecodeResult F}
    (h : decodeCandidate P toAmp sorter useNpre front policy syncQMin fftCache known cand refined = some r) :
    r.syncScore = refined.score := by
  obtain ⟨i0,-,nsync,-,-,hcredible,-⟩ := decodeCandidate_earned h
  exact hcredible.place.2.2.1

end Positions

section NoPanic
variable {Candidate FftCache Cd0 S F : Type} [F32Sqrt F] {P : FrameParams} (toAmp : S → F × F) (sorter : SortUnstable)
  (useNpre : Bool) (front : FrontEnd P Candidate FftCache Cd0 S F) (policy : LadderPolicy P) (syncQMin : Nat)
  (fftCache : FftCache) (known : List (DecodeResult F)) (cand : Candidate) (refined : Refined Cd0 F) {cs : List S}

theorem one_lt_tones (h : P.Valid) : 1 < P.NTONES := by
  rw [h.tones]
  exact Nat.one_lt_two_pow (Nat.ne_of_gt h.bits.1)

theorem dominantTone_some (h : P.Valid) (hcs : cs.length = P.N_SYMBOLS * P.NTONES) {sym : Nat}
    (hsym : sym < P.N_SYMBOLS) : ∃ best, dominantTone P toAmp cs sym = some best := by
  have hin {a : Nat} (ha : a < P.NTONES) : ∃ z, cs[sym * P.NTONES + a]? = some z :=
    ⟨_,List.getElem?_eq_getElem (hcs ▸ rowMajor_lt hsym ha)⟩
  have hone := one_lt_tones h
  obtain ⟨first,hfirst⟩ := hin (by omega : 0 < P.NTONES)
  rw [Nat.add_zero] at hfirst
  have hsteps : ∀ a ∈ List.range' 1 (P.NTONES - 1), ∀ best : Nat × F, True → ∃ best',
      ((cs[sym * P.NTONES + a]?).map fun z =>
        if normSqrWide (toAmp z) > best.2 then (a,normSqrWide (toAmp z)) else best) = some best' ∧ True := by
    intro a ha best _
    obtain ⟨z,hz⟩ := hin (by have hlt := List.mem_range'_1.1 ha; omega : a < P.NTONES)
    exact ⟨_,by rw [hz]; rfl,trivial⟩
  obtain ⟨r,hr,-⟩ := exists_foldlM (fun _ => True) hsteps (b := (0,normSqrWide (toAmp first))) trivial
  exact ⟨r.1,by rw [dominantTone,hfirst,Option.bind_eq_bind,Option.bind_some,hr]; rfl⟩

theorem syncQuality_some (h : P.Valid) (hcs : cs.length = P.N_SYMBOLS * P.NTONES) :
    ∃ nsync, syncQuality P toAmp cs = some nsync := by
  have hblocks : ∀ block ∈ P.blocks, ∀ count : Nat, True → ∃ count',
      block.pattern.zipIdx.foldlM (fun count c => (dominantTone P toAmp cs (block.startSymbol + c.2)).map fun best =>
        if best = c.1.toNat then count + 1 else count) count = some count' ∧ True := by
    intro block hblock count _
    refine exists_foldlM (fun _ => True) (fun c hc count _ => ?_) trivial
    have hplace := (List.mem_zipIdx_iff_getElem?.1 hc)
    have hlt := (List.getElem?_eq_some_iff.1 hplace).1
    have hend := h.inFrame block hblock
    obtain ⟨best,hbest⟩ := dominantTone_some toAmp h hcs (by omega : block.startSymbol + c.2 < P.N_SYMBOLS)
    exact ⟨_,by rw [hbest]; rfl,trivial⟩
  obtain ⟨nsync,hnsync,-⟩ := exists_foldlM (fun _ => True) hblocks (b := 0) trivial
  exact ⟨nsync,hnsync⟩

theorem tryPosition_some (hP : Decodable P) (i0 : Int) :
    ∃ r, tryPosition P toAmp sorter useNpre front policy syncQMin fftCache known cand refined i0 = some r := by
  obtain ⟨nsync,hnsync⟩ := syncQuality_some toAmp hP.valid
    (front.length_spectra refined.cd0 (refined.freqHz - front.freqHz cand) i0)
  rw [tryPosition,hnsync,Option.bind_eq_bind,Option.bind_some]
  split
  · exact ⟨_,rfl⟩
  · rw [ladder_fresh P toAmp policy _ sorter useNpre _ sized_new]
    have hcs := (front.length_equalize _).trans (front.length_spectra refined.cd0 (refined.freqHz - front.freqHz cand) i0)
    obtain ⟨r,hr⟩ := total_decodeLadder toAmp policy (positionAt P front fftCache known cand refined i0 nsync) hP
      (soundDecoder_fresh P sorter useNpre) (totalDecoder_fresh sorter useNpre) hcs ()
    exact ⟨r.1,by rw [hr]; rfl⟩

/-- No candidate makes the decoder panic, whatever the spectra hold. -/
theorem processCandidate_total (hP : Decodable P) :
    ∃ r, processCandidate P toAmp sorter useNpre front policy syncQMin fftCache known cand refined = some r := by
  have htry := tryPosition_some toAmp sorter useNpre front policy syncQMin fftCache known cand refined hP
  obtain ⟨at0,hat0⟩ := htry refined.i0
  obtain ⟨after,hafter⟩ := htry (refined.i0 + 1)
  obtain ⟨before,hbefore⟩ := htry (refined.i0 - 1)
  rw [processCandidate,hat0,Option.bind_eq_bind,Option.bind_some]
  split
  · exact ⟨_,rfl⟩
  · split
    · rw [hafter,Option.bind_some]
      split
      · exact ⟨_,rfl⟩
      · exact ⟨before,hbefore⟩
    · exact ⟨_,rfl⟩

end NoPanic

section Frames
variable {Candidate FftCache Cd0 S F : Type} [F32Sqrt F] {P : FrameParams} (toAmp : S → F × F) (sorter : SortUnstable)
  (useNpre : Bool) (front : FrontEnd P Candidate FftCache Cd0 S F) (policy : LadderPolicy P) (syncQMin : Nat)
  (fftCache : FftCache) (stable : SortStable) (toneSpacingHz : F) (score : Candidate → F) (budget : Option (Nat → Bool))
  (candidates : List Candidate)

/-- A decode of a frame is a decode of one of its candidates. -/
theorem mem_finishFrame {raw : List (DecodeResult F)} {report : BudgetReport F} {r : DecodeResult F}
    (h : r ∈ (finishFrame raw fftCache report).1) : r ∈ raw := by
  have hkeep : ∀ (results : List (DecodeResult F)) (x : DecodeResult F), ∀ y ∈ keepBest x results, y = x ∨ y ∈ results := by
    intro results x
    induction results with
    | nil => exact fun y hy => Or.inl (List.mem_singleton.1 hy)
    | cons z results ih =>
      intro y hy
      rw [keepBest] at hy
      split at hy
      · rcases List.mem_cons.1 hy with rfl | hy
        · split
          · exact Or.inl rfl
          · exact Or.inr List.mem_cons_self
        · exact Or.inr (List.mem_cons_of_mem z hy)
      · rcases List.mem_cons.1 hy with rfl | hy
        · exact Or.inr List.mem_cons_self
        · exact (ih y hy).imp_right (List.mem_cons_of_mem z)
  have hfold : ∀ (raw results : List (DecodeResult F)), ∀ y ∈ raw.foldl (fun results r => keepBest r results) results,
      y ∈ raw ∨ y ∈ results := by
    intro raw
    induction raw with
    | nil => exact fun results y hy => Or.inr hy
    | cons x raw ih =>
      intro results y hy
      rcases ih _ y hy with hy | hy
      · exact Or.inl (List.mem_cons_of_mem x hy)
      · rcases hkeep results x y hy with rfl | hy
        · exact Or.inl List.mem_cons_self
        · exact Or.inr hy
  exact (hfold raw [] r h).resolve_right List.not_mem_nil

/-- The candidates that are worked on do not depend on the policy. -/
theorem exists_work : ∃ work : List (Candidate × Refined Cd0 F),
    (∀ p ∈ work, p.1 ∈ candidates ∧ p.2 = front.refine fftCache p.1) ∧ ∀ policy,
      (decodeFrameImpl P toAmp sorter useNpre front policy syncQMin fftCache stable toneSpacingHz score budget
        candidates).1 = (finishFrame (work.filterMap fun p =>
          decodeCandidate P toAmp sorter useNpre front policy syncQMin fftCache [] p.1 p.2) fftCache .unused).1 := by
  have hranked (l : List Candidate) (hl : l ⊆ candidates) :
      ∀ p ∈ l.map fun cand => (cand,front.refine fftCache cand), p.1 ∈ candidates ∧ p.2 = front.refine fftCache p.1 := by
    intro p hp
    obtain ⟨cand,hcand,rfl⟩ := List.mem_map.1 hp
    exact ⟨hl hcand,rfl⟩
  have hpolled {α : Type} (check : Nat → Bool) (l : List α) : (polled check 0 l).1 ⊆ l := by
    intro a ha
    rw [← polled_append check 0 l]
    exact List.mem_append_left _ ha
  simp only [decodeFrameImpl]
  by_cases hft4 : P.ID = .Ft4
  · simp only [if_pos hft4]
    cases budget with
    | none =>
      refine ⟨_,hranked candidates fun _ h => h,fun policy => ?_⟩
      rw [decodeFt4,List.filterMap_map]
      split
      · rename_i hempty
        rw [List.isEmpty_iff.1 hempty]
        rfl
      · rfl
    | some check =>
      refine ⟨_,hranked (polled check 0 candidates).1 (hpolled check candidates),fun policy => ?_⟩
      rw [decodeFt4_eq,cutShort,List.filterMap_map]
      rfl
  · simp only [if_neg hft4]
    have hmem : ∀ p ∈ dedupRefinedCandidates stable toneSpacingHz (front.refine fftCache) candidates,
        p.1 ∈ candidates ∧ p.2 = front.refine fftCache p.1 := fun p hp => mem_dedupRefinedCandidates stable hp
    cases budget with
    | none =>
      refine ⟨_,hmem,fun policy => ?_⟩
      rw [decodeFst4]
      split
      · rename_i hempty
        rw [dedup_of_isEmpty stable toneSpacingHz (front.refine fftCache) candidates hempty]
        rfl
      · rfl
    | some check =>
      refine ⟨(polled check 0 (strongestFirst stable (dedupRefinedCandidates stable toneSpacingHz (front.refine fftCache)
        candidates))).1,fun p hp => hmem p ?_,fun policy => ?_⟩
      · exact (strongestFirst_perm stable _).subset (hpolled check _ hp)
      · rw [decodeFst4_eq,cutShort]
        rfl

/-- A frame reports a message once, and what it reports a candidate has earned. -/
theorem decodes_earned :
    ((decodeFrameImpl P toAmp sorter useNpre front policy syncQMin fftCache stable toneSpacingHz score budget
      candidates).1.map DecodeResult.info).Nodup ∧
    ∀ r ∈ (decodeFrameImpl P toAmp sorter useNpre front policy syncQMin fftCache stable toneSpacingHz score budget
      candidates).1, ∃ cand ∈ candidates,
        Earned toAmp front policy syncQMin fftCache [] cand (front.refine fftCache cand) r := by
  obtain ⟨work,hwork,hframe⟩ := exists_work toAmp sorter useNpre front syncQMin fftCache stable toneSpacingHz score budget
    candidates
  rw [hframe policy]
  refine ⟨by rw [finishFrame_eq]; exact nodup_bestPerKey _ _ _,fun r hr => ?_⟩
  obtain ⟨p,hp,hdecode⟩ := List.mem_filterMap.1 (mem_finishFrame fftCache hr)
  obtain ⟨hcand,hrefined⟩ := hwork p hp
  exact ⟨p.1,hcand,hrefined ▸ decodeCandidate_earned hdecode⟩

/-- What a frame of FST4 reports within a budget, it reports without one. -/
theorem budgeted_frame [IsStrictOrder F (· < ·)] (hfst4 : P.ID ≠ .Ft4) {number : F → Prop} (hieee : Ieee number)
    (hnumber : ∀ c ∈ candidates, number (front.refine fftCache c).score)
    (hdistinct : DistinctScores ((dedupRefinedCandidates stable toneSpacingHz (front.refine fftCache) candidates).filterMap
      fun p => decodeCandidate P toAmp sorter useNpre front policy syncQMin fftCache [] p.1 p.2)) (check : Nat → Bool) :
    ∀ r ∈ (decodeFrameImpl P toAmp sorter useNpre front policy syncQMin fftCache stable toneSpacingHz score (some check)
      candidates).1, r ∈ (decodeFrameImpl P toAmp sorter useNpre front policy syncQMin fftCache stable toneSpacingHz score
        none candidates).1 := by
  rw [decodeFrameImpl,decodeFrameImpl,if_neg hfst4,if_neg hfst4]
  exact (budgeted_reports fftCache hieee hnumber (fun _ _ h => syncScore_decodeCandidate h) hdistinct check).1

/-- What the candidates of a frame decode is what the frame reports. -/
theorem infos_subset {policy' : LadderPolicy P}
    (h : ∀ cand refined r, decodeCandidate P toAmp sorter useNpre front policy syncQMin fftCache [] cand refined = some r →
      ∃ r', decodeCandidate P toAmp sorter useNpre front policy' syncQMin fftCache [] cand refined = some r' ∧
        r'.info = r.info) :
    (decodeFrameImpl P toAmp sorter useNpre front policy syncQMin fftCache stable toneSpacingHz score budget
      candidates).1.map DecodeResult.info ⊆
    (decodeFrameImpl P toAmp sorter useNpre front policy' syncQMin fftCache stable toneSpacingHz score budget
      candidates).1.map DecodeResult.info := by
  obtain ⟨work,-,hframe⟩ := exists_work toAmp sorter useNpre front syncQMin fftCache stable toneSpacingHz score budget
    candidates
  rw [hframe policy,hframe policy']
  intro info hinfo
  rw [finishFrame_eq,map_key_bestPerKey,List.mem_eraseDups] at hinfo ⊢
  obtain ⟨r,hr,rfl⟩ := List.mem_map.1 hinfo
  obtain ⟨p,hp,hdecode⟩ := List.mem_filterMap.1 hr
  obtain ⟨r',hr',hsame⟩ := h p.1 p.2 r hdecode
  exact List.mem_map.2 ⟨r',List.mem_filterMap.2 ⟨p,hp,hr'⟩,hsame⟩

end Frames

section Hints
variable {Candidate FftCache Cd0 S F : Type} [F32Sqrt F] {P : FrameParams} {toAmp : S → F × F} {sorter : SortUnstable}
  {useNpre : Bool} {front : FrontEnd P Candidate FftCache Cd0 S F} {policy : LadderPolicy P} {syncQMin : Nat}
  {fftCache : FftCache} {known : List (DecodeResult F)} {cand : Candidate} {refined : Refined Cd0 F}
  {hints more : List (ApConfig P)}

theorem tryPosition_hints (h : hints <+: more) {i0 : Int} {r : DecodeResult F}
    (htry : tryPosition P toAmp sorter useNpre front { policy with ap := hints } syncQMin fftCache known cand refined i0 =
      some (some r)) :
    tryPosition P toAmp sorter useNpre front { policy with ap := more } syncQMin fftCache known cand refined i0 =
      some (some r) := by
  rw [tryPosition] at htry ⊢
  obtain ⟨nsync,hnsync,htry⟩ := Option.bind_eq_some_iff.1 htry
  rw [hnsync,Option.bind_eq_bind,Option.bind_some]
  split at htry
  · cases htry
  · rename_i hgate
    rw [if_neg hgate]
    obtain ⟨⟨x,s'⟩,hrun,hx⟩ := Option.map_eq_some_iff.1 htry
    obtain rfl : x = some r := hx
    exact congrArg (Option.map Prod.fst) (extends_decodeLadder h _ _ r s' hrun)

/-- Where a candidate is tried at one place, more hints leave it the decode it had. -/
theorem decodeCandidate_hints (h : hints <+: more) (hplace : P.ID = .Ft4 ∨ policy.osd = false) {r : DecodeResult F}
    (hr : decodeCandidate P toAmp sorter useNpre front { policy with ap := hints } syncQMin fftCache known cand refined =
      some r) :
    decodeCandidate P toAmp sorter useNpre front { policy with ap := more } syncQMin fftCache known cand refined =
      some r := by
  obtain ⟨i0,hi0,htry⟩ := processCandidate_some (Option.join_eq_some_iff.1 hr)
  have hnot : ¬(P.ID ≠ .Ft4 ∧ policy.osd = true) := fun hboth =>
    hplace.elim hboth.1 fun hosd => Bool.false_ne_true (hosd.symm.trans hboth.2)
  rw [tried,if_neg hnot] at hi0
  obtain rfl := List.mem_singleton.1 hi0
  rw [decodeCandidate,processCandidate,tryPosition_hints h htry]
  rfl

/-- A candidate that decodes still does with more hints, though at the places next to it they come first. -/
theorem decodeCandidate_hints_isSome (hP : Decodable P) (h : hints <+: more) {r : DecodeResult F}
    (hr : decodeCandidate P toAmp sorter useNpre front { policy with ap := hints } syncQMin fftCache known cand refined =
      some r) :
    ∃ r', decodeCandidate P toAmp sorter useNpre front { policy with ap := more } syncQMin fftCache known cand refined =
      some r' := by
  have htry := tryPosition_some toAmp sorter useNpre front { policy with ap := more } syncQMin fftCache known cand refined
    hP
  obtain ⟨at0,hat0⟩ := htry refined.i0
  obtain ⟨after,hafter⟩ := htry (refined.i0 + 1)
  have hnone : ¬(none : Option (DecodeResult F)).isSome = true := Bool.false_ne_true
  rw [decodeCandidate,processCandidate,hat0,Option.bind_eq_bind,Option.bind_some]
  cases at0 with
  | some r' => exact ⟨r',rfl⟩
  | none =>
    obtain ⟨i0,hi0,hfound⟩ := processCandidate_some (Option.join_eq_some_iff.1 hr)
    have hfound := tryPosition_hints h hfound
    rw [tried] at hi0
    split at hi0
    · rename_i hjitter
      rw [if_neg hnone,if_pos hjitter,hafter,Option.bind_some]
      cases after with
      | some r' => exact ⟨r',rfl⟩
      | none =>
        -- Only the place before is left.
        rcases List.mem_cons.1 hi0 with rfl | hi0
        · rw [hfound] at hat0
          cases hat0
        · rcases List.mem_cons.1 hi0 with rfl | hi0
          · rw [hfound] at hafter
            cases hafter
          · obtain rfl := List.mem_singleton.1 hi0
            rw [if_neg hnone,hfound]
            exact ⟨r,rfl⟩
    · obtain rfl := List.mem_singleton.1 hi0
      rw [hfound] at hat0
      cases hat0

end Hints

section Subtract
variable {Audio Candidate FftCache F : Type} [F32 F] {process : Candidate → FftCache → List (DecodeResult F) →
  Option (DecodeResult F)} (coarseSync : Audio → F → List Candidate) (buildFftCache : Audio → FftCache)
  (subtractDecode : Audio → DecodeResult F → Audio) (syncMin : F) (precomputedFft : Option FftCache) (audio : Audio)
  (passes : List F) (Q : Candidate → FftCache → List (DecodeResult F) → DecodeResult F → Prop)
  {rounds : List (List (DecodeResult F))} {s : SicState Audio F}

/-- The cache of a round. -/
def roundCache (passIdx : Nat) (residual : Audio) : FftCache :=
  match passIdx, precomputedFft with
  | 0, some c => c
  | _, _ => buildFftCache residual

/-- A decode of round `k` is of a candidate in what the decodes of the rounds before leave of the audio, with these
decodes known. -/
def FromRound (rounds : List (List (DecodeResult F))) (k : Nat) (r : DecodeResult F) : Prop :=
  let earlier := (rounds.take k).flatten
  let residual := earlier.foldl subtractDecode audio
  ∃ factor ∈ passes[k]?, ∃ cand ∈ coarseSync residual (syncMin * factor),
    Q cand (roundCache buildFftCache precomputedFft k residual) earlier r

/-- The rounds so far, each with its new decodes: every message once, and taken out of the audio. -/
structure SicState.Sound (rounds : List (List (DecodeResult F))) (s : SicState Audio F) : Prop where
  results : s.allResults = rounds.flatten
  residual : s.residual = s.allResults.foldl subtractDecode audio
  counted : s.budgetReport.stagesRun = rounds.length
  once : (s.allResults.map DecodeResult.info).Nodup
  decoded : ∀ k, ∀ new ∈ rounds[k]?, ∀ r ∈ new,
    FromRound coarseSync buildFftCache subtractDecode syncMin precomputedFft audio passes Q rounds k r

omit [F32 F] in
/-- The new decodes are new, and each of them is a decode of this round. -/
theorem newDecodes_new (allResults new : List (DecodeResult F)) (hall : (allResults.map DecodeResult.info).Nodup) :
    ((allResults ++ newDecodes allResults new).map DecodeResult.info).Nodup ∧ newDecodes allResults new ⊆ new := by
  have hfold : ∀ l deduped : List (DecodeResult F), ((allResults ++ deduped).map DecodeResult.info).Nodup →
      ((allResults ++ l.foldl (fun deduped r =>
        if !allResults.any (fun k => k.info = r.info) && !deduped.any (fun x => x.info = r.info) then deduped ++ [r]
        else deduped) deduped).map DecodeResult.info).Nodup ∧
      ∀ r ∈ l.foldl (fun deduped r =>
        if !allResults.any (fun k => k.info = r.info) && !deduped.any (fun x => x.info = r.info) then deduped ++ [r]
        else deduped) deduped, r ∈ deduped ∨ r ∈ l := by
    intro l
    induction l with
    | nil => exact fun deduped h => ⟨h,fun r hr => Or.inl hr⟩
    | cons x l ih =>
      intro deduped h
      rw [List.foldl_cons]
      split
      · rename_i hnew
        rw [Bool.and_eq_true,Bool.not_eq_true',Bool.not_eq_true',List.any_eq_false,List.any_eq_false] at hnew
        have hfresh : x.info ∉ (allResults ++ deduped).map DecodeResult.info := by
          intro hmem
          obtain ⟨k,hk,hinfo⟩ := List.mem_map.1 hmem
          rcases List.mem_append.1 hk with hk | hk
          · exact hnew.1 k hk (decide_eq_true hinfo)
          · exact hnew.2 k hk (decide_eq_true hinfo)
        have hnext : ((allResults ++ (deduped ++ [x])).map DecodeResult.info).Nodup := by
          rw [← List.append_assoc,List.map_append,List.map_singleton]
          exact List.Nodup.append h (List.nodup_singleton _) (List.disjoint_singleton.2 hfresh)
        obtain ⟨hnodup,hfrom⟩ := ih (deduped ++ [x]) hnext
        refine ⟨hnodup,fun r hr => ?_⟩
        rcases hfrom r hr with hr | hr
        · rcases List.mem_append.1 hr with hr | hr
          · exact Or.inl hr
          · exact Or.inr (List.mem_singleton.1 hr ▸ List.mem_cons_self)
        · exact Or.inr (List.mem_cons_of_mem x hr)
      · obtain ⟨hnodup,hfrom⟩ := ih deduped h
        exact ⟨hnodup,fun r hr => (hfrom r hr).imp_right (List.mem_cons_of_mem x)⟩
  obtain ⟨hnodup,hfrom⟩ := hfold new [] (by rwa [List.append_nil])
  exact ⟨hnodup,fun r hr => (hfrom r hr).resolve_left List.not_mem_nil⟩

variable {coarseSync buildFftCache subtractDecode syncMin precomputedFft audio passes Q}

/-- A round does not change the ones before it. -/
theorem FromRound.append {k : Nat} {r : DecodeResult F} (hk : k ≤ rounds.length)
    (h : FromRound coarseSync buildFftCache subtractDecode syncMin precomputedFft audio passes Q rounds k r)
    (new : List (DecodeResult F)) :
    FromRound coarseSync buildFftCache subtractDecode syncMin precomputedFft audio passes Q (rounds ++ [new]) k r := by
  rw [FromRound] at h ⊢
  rwa [List.take_append_of_le_length hk]

/-- What a round finds is a round of the run. -/
theorem SicState.Sound.append (hs : s.Sound coarseSync buildFftCache subtractDecode syncMin precomputedFft audio passes Q
    rounds) {new : List (DecodeResult F)} {s' : SicState Audio F}
    (hresults : s'.allResults = s.allResults ++ new) (hresidual : s'.residual = new.foldl subtractDecode s.residual)
    (hcounted : s'.budgetReport.stagesRun = s.budgetReport.stagesRun + 1)
    (honce : (s'.allResults.map DecodeResult.info).Nodup)
    (hnew : ∀ r ∈ new,
      FromRound coarseSync buildFftCache subtractDecode syncMin precomputedFft audio passes Q rounds rounds.length r) :
    s'.Sound coarseSync buildFftCache subtractDecode syncMin precomputedFft audio passes Q (rounds ++ [new]) where
  results := by rw [hresults,hs.results,List.flatten_append,List.flatten_singleton]
  residual := by rw [hresidual,hresults,hs.residual,List.foldl_append]
  counted := by rw [hcounted,hs.counted,List.length_append,List.length_singleton]
  once := honce
  decoded := by
    intro k l hl r hr
    rcases Nat.lt_or_ge k rounds.length with hk | hk
    · rw [Option.mem_def,List.getElem?_append_left hk] at hl
      exact (hs.decoded k l hl r hr).append hk.le new
    · rw [Option.mem_def,List.getElem?_append_right hk,List.getElem?_singleton] at hl
      split at hl
      · rename_i hlast
        obtain rfl := Option.some.inj hl
        obtain rfl : k = rounds.length := Nat.le_antisymm (Nat.le_of_sub_eq_zero hlast) hk
        exact (hnew r hr).append le_rfl new
      · cases hl

/-- One round. -/
theorem sound_sicRound (hprocess : ∀ cand cache known r, process cand cache known = some r → Q cand cache known r)
    {factor : F} (hfactor : passes[rounds.length]? = some factor)
    (hs : s.Sound coarseSync buildFftCache subtractDecode syncMin precomputedFft audio passes Q rounds) :
    let started := { s with budgetReport := { s.budgetReport with stagesRun := s.budgetReport.stagesRun + 1 } }
    ∃ new, (sicRound coarseSync buildFftCache process subtractDecode syncMin precomputedFft rounds.length factor
      started).Sound coarseSync buildFftCache subtractDecode syncMin precomputedFft audio passes Q (rounds ++ [new]) := by
  intro started
  cases hempty : (coarseSync s.residual (syncMin * factor)).isEmpty with
  | true =>
    refine ⟨[],?_⟩
    simp only [sicRound,started,hempty,if_true]
    exact hs.append (List.append_nil _).symm rfl rfl hs.once fun r hr => absurd hr List.not_mem_nil
  | false =>
    simp only [sicRound,started,hempty]
    refine ⟨_,hs.append rfl rfl rfl (newDecodes_new _ _ hs.once).1 fun r hr => ?_⟩
    obtain ⟨cand,hcand,hdecode⟩ := List.mem_filterMap.1 ((newDecodes_new _ _ hs.once).2 hr)
    have hearlier : (rounds.take rounds.length).flatten = s.allResults := by rw [List.take_length,hs.results]
    rw [FromRound,hearlier,← hs.residual]
    exact ⟨factor,hfactor,cand,hcand,hprocess _ _ _ _ hdecode⟩

/-- A run of rounds, however it is cut. -/
theorem sound_sicRounds (hprocess : ∀ cand cache known r, process cand cache known = some r → Q cand cache known r)
    (budget : Option (Nat → Bool)) {rest : List F} (hrest : passes.drop rounds.length = rest)
    (hs : s.Sound coarseSync buildFftCache subtractDecode syncMin precomputedFft audio passes Q rounds) :
    ∃ rounds', rounds'.length ≤ rounds.length + rest.length ∧
      (sicRounds coarseSync buildFftCache process subtractDecode syncMin precomputedFft budget
        (rest.zipIdx rounds.length) s).Sound coarseSync buildFftCache subtractDecode syncMin precomputedFft audio passes Q
          rounds' := by
  induction rest generalizing s rounds with
  | nil => exact ⟨rounds,Nat.le_refl _,hs⟩
  | cons factor rest ih =>
    have hfactor : passes[rounds.length]? = some factor := by rw [← List.head?_drop,hrest,List.head?_cons]
    have hnext : passes.drop (rounds.length + 1) = rest := by rw [← List.tail_drop,hrest,List.tail_cons]
    rw [List.zipIdx_cons,sicRounds]
    split
    · exact ⟨rounds,Nat.le_add_right _ _,hs.results,hs.residual,hs.counted,hs.once,hs.decoded⟩
    · obtain ⟨new,hround⟩ := sound_sicRound hprocess hfactor hs
      have hlength : (rounds ++ [new]).length = rounds.length + 1 := by rw [List.length_append,List.length_singleton]
      obtain ⟨rounds',hle,hrun⟩ := ih (hlength ▸ hnext) hround
      rw [hlength] at hle hrun
      exact ⟨rounds',by rw [List.length_cons]; omega,hrun⟩

end Subtract

section Reports
variable {Candidate FftCache Cd0 S F : Type} [F32Sqrt F]

/-- The message of a report goes out as the tones of the word that was decoded, which the CRC accepts, and so does what
the report scrambles back to. -/
def SentAgain (P : FrameParams) (r : DecodeResult F) : Prop :=
  ∃ word tones, IsBits P.fec.params.K word ∧ verifyInfo word = true ∧ P.infoToTones word = some tones ∧
    messageToTones P (r.info.take 77) = some tones ∧ P.infoToTones (descrambleInfo P r.info) = some tones

theorem Earned.sentAgain (p : MessageProtocol) {toAmp : S → F × F} {front : FrontEnd p.params Candidate FftCache Cd0 S F}
    {policy : LadderPolicy p.params} {syncQMin : Nat} {fftCache : FftCache} {known : List (DecodeResult F)} {cand : Candidate}
    {refined : Refined Cd0 F} {r : DecodeResult F} (h : Earned toAmp front policy syncQMin fftCache known cand refined r) :
    SentAgain p.params r := by
  obtain ⟨i0,-,nsync,-,-,hcredible,-⟩ := h
  obtain ⟨word,hbits,hverify,hinfo⟩ := hcredible.word
  obtain ⟨tones,htones⟩ := infoToTones_some p.decodable hbits
  obtain ⟨hsent,htwice⟩ := messageToTones_of_verified p.carries hbits hverify
  exact ⟨word,tones,hbits,hverify,htones,by rw [hinfo,hsent,htones],by rw [hinfo,htwice,htones]⟩

/-- Whatever the spectra, the hints, the filter and the budget are, a frame reports every message once. Each report was
read from a word that the CRC accepts, at a place where the candidate is tried, met the error ceiling of its rung and
the filter; sent again, it has the tones of that word. -/
theorem frame_reports_sound (p : GenericPipelineProtocol) (toAmp : S → F × F) (sorter : SortUnstable) (useNpre : Bool)
    (front : FrontEnd p.params Candidate FftCache Cd0 S F) (policy : LadderPolicy p.params) (syncQMin : Nat) (fftCache : FftCache)
    (stable : SortStable) (toneSpacingHz : F) (score : Candidate → F) (budget : Option (Nat → Bool))
    (candidates : List Candidate) :
    let frame := decodeFrameImpl p.params toAmp sorter useNpre front policy syncQMin fftCache stable toneSpacingHz score
      budget candidates
    (frame.1.map DecodeResult.info).Nodup ∧ ∀ r ∈ frame.1, SentAgain p.params r ∧
      ∃ cand ∈ candidates, Earned toAmp front policy syncQMin fftCache [] cand (front.refine fftCache cand) r := by
  obtain ⟨honce,hearned⟩ := decodes_earned toAmp sorter useNpre front policy syncQMin fftCache stable toneSpacingHz score
    budget candidates
  refine ⟨honce,fun r hr => ?_⟩
  obtain ⟨cand,hcand,h⟩ := hearned r hr
  exact ⟨Earned.sentAgain p.message h,cand,hcand,h⟩

/-- So does a run of rounds with subtraction, however the budget cuts it. A decode of a round was earned by a candidate
of what the rounds before left of the audio, and is taken out of it as the tones that its message is sent with. More than
three rounds are not there. -/
theorem subtraction_reports_sound {Audio : Type} (p : GenericPipelineProtocol) (toAmp : S → F × F)
    (sorter : SortUnstable) (useNpre : Bool) (front : FrontEnd p.params Candidate FftCache Cd0 S F)
    (policy : LadderPolicy p.params) (syncQMin : Nat) (coarseSync : Audio → F → List Candidate)
    (buildFftCache : Audio → FftCache) (subtractTones : Audio → List UInt8 → F → F → Audio) (syncMin : F)
    (precomputedFft : Option FftCache) (audio : Audio) (budget : Option (Nat → Bool)) (maxRounds : Nat) :
    (decodeFrameSubtract coarseSync buildFftCache
      (fun cand fftCache known => decodeCandidate p.params toAmp sorter useNpre front { policy with ap := [] } syncQMin
        fftCache known cand (front.refine fftCache cand))
      (subtractDecode p.params subtractTones) syncMin precomputedFft audio budget maxRounds).elim (3 < maxRounds) fun run =>
      (run.1.map DecodeResult.info).Nodup ∧
      ∃ rounds : List (List (DecodeResult F)), run.1 = rounds.flatten ∧ run.2.stagesRun = rounds.length ∧
        rounds.length ≤ maxRounds ∧ ∀ k, ∀ new ∈ rounds[k]?, ∀ r ∈ new, SentAgain p.params r ∧
          FromRound coarseSync buildFftCache (subtractDecode p.params subtractTones) syncMin precomputedFft audio
            ([1.0,0.75,0.5].take maxRounds) (fun cand fftCache known => Earned toAmp front { policy with ap := [] } syncQMin
              fftCache known cand (front.refine fftCache cand)) rounds k r ∧
          ∃ tones, messageToTones p.params (r.info.take 77) = some tones ∧
            ∀ residual, subtractDecode p.params subtractTones residual r =
              subtractTones residual tones r.freqHz r.dtSec := by
  rw [decodeFrameSubtract]
  dsimp only
  split
  · have hstart : SicState.Sound coarseSync buildFftCache (subtractDecode p.params subtractTones) syncMin precomputedFft
        audio ([1.0,0.75,0.5].take maxRounds) (fun cand fftCache known => Earned toAmp front { policy with ap := [] }
          syncQMin fftCache known cand (front.refine fftCache cand)) [] (⟨audio,[],.unused⟩ : SicState Audio F) :=
      ⟨rfl,rfl,rfl,List.nodup_nil,fun k new hnew => by cases hnew⟩
    have hprocess (cand : Candidate) (fftCache : FftCache) (known : List (DecodeResult F)) (r : DecodeResult F)
        (hr : decodeCandidate p.params toAmp sorter useNpre front { policy with ap := [] } syncQMin fftCache known cand
          (front.refine fftCache cand) = some r) :
        Earned toAmp front { policy with ap := [] } syncQMin fftCache known cand (front.refine fftCache cand) r :=
      decodeCandidate_earned hr
    obtain ⟨rounds,hle,hrun⟩ := sound_sicRounds hprocess budget rfl hstart
    rw [List.length_nil,List.drop_zero,Nat.zero_add] at hle
    refine ⟨hrun.once,rounds,hrun.results,hrun.counted,hle.trans (List.length_take_le _ _),fun k new hnew r hr => ?_⟩
    obtain ⟨factor,-,cand,-,hearned⟩ := hrun.decoded k new hnew r hr
    have hsent : SentAgain p.params r := Earned.sentAgain p.message hearned
    refine ⟨hsent,hrun.decoded k new hnew r hr,?_⟩
    obtain ⟨word,tones,-,-,-,hmessage,hback⟩ := hsent
    exact ⟨tones,hmessage,fun residual => by rw [subtractDecode,hback]; rfl⟩
  · rename_i hmany
    exact Nat.lt_of_not_le hmany

/-- Whatever the spectra, the hints and the filter are, no candidate makes the decoder panic: no depth of the soft
values, no rung and no place beside the candidate reads or writes out of range. -/
theorem candidate_never_panics (p : GenericPipelineProtocol) (toAmp : S → F × F) (sorter : SortUnstable) (useNpre : Bool)
    (front : FrontEnd p.params Candidate FftCache Cd0 S F) (policy : LadderPolicy p.params) (syncQMin : Nat) (fftCache : FftCache)
    (known : List (DecodeResult F)) (cand : Candidate) (refined : Refined Cd0 F) :
    (processCandidate p.params toAmp sorter useNpre front policy syncQMin fftCache known cand refined).isSome :=
  Option.isSome_iff_exists.2
    (processCandidate_total toAmp sorter useNpre front policy syncQMin fftCache known cand refined p.message.decodable)

/-- Hints that are tried behind others take nothing away: a candidate that decodes still does, and where a candidate is
tried at one place only, every message that a frame reports without them it reports with them. -/
theorem hints_only_add (p : GenericPipelineProtocol) (toAmp : S → F × F) (sorter : SortUnstable) (useNpre : Bool)
    (front : FrontEnd p.params Candidate FftCache Cd0 S F) (policy : LadderPolicy p.params) (hints more : List (ApConfig p.params))
    (syncQMin : Nat) (fftCache : FftCache) (stable : SortStable) (toneSpacingHz : F) (score : Candidate → F)
    (budget : Option (Nat → Bool)) (candidates : List Candidate) :
    (∀ known cand refined,
      (decodeCandidate p.params toAmp sorter useNpre front { policy with ap := hints } syncQMin fftCache known cand
        refined).isSome →
      (decodeCandidate p.params toAmp sorter useNpre front { policy with ap := hints ++ more } syncQMin fftCache known cand
        refined).isSome) ∧
    (p = .Ft4 ∨ policy.osd = false →
      (decodeFrameImpl p.params toAmp sorter useNpre front { policy with ap := hints } syncQMin fftCache stable
        toneSpacingHz score budget candidates).1.map DecodeResult.info ⊆
      (decodeFrameImpl p.params toAmp sorter useNpre front { policy with ap := hints ++ more } syncQMin fftCache stable
        toneSpacingHz score budget candidates).1.map DecodeResult.info) := by
  have hmore : hints <+: hints ++ more := List.prefix_append hints more
  constructor
  · intro known cand refined hsome
    obtain ⟨r,hr⟩ := Option.isSome_iff_exists.1 hsome
    obtain ⟨r',hr'⟩ := decodeCandidate_hints_isSome p.message.decodable hmore hr
    exact Option.isSome_iff_exists.2 ⟨r',hr'⟩
  · intro hplace
    have hplace' : p.params.ID = .Ft4 ∨ policy.osd = false := hplace.imp_left fun h => by rw [h]; rfl
    exact infos_subset toAmp sorter useNpre front _ syncQMin fftCache stable toneSpacingHz score budget candidates
      fun cand refined r hr => ⟨r,decodeCandidate_hints hmore hplace' hr,rfl⟩

end Reports

end MfskCore.Engine
