import Mathlib.Algebra.Ring.Int.Defs
import Mathlib.Data.List.Pairwise

/-! The JT65 scan (`jt65/mod.rs`): the candidates of the coarse search are decoded in order, and a
decode is dropped when `scan_dedup_match_cross` finds it among those already reported. Frequencies
are of any type with the operations the source uses on `f32`. -/
namespace MfskCore.Jt65

variable {α F M S : Type}

/-- A hypothesis of the coarse search, in samples of the buffer it was given. -/
structure SyncCandidate (F : Type) where
  startSample : Nat
  freqHz : F
  score : F

/-- One decode. `dtSamples` is the numerator of `dt_sec`, which divides it by the sample rate. -/
structure Jt65Result (M F S : Type) where
  message : M
  freqHz : F
  startSample : Nat
  dtSamples : Int
  snrDb : S

/-- Silence in front for a frame that starts up to `want` samples before the nominal start. -/
def padForEarlyFrames [Zero α] (audio : List α) (want nominalStart : Nat) : Option (List α × Nat) :=
  let pad := want - nominalStart
  if pad = 0 then none else some (List.replicate pad 0 ++ audio,pad)

/-- What the duplicate test reads of an item. -/
structure ScanView (T M F : Type) where
  msg : T → M
  freqHz : T → F
  startSample : T → Int

section Scan
variable [DecidableEq M] [Sub F] [LE F] [DecidableLE F] [OfNat F 2] (absF : F → F) (nsps pad nominalStart : Nat)

def scanDedupMatchCross {A B : Type} (seen : List A) (cand : B) (seenView : ScanView A M F)
    (candView : ScanView B M F) (freqTolHz : F) (timeTolSamples : Int) : Bool :=
  seen.any fun prev =>
    seenView.msg prev == candView.msg cand &&
      absF (seenView.freqHz prev - candView.freqHz cand) ≤ freqTolHz &&
      ((seenView.startSample prev - candView.startSample cand).natAbs : Int) ≤ timeTolSamples

def resultView : ScanView (Jt65Result M F S) M F := ⟨(·.message),(·.freqHz),fun r => r.startSample⟩

def attemptView : ScanView (M × F × Int) M F := ⟨(·.1),(·.2.1),(·.2.2)⟩

/-- One candidate with the outcome of its decode. Candidates are in samples of the padded buffer. -/
def scanStep (seen : List (Jt65Result M F S)) :
    SyncCandidate F × Option (M × S) → List (Jt65Result M F S)
  | (_, none) => seen
  | (c, some (msg, snrDb)) =>
    let dup := scanDedupMatchCross absF seen (msg,c.freqHz,(c.startSample : Int)) resultView attemptView 2 nsps
    if dup then seen
    else seen ++ [{
      message := msg
      freqHz := c.freqHz
      startSample := c.startSample - pad
      dtSamples := (c.startSample : Int) - nominalStart
      snrDb := snrDb }]

def scanCandidates (attempts : List (SyncCandidate F × Option (M × S))) : List (Jt65Result M F S) :=
  attempts.foldl (scanStep absF nsps pad nominalStart) []

/-- `want` is the early tolerance in samples, `coarseSearch` and `decodeAt` the search and the decode
of one candidate, both on the padded buffer. -/
def decodeScanInner [Zero α] (audio : List α) (want : Nat)
    (coarseSearch : List α → Nat → List (SyncCandidate F))
    (decodeAt : List α → Nat → F → Option (M × S)) : List (Jt65Result M F S) :=
  let padding := padForEarlyFrames audio want nominalStart
  let (audio, pad) := padding.getD (audio,0)
  let nominalStart := nominalStart + pad
  let cands := coarseSearch audio nominalStart
  scanCandidates absF nsps pad nominalStart (cands.map fun c => (c,decodeAt audio c.startSample c.freqHz))

/-- Two decodes of one transmission: the same message, 2 Hz and a symbol apart at most. -/
def SameTransmission (r r' : Jt65Result M F S) : Prop :=
  r.message = r'.message ∧ absF (r.freqHz - r'.freqHz) ≤ 2 ∧ (r.dtSamples - r'.dtSamples).natAbs ≤ nsps

/-- No two results are of one transmission. -/
def NoDuplicates (results : List (Jt65Result M F S)) : Prop :=
  results.Pairwise fun r r' => ¬SameTransmission absF nsps r r'

/-- Candidates that are 2 Hz and a symbol apart at most stay a symbol apart when the earlier of them
is moved out of the padded buffer. -/
def PadKeepsPairs (cands : List (SyncCandidate F)) : Prop :=
  cands.Pairwise fun c c' =>
    absF (c.freqHz - c'.freqHz) ≤ 2 → ((c.startSample : Int) - c'.startSample).natAbs ≤ nsps →
      (((c.startSample - pad : Nat) : Int) - c'.startSample).natAbs ≤ nsps

section Soundness
variable {absF nsps pad nominalStart} {seen : List (Jt65Result M F S)} {cands : List (SyncCandidate F)}

private theorem dup_iff (msg : M) (freqHz : F) (time : Int) :
    scanDedupMatchCross absF seen (msg,freqHz,time) resultView attemptView 2 nsps = true ↔
      ∃ prev ∈ seen, prev.message = msg ∧ absF (prev.freqHz - freqHz) ≤ 2 ∧
        ((prev.startSample : Int) - time).natAbs ≤ nsps := by
  simp only [scanDedupMatchCross,resultView,attemptView,List.any_eq_true,Bool.and_eq_true,beq_iff_eq,
    and_assoc,decide_eq_true_eq,Int.ofNat_le]
  refine exists_congr fun prev => and_congr_right fun _ => and_congr_right fun _ => and_congr_left fun _ => ?_
  exact decide_eq_true_iff

/-- A result against the candidates still to come. -/
private def Watches (absF : F → F) (nsps nominalStart : Nat) (r : Jt65Result M F S) (c : SyncCandidate F) : Prop :=
  absF (r.freqHz - c.freqHz) ≤ 2 → (r.dtSamples - ((c.startSample : Int) - nominalStart)).natAbs ≤ nsps →
    ((r.startSample : Int) - c.startSample).natAbs ≤ nsps

private theorem noDuplicates_foldl (outcomes : List (Option (M × S)))
    (hpairs : PadKeepsPairs absF nsps pad cands)
    (hwatch : ∀ r ∈ seen, ∀ c ∈ cands, Watches absF nsps nominalStart r c)
    (hseen : NoDuplicates absF nsps seen) :
    NoDuplicates absF nsps ((cands.zip outcomes).foldl (scanStep absF nsps pad nominalStart) seen) := by
  induction cands generalizing outcomes seen with
  | nil => exact hseen
  | cons c cands ih =>
    obtain ⟨hhead,htail⟩ := List.pairwise_cons.1 hpairs
    have hrest : ∀ r ∈ seen, ∀ c ∈ cands, Watches absF nsps nominalStart r c := fun r hr c' hc' =>
      hwatch r hr c' (List.mem_cons_of_mem c hc')
    rcases outcomes with _ | ⟨_ | ⟨msg,snrDb⟩,outcomes⟩
    · exact hseen
    · exact ih outcomes htail hrest hseen
    · rw [List.zip_cons_cons,List.foldl_cons,scanStep]
      split
      · exact ih outcomes htail hrest hseen
      · rename_i hdup
        refine ih outcomes htail ?_ ?_
        · intro r hr c' hc' hfreq htime
          rcases List.mem_append.1 hr with hr | hr
          · exact hrest r hr c' hc' hfreq htime
          · obtain rfl := List.mem_singleton.1 hr
            refine hhead c' hc' hfreq ?_
            have hsame : (c.startSample : Int) - nominalStart - (c'.startSample - nominalStart) =
                c.startSample - c'.startSample := by omega
            rwa [hsame] at htime
        · refine List.pairwise_append.2 ⟨hseen,List.pairwise_singleton _ _,?_⟩
          rintro r hr r' hr' ⟨hmsg,hfreq,htime⟩
          obtain rfl := List.mem_singleton.1 hr'
          exact hdup ((dup_iff _ _ _).2 ⟨r,hr,hmsg,hfreq,hwatch r hr c List.mem_cons_self hfreq htime⟩)

theorem noDuplicates_scan (outcomes : List (Option (M × S))) (hpairs : PadKeepsPairs absF nsps pad cands) :
    NoDuplicates absF nsps (scanCandidates absF nsps pad nominalStart (cands.zip outcomes)) :=
  noDuplicates_foldl outcomes hpairs (fun _ hr => absurd hr List.not_mem_nil) List.Pairwise.nil

/-- Any candidates of a list can be the ones that decode. -/
private theorem decodes_only (absF : F → F) (nsps pad nominalStart : Nat)
    {chosen : List (SyncCandidate F)} (hchosen : chosen.Sublist cands) (decoded : M × S) :
    ∃ outcomes : List (Option (M × S)), outcomes.length = cands.length ∧
      ∀ seen, (cands.zip outcomes).foldl (scanStep absF nsps pad nominalStart) seen =
        (chosen.map fun c => (c,some decoded)).foldl (scanStep absF nsps pad nominalStart) seen := by
  induction hchosen with
  | slnil => exact ⟨[],rfl,fun _ => rfl⟩
  | cons c _ ih =>
    obtain ⟨outcomes,hlen,hscan⟩ := ih
    refine ⟨none :: outcomes,congrArg (· + 1) hlen,fun seen => ?_⟩
    exact hscan seen
  | cons_cons c _ ih =>
    obtain ⟨outcomes,hlen,hscan⟩ := ih
    refine ⟨some decoded :: outcomes,congrArg (· + 1) hlen,fun seen => ?_⟩
    exact hscan (scanStep absF nsps pad nominalStart seen (c,some decoded))

theorem padKeepsPairs_of_scan [Inhabited M] [Inhabited S]
    (h : ∀ outcomes : List (Option (M × S)), outcomes.length = cands.length →
      NoDuplicates absF nsps (scanCandidates absF nsps pad nominalStart (cands.zip outcomes))) :
    PadKeepsPairs absF nsps pad cands := by
  refine List.pairwise_iff_forall_sublist.2 ?_
  intro c c' hsub hfreq htime
  by_contra hfar
  obtain ⟨outcomes,hlen,hscan⟩ := decodes_only absF nsps pad nominalStart hsub (default : M × S)
  have hdistinct := h outcomes hlen
  rw [scanCandidates,hscan] at hdistinct
  change NoDuplicates absF nsps (scanStep absF nsps pad nominalStart
    [⟨_,c.freqHz,c.startSample - pad,(c.startSample : Int) - nominalStart,_⟩] (c',some default)) at hdistinct
  rw [scanStep,if_neg] at hdistinct
  · obtain ⟨hpair,-⟩ := List.pairwise_cons.1 hdistinct
    refine hpair _ (List.mem_singleton_self _) ⟨rfl,hfreq,?_⟩
    have hsame : (c.startSample : Int) - nominalStart - (c'.startSample - nominalStart) =
        c.startSample - c'.startSample := by omega
    rwa [hsame]
  · rintro hdup
    obtain ⟨prev,hprev,-,-,hclose⟩ := (dup_iff _ _ _).1 hdup
    obtain rfl := List.mem_singleton.1 hprev
    exact hfar hclose

end Soundness

/-- Whether a scan can report one transmission twice is decided by the pad. -/
theorem scan_distinct_iff [Inhabited M] [Inhabited S] [Zero α] (audio : List α) (want : Nat)
    (coarseSearch : List α → Nat → List (SyncCandidate F)) :
    let (buf,pad) := (padForEarlyFrames audio want nominalStart).getD (audio,0)
    let cands := coarseSearch buf (nominalStart + pad)
    ((∀ outcomes : List (Option (M × S)), outcomes.length = cands.length →
        NoDuplicates absF nsps (scanCandidates absF nsps pad (nominalStart + pad) (cands.zip outcomes))) ↔
      PadKeepsPairs absF nsps pad cands) ∧
    (PadKeepsPairs absF nsps pad cands → ∀ decodeAt : List α → Nat → F → Option (M × S),
      NoDuplicates absF nsps (decodeScanInner absF nsps nominalStart audio want coarseSearch decodeAt)) := by
  refine ⟨⟨padKeepsPairs_of_scan,fun hpairs outcomes _ => noDuplicates_scan outcomes hpairs⟩,?_⟩
  intro hpairs decodeAt
  unfold decodeScanInner
  dsimp only
  rw [List.map_prod_left_eq_zip]
  exact noDuplicates_scan _ hpairs

/-- With the default tolerance of 7.62 s, one transmission found on two neighbouring rows of the
coarse search is reported twice. -/
theorem early_pad_reports_twice :
    ¬NoDuplicates (fun f : Int => (f.natAbs : Int)) 4460
      (decodeScanInner (fun f : Int => (f.natAbs : Int)) 4460 0 ([] : List Int) 91440
        (fun _ _ => [⟨91430,1270,9⟩,⟨92545,1270,8⟩]) (fun _ _ _ => some ("CQ K1ABC FN42",-10))) := by
  intro h
  refine List.rel_of_pairwise_cons h (List.mem_singleton_self _) ⟨rfl,?_,?_⟩
  · decide
  · decide

end Scan

end MfskCore.Jt65
