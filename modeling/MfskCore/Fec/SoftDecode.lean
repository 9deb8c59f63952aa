import MfskCore.Fec.BpReuse
import MfskCore.Fec.OsdSearch

/-! The stages of soft decoding (`fec/ldpc/mod.rs`, `fec/ldpc240_101/mod.rs`, `fec/ldpc_128_90/mod.rs`) and the
hard errors each reports. -/
namespace MfskCore.Fec
open Rust Library BitRow

structure FecResult where
  info : List UInt8
  hardErrors : Nat
  iterations : Nat
  deriving DecidableEq

/-- The options with the depth of ordered-statistics decoding. -/
structure DecodeOpts (F : Type) extends FecOpts F where
  osdDepth : Nat

def BpResult.fecResult (r : BpResult) : FecResult := ⟨r.info,r.hardErrors,r.iterations⟩

def OsdResult.fecResult (r : OsdResult) : FecResult := ⟨r.info,r.hardErrors,0⟩

section Dispatch
variable {F : Type} [F32 F] (sorter : SortUnstable) (llr : List F) (verify : Option (List UInt8 → Bool))

def osdDecodeDeep (ndeep : Nat) : Option OsdResult :=
  osdDecodeGeneric Ldpc174_91Params sorter llr ndeep Ldpc174_91Params.K verify false

def osdDecodeDeep4 (k4Limit : Nat) : Option OsdResult :=
  osdDecodeGeneric Ldpc174_91Params sorter llr 4 k4Limit verify false

def FST4_NPRE_NTHETA : Nat := 12

def FST4_NPRE_NTAU : Nat := 14

/-- `fst4_osd_decode_dispatch`. A diagnostic build can turn the pruned search off. -/
def fst4OsdDecode (useNpre : Bool) (ndeep : Nat) : Option OsdResult :=
  if !useNpre then osdDecodeGeneric Ldpc240_101Params sorter llr ndeep Ldpc240_101Params.K verify false
  else match ndeep with
    | 2 => osdDecodeNpreGeneric Ldpc240_101Params sorter llr FST4_NPRE_NTHETA 0 false verify
    | 3 => osdDecodeNpreGeneric Ldpc240_101Params sorter llr FST4_NPRE_NTHETA FST4_NPRE_NTAU true verify
    | n => osdDecodeGeneric Ldpc240_101Params sorter llr n Ldpc240_101Params.K verify false

end Dispatch

namespace LdpcCodec
variable {F : Type} [F32 F] (codec : LdpcCodec) (sorter : SortUnstable) (useNpre : Bool)

/-- Ordered-statistics decoding of the observations themselves. -/
def osdStage (llr : List F) (opts : DecodeOpts F) : Option OsdResult := match codec with
  | Ldpc174_91 =>
    if opts.osdDepth ≥ 4 then osdDecodeDeep4 sorter llr opts.verifyInfo 30
    else osdDecodeDeep sorter llr opts.verifyInfo (min opts.osdDepth 3)
  | Ldpc240_101 => fst4OsdDecode sorter llr opts.verifyInfo useNpre (min opts.osdDepth 3)
  | Ldpc128_90 =>
    osdDecodeGeneric Ldpc128_90Params sorter llr (min opts.osdDepth 3) Ldpc128_90Params.K opts.verifyInfo false

/-- The retry on the running sum of the estimates, which one codec makes. -/
def retryStage (zsum : List F) (opts : DecodeOpts F) (apMask : Option (List Bool)) : Option OsdResult :=
  match codec, apMask with
  | Ldpc240_101, none => fst4OsdDecode sorter zsum opts.verifyInfo useNpre (min opts.osdDepth 3)
  | _, _ => none

/-- `decode_soft`, which panics only where the lengths are not those of the code. -/
def decodeSoft (llr : List F) (opts : DecodeOpts F) : Option (Option FecResult) :=
  (codec.prepareApLlr llr opts.toFecOpts).map fun (llrArr, apMask) =>
    match bpDecodeGenericKind codec.params llrArr apMask opts.bpMaxIter opts.verifyInfo opts.bpKind with
    | some r => some r.fecResult
    | none =>
      if opts.osdDepth = 0 then none
      else match codec.osdStage sorter useNpre llrArr opts with
        | some r => some r.fecResult
        | none =>
          (codec.retryStage sorter useNpre (bpLlrZsum codec.params llrArr 2) opts apMask).map OsdResult.fecResult

/-- `decode_soft_pooled`, which MSK144's codec does not have. The retry borrows the pool again. -/
def decodeSoftPooled (llr : List F) (opts : DecodeOpts F) (scratch : BpScratch F F) :
    Option (Option FecResult × BpScratch F F) :=
  (codec.prepareApLlr llr opts.toFecOpts).map fun (llrArr, apMask) =>
    let (bp, scratch) := bpDecodeGenericKindWithScratch codec.params scratch llrArr apMask opts.bpMaxIter
      opts.verifyInfo opts.bpKind
    match bp with
    | some r => (some r.fecResult,scratch)
    | none =>
      if opts.osdDepth = 0 then (none,scratch)
      else match codec.osdStage sorter useNpre llrArr opts with
        | some r => (some r.fecResult,scratch)
        | none =>
          if codec = Ldpc240_101 ∧ apMask.isNone then
            let (zsum, scratch) := bpLlrZsumWithScratch codec.params scratch llrArr 2
            ((codec.retryStage sorter useNpre zsum opts apMask).map OsdResult.fecResult,scratch)
          else (none,scratch)

end LdpcCodec

/-- The positions where a word differs from the hard decisions. -/
def hardErrorsOf {F : Type} [F32 F] (P : LdpcParams) (llr : List F) (c : List UInt8) : Nat :=
  (List.range P.N).countP fun i => (c.getD i 0 == 1) != hard llr i

/-- The first positions, in the order of reliability, whose columns of the generator are independent. -/
noncomputable def mostReliableBasis {F : Type} [F32 F] (P : LdpcParams) (sorter : SortUnstable) (llr : List F) :
    List Nat :=
  greedyBasis (ZMod 2) (column P.K P.generatorMatrix) (reliabilityOrder P sorter llr)

/-- The order up to which FST4's search tries every word of the code. From order two on it prunes, the first
candidate apart. -/
def unprunedOrder (useNpre : Bool) (ndeep : Nat) : Nat := if useNpre && decide (2 ≤ ndeep) then 0 else ndeep

section Osd
variable {F : Type} [F32 F] {P : LdpcParams} {sorter : SortUnstable} {llr : List F} {b : OsdBasis}
  {verify : Option (List UInt8 → Bool)}

/-- A search over words with rows added finds an encoding that passes, and counts its errors against the
observations it was given. -/
theorem found_encoding (hN : P.N = P.K + P.M) (hmax : P.N ≤ 256) (h : b.Sound P) {l : List BitRow}
    (hl : ∀ cp ∈ l, ∃ S, (∀ s ∈ S, s < P.K) ∧ cp = applyFlips (b.gPacked P) (b.orderZero P llr) S)
    {best : BestCandidate F} (hbest : l.foldl (b.tryAndUpdate P llr verify) none = some best) :
    let r := best.result P llr
    r.codeword = P.ldpcEncodeGeneric r.info ∧ r.hardErrors = hardErrorsOf P llr r.codeword ∧
      passes verify r.info = true ∧ IsBits P.K r.info := by
  rw [foldl_tryAndUpdate,Option.map_eq_some_iff] at hbest
  obtain ⟨cp,hcp,rfl⟩ := hbest
  obtain ⟨hmem,hok⟩ := searchBest_mem _ _ hcp
  obtain ⟨S,hS,rfl⟩ := hl cp hmem
  have hc := (OsdBasis.combines_orderZero (b := b) hmax llr).flips hmax hS
  exact ⟨(hc.encoding h hN).2,rfl,hok,(hc.encoding h hN).1⟩

theorem osdDecodeGeneric_some (hN : P.N = P.K + P.M) (hmax : P.N ≤ 256) {ndeep k4Limit : Nat} {k4Tail : Bool}
    {r : OsdResult} (hr : osdDecodeGeneric P sorter llr ndeep k4Limit verify k4Tail = some r) :
    r.codeword = P.ldpcEncodeGeneric r.info ∧ r.hardErrors = hardErrorsOf P llr r.codeword ∧
      passes verify r.info = true ∧ IsBits P.K r.info := by
  obtain ⟨b,hb,hsound,_⟩ := osdSetup_sound P sorter llr hN
  unfold osdDecodeGeneric at hr
  rw [hb] at hr
  simp only [Option.bind_eq_bind,Option.bind_some,Option.bind_eq_some_iff] at hr
  obtain ⟨best,hbest,hresult⟩ := hr
  obtain rfl := Option.some.inj hresult
  exact found_encoding hN hmax hsound (fun cp hcp => flips_of_mem_osdCandidates _ hcp) hbest

private theorem mem_buildNpre2Table {k ntau : Nat} {parity : Nat → Nat → Bool} {entry : Nat × Nat × Nat}
    (h : entry ∈ buildNpre2Table k ntau parity) : entry.2.1 < k ∧ entry.2.2 < entry.2.1 := by
  let key (i1 i2 : Nat) : Nat := npreKey ntau (parity i1) ^^^ npreKey ntau (parity i2)
  have hinner (i1 : Nat) : ∀ n ≤ i1, ∀ t : OsdNpre2Table,
      entry ∈ (List.range n).foldl (fun (t : OsdNpre2Table) i2 => OsdNpre2Table.insert t (key i1 i2) i1 i2) t →
      entry ∈ t ∨ (entry.2.1 = i1 ∧ entry.2.2 < i1) := by
    intro n
    induction n with
    | zero => exact fun _ t hmem => Or.inl hmem
    | succ n ih =>
      intro hn t hmem
      rw [List.range_succ,List.foldl_append] at hmem
      rcases List.mem_cons.mp hmem with rfl | hmem
      · exact Or.inr ⟨rfl,hn⟩
      · exact ih (by omega) t hmem
  have houter : ∀ n ≤ k, entry ∈ (List.range n).foldl (fun t i1 =>
        (List.range i1).foldl (fun (t : OsdNpre2Table) i2 => OsdNpre2Table.insert t (key i1 i2) i1 i2) t) [] →
      entry.2.1 < k ∧ entry.2.2 < entry.2.1 := by
    intro n
    induction n with
    | zero => exact fun _ hmem => absurd hmem List.not_mem_nil
    | succ n ih =>
      intro hn hmem
      rw [List.range_succ,List.foldl_append,List.foldl_cons,List.foldl_nil] at hmem
      rcases hinner n n (Nat.le_refl n) _ hmem with hmem | ⟨h1,h2⟩
      · exact ih (by omega) hmem
      · exact ⟨by omega,by omega⟩
  exact houter k (Nat.le_refl k) h

/-- Every candidate of the pruned passes is the first one with some rows added. -/
theorem flips_of_mem_npre {ntheta ntau : Nat} {runNpre2 : Bool} {cp : BitRow}
    (h : cp ∈ b.orderZero P llr :: npre1Candidates P llr b ntheta ++
      if runNpre2 then npre2Candidates P llr b ntau else []) :
    ∃ S, (∀ s ∈ S, s < P.K) ∧ cp = applyFlips (b.gPacked P) (b.orderZero P llr) S := by
  rcases List.mem_append.mp h with h | h
  · rcases List.mem_cons.mp h with rfl | h
    · exact ⟨[],by simp,rfl⟩
    · simp only [npre1Candidates,List.mem_flatMap,List.mem_reverse,List.mem_range,List.mem_append] at h
      obtain ⟨iflag,hiflag,h | ⟨n1,hn1,h⟩⟩ := h
      · obtain rfl := List.mem_singleton.mp (List.mem_ite_nil_right.mp h).2
        exact ⟨[iflag],by simpa using hiflag,rfl⟩
      · obtain rfl := List.mem_singleton.mp (List.mem_ite_nil_left.mp h).2
        exact ⟨[iflag,n1],by simp [hiflag,hn1.trans hiflag],rfl⟩
  · have h := (List.mem_ite_nil_right.mp h).2
    simp only [npre2Candidates,List.mem_flatMap,List.mem_reverse,List.mem_range] at h
    obtain ⟨iflag,hiflag,h⟩ := h
    obtain ⟨⟨in1,in2⟩,hpair,rfl⟩ := List.mem_map.mp h
    obtain ⟨key,_,hkey⟩ := List.mem_flatMap.mp (List.mem_filter.mp hpair).1
    obtain ⟨entry,hentry,heq⟩ := List.mem_map.mp hkey
    obtain ⟨h1,h2⟩ := mem_buildNpre2Table (List.mem_filter.mp hentry).1
    rw [heq] at h1 h2
    exact ⟨[iflag,in1,in2],by simp [hiflag,h1,h2.trans h1],rfl⟩

theorem osdDecodeNpreGeneric_some (hN : P.N = P.K + P.M) (hmax : P.N ≤ 256) {ntheta ntau : Nat} {runNpre2 : Bool}
    {r : OsdResult} (hr : osdDecodeNpreGeneric P sorter llr ntheta ntau runNpre2 verify = some r) :
    r.codeword = P.ldpcEncodeGeneric r.info ∧ r.hardErrors = hardErrorsOf P llr r.codeword ∧
      passes verify r.info = true ∧ IsBits P.K r.info := by
  obtain ⟨b,hb,hsound,_⟩ := osdSetup_sound P sorter llr hN
  unfold osdDecodeNpreGeneric at hr
  rw [hb] at hr
  simp only [Option.bind_eq_bind,Option.bind_some,Option.bind_eq_some_iff] at hr
  obtain ⟨best,hbest,hresult⟩ := hr
  obtain rfl := Option.some.inj hresult
  exact found_encoding hN hmax hsound (fun cp hcp => flips_of_mem_npre hcp) hbest

/-- The pruned search finds something when its first candidate passes. -/
theorem osdDecodeNpreGeneric_ne_none (hN : P.N = P.K + P.M) (hmax : P.N ≤ 256) {ntheta ntau : Nat} {runNpre2 : Bool}
    {c : List UInt8} (hc : SearchSpace P llr (mostReliableBasis P sorter llr) 0 c)
    (hpass : passes verify (c.take P.K) = true) :
    osdDecodeNpreGeneric P sorter llr ntheta ntau runNpre2 verify ≠ none := by
  obtain ⟨b,hb,hsound,hperm⟩ := osdSetup_sound P sorter llr hN
  rw [mostReliableBasis,← hperm,← hsound.greedy] at hc
  obtain rfl := (searchSpace_zero_iff hsound hN hmax c).mp hc
  rw [← hsound.decoded_eq (by omega)] at hpass
  intro hnone
  unfold osdDecodeNpreGeneric at hnone
  rw [hb] at hnone
  simp only [Option.bind_eq_bind,Option.bind_some,Option.bind_eq_none_iff,foldl_tryAndUpdate] at hnone
  have hsearch : searchBest (fun cp => passes verify (b.decoded P cp)) (fun cp => b.weightedDistance P llr cp.bit)
      (b.orderZero P llr :: npre1Candidates P llr b ntheta ++
        if runNpre2 then npre2Candidates P llr b ntau else []) ≠ none := by
    rw [Ne,searchBest_eq_none]
    intro hall
    have hfirst := hall (b.orderZero P llr) (by simp)
    rw [hpass] at hfirst
    cases hfirst
  obtain ⟨cp,hcp⟩ := Option.ne_none_iff_exists'.mp hsearch
  rw [hcp] at hnone
  exact absurd (hnone _ rfl) (by simp)

end Osd

section Stages
variable {F : Type} [F32 F] {codec : LdpcCodec} {sorter : SortUnstable} {useNpre : Bool} {llr : List F}
  {verify : Option (List UInt8 → Bool)}

theorem LdpcCodec.size_le (codec : LdpcCodec) : codec.params.N ≤ 256 := by
  cases codec <;> decide

theorem fst4OsdDecode_some {ndeep : Nat} {r : OsdResult}
    (hr : fst4OsdDecode sorter llr verify useNpre ndeep = some r) :
    r.codeword = LdpcCodec.Ldpc240_101.encode r.info ∧
      r.hardErrors = hardErrorsOf Ldpc240_101Params llr r.codeword ∧
      passes verify r.info = true ∧ IsBits Ldpc240_101Params.K r.info := by
  have hN := LdpcCodec.Ldpc240_101.consistent.size
  have hmax := LdpcCodec.Ldpc240_101.size_le
  unfold fst4OsdDecode at hr
  split at hr
  · exact osdDecodeGeneric_some hN hmax hr
  · split at hr
    · exact osdDecodeNpreGeneric_some hN hmax hr
    · exact osdDecodeNpreGeneric_some hN hmax hr
    · exact osdDecodeGeneric_some hN hmax hr

/-- FST4's search finds something when a word passes that it tries whatever it prunes. -/
theorem fst4OsdDecode_ne_none {ndeep : Nat} (h1 : 1 ≤ ndeep) (h3 : ndeep ≤ 3) {c : List UInt8}
    (hc : SearchSpace Ldpc240_101Params llr (mostReliableBasis Ldpc240_101Params sorter llr)
      (unprunedOrder useNpre ndeep) c) (hpass : passes verify (c.take Ldpc240_101Params.K) = true) :
    fst4OsdDecode sorter llr verify useNpre ndeep ≠ none := by
  have hN := LdpcCodec.Ldpc240_101.consistent.size
  have hmax := LdpcCodec.Ldpc240_101.size_le
  have hgeneric (hunpruned : unprunedOrder useNpre ndeep = ndeep) :
      osdDecodeGeneric Ldpc240_101Params sorter llr ndeep Ldpc240_101Params.K verify false ≠ none := by
    intro hnone
    rw [hunpruned] at hc
    have hfail := (osdDecodeGeneric_eq_none _ _ _ _ _ _ _ hN hmax h1 h3).mp hnone c hc
    exact absurd (hpass.symm.trans hfail) (by decide)
  unfold fst4OsdDecode
  cases useNpre with
  | false => exact hgeneric rfl
  | true =>
    obtain rfl | rfl | rfl : ndeep = 1 ∨ ndeep = 2 ∨ ndeep = 3 := by omega
    · exact hgeneric rfl
    · exact osdDecodeNpreGeneric_ne_none hN hmax hc hpass
    · exact osdDecodeNpreGeneric_ne_none hN hmax hc hpass

/-- The stage on the observations gives out an encoding that passes, with its errors against them. -/
theorem LdpcCodec.osdStage_some {opts : DecodeOpts F} {r : OsdResult}
    (hr : codec.osdStage sorter useNpre llr opts = some r) :
    r.codeword = codec.encode r.info ∧ r.hardErrors = hardErrorsOf codec.params llr r.codeword ∧
      passes opts.verifyInfo r.info = true ∧ IsBits codec.params.K r.info := by
  have hN := codec.consistent.size
  have hmax := codec.size_le
  cases codec with
  | Ldpc174_91 =>
    unfold osdStage at hr
    dsimp only at hr
    split at hr
    · exact osdDecodeGeneric_some hN hmax hr
    · exact osdDecodeGeneric_some hN hmax hr
  | Ldpc240_101 => exact fst4OsdDecode_some hr
  | Ldpc128_90 => exact osdDecodeGeneric_some hN hmax hr

/-- So does belief propagation. -/
theorem LdpcCodec.bp_some {apMask : Option (List Bool)} {maxIter : Nat} {kind : BpKind F} {r : BpResult}
    (hr : bpDecodeGenericKind codec.params llr apMask maxIter verify kind = some r) :
    r.codeword = codec.encode r.info ∧ r.hardErrors = hardErrorsOf codec.params llr r.codeword ∧
      passes verify r.info = true ∧ IsBits codec.params.K r.info := by
  have hsize := codec.consistent.size
  obtain ⟨cw,it,rfl,hcw,hchecks,hverify⟩ := bpDecodeGenericKind_some _ hr
  refine ⟨(checks_iff_encode codec.consistent hcw).mp hchecks,rfl,?_,hcw.take (by omega)⟩
  cases verify with
  | none => rfl
  | some f => exact hverify f rfl

end Stages

end MfskCore.Fec
