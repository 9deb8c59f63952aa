import MfskCore.Engine.FrameTones
import MfskCore.Engine.GroupAmplitudes
import MfskCore.Rust.F32

/-! The soft values of the bits of a frame (`engine/llr.rs`): the strongest joint hypothesis with a bit set against
the strongest with it clear, group by group of symbols. -/
namespace MfskCore.Engine
open Rust Fec Library

section Maxima
variable {F : Type} [F32 F]

/-- The greater of each value and the one kept, in order. -/
def runMax (m : F) (l : List F) : F := l.foldl (fun m v => if v > m then v else m) m

def chunksExact {α : Type} (n : Nat) (l : List α) : List (List α) :=
  (List.range (l.length / n)).map fun i => (l.drop (i * n)).take n

/-- The maximum of one block, in an odd place or in an even one. -/
def pushBlock (s : F × F) (chunk : List F × Nat) : F × F :=
  let m := runMax (-F32.infinity) chunk.1
  if chunk.2 &&& 1 = 1 then (if m > s.1 then m else s.1,s.2) else (s.1,if m > s.2 then m else s.2)

/-- The greatest values in the odd and in the even blocks, which are those with a bit set and with it clear. -/
def blockMaxima (s2 : List F) (block : Nat) : F × F :=
  (chunksExact block s2).zipIdx.foldl pushBlock (-F32.infinity,-F32.infinity)

/-- A value that the comparison puts below another. -/
def Below (top v : F) : Prop := v < top ∧ ¬top < v

variable {top : F}

theorem runMax_below {m : F} {l : List F} (hm : Below top m) (h : ∀ v ∈ l, Below top v) : Below top (runMax m l) := by
  induction l generalizing m with
  | nil => exact hm
  | cons v l ih =>
    rw [runMax,List.foldl_cons,← runMax]
    refine ih ?_ fun w hw => h w (List.mem_cons_of_mem v hw)
    split
    · exact h v List.mem_cons_self
    · exact hm

/-- What is above all the others is the greatest, wherever it stands. -/
theorem runMax_top (hself : ¬top < top) {m : F} {l : List F} (hm : m = top ∨ Below top m)
    (h : ∀ v ∈ l, v = top ∨ Below top v) (hmem : m = top ∨ top ∈ l) : runMax m l = top := by
  induction l generalizing m with
  | nil => exact hmem.resolve_right List.not_mem_nil
  | cons v l ih =>
    rw [runMax,List.foldl_cons,← runMax]
    have hv := h v List.mem_cons_self
    refine ih ?_ (fun w hw => h w (List.mem_cons_of_mem v hw)) ?_
    · split
      · exact hv
      · exact hm
    · rcases hm with rfl | hm
      · refine Or.inl (if_neg ?_)
        rcases hv with rfl | hv
        · exact hself
        · exact hv.2
      · rcases hv with rfl | hv
        · exact Or.inl (if_pos hm.1)
        · have htop : top ∈ l := by
            rcases hmem with rfl | hmem
            · exact absurd hm.1 hself
            · exact (List.mem_cons.1 hmem).resolve_left fun heq => hself (heq ▸ hv.1)
          exact Or.inr htop

/-- The maxima of the blocks of one parity. -/
def parityMaxima (odd : Bool) (blocks : List (List F × Nat)) : List F :=
  (blocks.filter fun c => decide (c.2 % 2 = 1) == odd).map fun c => runMax (-F32.infinity) c.1

theorem blockMaxima_eq (s2 : List F) (block : Nat) :
    blockMaxima s2 block =
      (runMax (-F32.infinity) (parityMaxima true (chunksExact block s2).zipIdx),
        runMax (-F32.infinity) (parityMaxima false (chunksExact block s2).zipIdx)) := by
  have hrun : ∀ (blocks : List (List F × Nat)) (a b : F),
      blocks.foldl pushBlock (a,b) = (runMax a (parityMaxima true blocks),runMax b (parityMaxima false blocks)) := by
    intro blocks
    induction blocks with
    | nil => exact fun _ _ => rfl
    | cons c blocks ih =>
      intro a b
      have hcons : ∀ odd, parityMaxima odd (c :: blocks) = if (decide (c.2 % 2 = 1) == odd) = true then
          runMax (-F32.infinity) c.1 :: parityMaxima odd blocks else parityMaxima odd blocks := by
        intro odd
        rw [parityMaxima,List.filter_cons]
        split <;> rfl
      rw [List.foldl_cons,hcons,hcons,pushBlock,Nat.and_one_is_mod]
      by_cases hodd : c.2 % 2 = 1
      · rw [if_pos hodd,ih,decide_eq_true hodd]
        rfl
      · rw [if_neg hodd,ih,decide_eq_false hodd]
        rfl
  exact hrun _ _ _

theorem getElem?_chunksExact {α : Type} {n c : Nat} {l : List α} (hc : c < l.length / n) :
    (chunksExact n l)[c]? = some ((l.drop (c * n)).take n) := by
  rw [chunksExact,List.getElem?_map,List.getElem?_range hc]
  rfl

/-- A value of a block stands in the list at a place of the block. -/
theorem mem_chunk {α : Type} {n c : Nat} {l : List α} {v : α} (hv : v ∈ (l.drop (c * n)).take n) :
    ∃ j, l[j]? = some v ∧ c * n ≤ j ∧ j < c * n + n := by
  obtain ⟨r,hr⟩ := List.mem_iff_getElem?.1 hv
  have hlt : r < n := by
    have hlen := (List.getElem?_eq_some_iff.1 hr).1
    rw [List.length_take] at hlen
    omega
  rw [List.getElem?_take_of_lt hlt,List.getElem?_drop] at hr
  exact ⟨c * n + r,hr,Nat.le_add_right _ _,Nat.add_lt_add_left hlt _⟩

/-- The one value above all the others decides the maximum with each bit of its index, and the other maximum is
below it. -/
theorem blockMaxima_top (hself : ¬top < top) (hinf : Below top (-F32.infinity)) {s2 : List F} {n b i : Nat}
    (hlen : s2.length = 2^n) (hb : b < n) (htop : s2[i]? = some top)
    (hother : ∀ j v, s2[j]? = some v → j ≠ i → Below top v) :
    (i.testBit b = true → (blockMaxima s2 (2^b)).1 = top ∧ Below top (blockMaxima s2 (2^b)).2) ∧
      (i.testBit b = false → (blockMaxima s2 (2^b)).2 = top ∧ Below top (blockMaxima s2 (2^b)).1) := by
  have hi : i < 2^n := hlen ▸ (List.getElem?_eq_some_iff.1 htop).1
  have hcount : s2.length / 2^b = 2^(n - b) := by rw [hlen,Nat.pow_div (Nat.le_of_lt hb) (by decide)]
  have hblock : i / 2^b < s2.length / 2^b := by
    rw [hcount]
    refine Nat.div_lt_of_lt_mul ?_
    rwa [← Nat.pow_add,Nat.add_sub_cancel' (Nat.le_of_lt hb)]
  have hbit : i.testBit b = decide (i / 2^b % 2 = 1) := Nat.testBit_eq_decide_div_mod_eq
  -- The block of the value has it as its maximum, and every other block stays below.
  have hmine : runMax (-F32.infinity) ((s2.drop (i / 2^b * 2^b)).take (2^b)) = top := by
    refine runMax_top hself (Or.inr hinf) (fun v hv => ?_) (Or.inr ?_)
    · obtain ⟨j,hj,-,-⟩ := mem_chunk hv
      by_cases hji : j = i
      · subst hji
        exact Or.inl (Option.some.inj (hj.symm.trans htop))
      · exact Or.inr (hother j v hj hji)
    · have hrest : i - i / 2^b * 2^b < 2^b := by
        have hmod := Nat.mod_lt i (Nat.two_pow_pos b)
        have hdiv := Nat.div_add_mod' i (2^b)
        omega
      refine List.mem_iff_getElem?.2 ⟨i - i / 2^b * 2^b,?_⟩
      rw [List.getElem?_take_of_lt hrest,List.getElem?_drop,Nat.add_sub_cancel' (Nat.div_mul_le_self i _),htop]
  have hothers : ∀ c, c ≠ i / 2^b → Below top (runMax (-F32.infinity) ((s2.drop (c * 2^b)).take (2^b))) := by
    intro c hc
    refine runMax_below hinf fun v hv => ?_
    obtain ⟨j,hj,hlo,hhi⟩ := mem_chunk hv
    refine hother j v hj fun hji => hc ?_
    subst hji
    exact (Nat.div_eq_of_lt_le hlo (by rwa [Nat.succ_mul])).symm
  have hmem : ∀ odd v, v ∈ parityMaxima odd (chunksExact (2^b) s2).zipIdx ↔ ∃ c < s2.length / 2^b,
      (decide (c % 2 = 1) == odd) = true ∧ v = runMax (-F32.infinity) ((s2.drop (c * 2^b)).take (2^b)) := by
    intro odd v
    rw [parityMaxima,List.mem_map]
    constructor
    · rintro ⟨⟨chunk,c⟩,hc,rfl⟩
      obtain ⟨hc,hodd⟩ := List.mem_filter.1 hc
      have hget := List.mem_zipIdx_iff_getElem?.1 hc
      have hlt : c < s2.length / 2^b := by
        have hlt := (List.getElem?_eq_some_iff.1 hget).1
        rwa [chunksExact,List.length_map,List.length_range] at hlt
      rw [getElem?_chunksExact hlt] at hget
      exact ⟨c,hlt,hodd,congrArg _ (Option.some.inj hget).symm⟩
    · rintro ⟨c,hlt,hodd,rfl⟩
      exact ⟨(_,c),List.mem_filter.2 ⟨List.mem_zipIdx_iff_getElem?.2 (getElem?_chunksExact hlt),hodd⟩,rfl⟩
  have hsame : ∀ odd, (decide (i / 2^b % 2 = 1) == odd) = true →
      runMax (-F32.infinity) (parityMaxima odd (chunksExact (2^b) s2).zipIdx) = top := by
    intro odd hodd
    refine runMax_top hself (Or.inr hinf) (fun v hv => ?_) (Or.inr ((hmem odd top).2 ⟨_,hblock,hodd,hmine.symm⟩))
    obtain ⟨c,-,-,rfl⟩ := (hmem odd v).1 hv
    by_cases hc : c = i / 2^b
    · exact Or.inl (hc ▸ hmine)
    · exact Or.inr (hothers c hc)
  have hopposite : ∀ odd, (decide (i / 2^b % 2 = 1) == odd) = false →
      Below top (runMax (-F32.infinity) (parityMaxima odd (chunksExact (2^b) s2).zipIdx)) := by
    intro odd hodd
    refine runMax_below hinf fun v hv => ?_
    obtain ⟨c,-,hc,rfl⟩ := (hmem odd v).1 hv
    refine hothers c fun heq => ?_
    rw [heq,hodd] at hc
    cases hc
  rw [blockMaxima_eq,hbit]
  constructor
  · intro hone
    exact ⟨hsame true (by rw [hone]; rfl),hopposite false (by rw [hone]; rfl)⟩
  · intro hnone
    exact ⟨hsame false (by rw [hnone]; rfl),hopposite true (by rw [hnone]; rfl)⟩

end Maxima

section Metrics
variable {F S : Type} [F32Sqrt F] (P : FrameParams) (toAmp : S → F × F) (cs : List S)

/-- The length of the two arrays that hold the maxima of a group. -/
def MAX_IBMAX_PLUS_1 : Nat := 32

/-- The metrics, and the tables that are used again for every group. -/
structure MetricBuffers (F : Type) where
  bmetPrimary : List F
  bmetNorm : Option (List F)
  table : List (F × F)
  groupScratch : List (F × F)

def magnitude (z : F × F) : F := F32Sqrt.sqrt (z.1 * z.1 + z.2 * z.2)

def bitMetric (m : F × F) : F := m.1 - m.2

/-- The metric relative to the stronger hypothesis. -/
def bitMetricNorm (m : F × F) : F :=
  let den := F32.max m.1 m.2
  if den > 0.0 then bitMetric m / den else 0.0

/-- The maxima of one bit of a group, the first bit leading. -/
def groupMaxima (nsym : Nat) (table : List (F × F)) (ib : Nat) : F × F :=
  blockMaxima (table.map magnitude) (1 <<< (P.BITS_PER_SYMBOL * nsym - 1 - ib))

/-- The metrics of the bits of a group, from a place on; the loop over them breaks where the codeword ends. -/
def writeMetrics (codewordLen iBitBase width : Nat) (metric : Nat → F) (b : List F) : List F :=
  (List.range (min width (codewordLen - iBitBase))).foldl (fun b ib => b.set (iBitBase + ib) (metric ib)) b

def processGroup (nsym ks iBitBase : Nat) (s : MetricBuffers F) : Option (MetricBuffers F) := do
  let r ← buildGroupAmplitudesInto toAmp cs P.NTONES P.GRAY_MAP ks nsym s.table s.groupScratch
  let ibmax := P.BITS_PER_SYMBOL * nsym - 1
  let write := writeMetrics s.bmetPrimary.length iBitBase (ibmax + 1)
  if ibmax < MAX_IBMAX_PLUS_1 then
    some
      { bmetPrimary := write (fun ib => bitMetric (groupMaxima P nsym r.1 ib)) s.bmetPrimary
        bmetNorm := s.bmetNorm.map (write fun ib => bitMetricNorm (groupMaxima P nsym r.1 ib))
        table := r.1
        groupScratch := r.2 }
  else none

/-- Where the groups of a chunk start: side by side, and a last one over the end when they leave some of it out. -/
def groupStarts (nsym len : Nat) : List Nat :=
  (List.range (len / nsym)).map (· * nsym) ++ if len / nsym * nsym < len ∧ len ≥ nsym then [len - nsym] else []

/-- The groups of one chunk side by side, and a last one over its end when they leave some of it out. -/
def processChunk (nsym : Nat) (chunk : Nat × Nat) (chunkBitBase : Nat) (s : MetricBuffers F) :
    Option (MetricBuffers F) := do
  let s ← (List.range (chunk.2 / nsym)).foldlM (fun s i =>
    processGroup P toAmp cs nsym (chunk.1 + i * nsym) (chunkBitBase + i * nsym * P.BITS_PER_SYMBOL) s) s
  if chunk.2 / nsym * nsym < chunk.2 ∧ chunk.2 ≥ nsym then
    let tailK := chunk.2 - nsym
    processGroup P toAmp cs nsym (chunk.1 + tailK) (chunkBitBase + tailK * P.BITS_PER_SYMBOL) s
  else some s

/-- No symbols in a group make the number of its bits less one underflow. -/
def fillBmetForNsym (nsym : Nat) (bmetPrimary : List F) (bmetNorm : Option (List F)) :
    Option (List F × Option (List F)) := do
  if P.BITS_PER_SYMBOL * nsym = 0 then none
  else
    let start : MetricBuffers F := ⟨bmetPrimary,bmetNorm,List.replicate (P.NTONES^nsym) (0.0,0.0),
      List.replicate (groupScratchLen nsym P.NTONES) (0.0,0.0)⟩
    let r ← P.dataChunks.foldlM (fun (s : MetricBuffers F × Nat) chunk =>
      (processChunk P toAmp cs nsym chunk s.2 s.1).map fun b => (b,s.2 + chunk.2 * P.BITS_PER_SYMBOL)) (start,0)
    pure (r.1.bmetPrimary,r.1.bmetNorm)

def bmetDeviation (bmet : List F) : F :=
  let n : F := OfScientific.ofScientific bmet.length false 0
  let mean := bmet.foldl (· + ·) 0.0 / n
  let meanSq := (bmet.map fun x => x * x).foldl (· + ·) 0.0 / n
  let var := meanSq - mean * mean
  if var > 0.0 then F32Sqrt.sqrt var else F32Sqrt.sqrt meanSq

def normalizeBmet (bmet : List F) : List F :=
  let sig := bmetDeviation bmet
  if sig > 0.0 then bmet.map fun x => x / sig else bmet

def LLR_SCALE : F := 2.83

variable {T : Type} (fromF32 : F → T)

def scaleBmet (v : List F) : List T := (normalizeBmet v).map fun x => fromF32 (x * LLR_SCALE)

def codewordBitLen : Nat := (P.dataChunks.map Prod.snd).sum * P.BITS_PER_SYMBOL

/-- The soft values by the depth of their groups, and those of single symbols relative to the strongest. -/
structure LlrSet (T : Type) where
  llra : List T
  llrb : List T
  llrc : List T
  llrd : List T
  llre : List T

def computeLlrPartial (nsym : Nat) : Option (List T) :=
  (fillBmetForNsym P toAmp cs nsym (List.replicate (codewordBitLen P) 0.0) none).map fun r => scaleBmet fromF32 r.1

/-- Groups of one symbol, of two, and of the most there are. -/
def computeLlrGeneric (maxNsym : Nat) : Option (LlrSet T) := do
  let zeros : List F := List.replicate (codewordBitLen P) 0.0
  let s ← (List.range' 1 maxNsym).foldlM (fun (s : LlrSet F) nsym =>
    if nsym > 2 ∧ nsym ≠ maxNsym then some s
    else if nsym = 1 then
      (fillBmetForNsym P toAmp cs 1 s.llra (some s.llrd)).map fun r => { s with llra := r.1, llrd := r.2.getD s.llrd }
    else if nsym = 2 then (fillBmetForNsym P toAmp cs 2 s.llrb none).map fun r => { s with llrb := r.1 }
    else (fillBmetForNsym P toAmp cs nsym s.llrc none).map fun r => { s with llrc := r.1 }) ⟨zeros,zeros,zeros,zeros,[]⟩
  pure ⟨scaleBmet fromF32 s.llra,scaleBmet fromF32 s.llrb,scaleBmet fromF32 s.llrc,scaleBmet fromF32 s.llrd,[]⟩

def computeLlrFast : Option (LlrSet T) := computeLlrGeneric P toAmp cs fromF32 1

theorem processChunk_eq (nsym : Nat) (chunk : Nat × Nat) (chunkBitBase : Nat) (s : MetricBuffers F) :
    processChunk P toAmp cs nsym chunk chunkBitBase s =
      (groupStarts nsym chunk.2).foldlM (fun s k =>
        processGroup P toAmp cs nsym (chunk.1 + k) (chunkBitBase + k * P.BITS_PER_SYMBOL) s) s := by
  rw [processChunk,groupStarts,List.foldlM_append,List.foldlM_map]
  refine congrArg _ (funext fun s => ?_)
  split
  · rw [List.foldlM_cons]
    exact (bind_pure _).symm
  · rfl

theorem groupStarts_le {nsym len k : Nat} (hk : k ∈ groupStarts nsym len) : k + nsym ≤ len := by
  rcases List.mem_append.1 hk with hk | hk
  · obtain ⟨i,hi,rfl⟩ := List.mem_map.1 hk
    have hle : (i + 1) * nsym ≤ len :=
      (Nat.mul_le_mul_right nsym (List.mem_range.1 hi)).trans (Nat.div_mul_le_self len nsym)
    rwa [Nat.succ_mul] at hle
  · obtain ⟨⟨-,hlen⟩,hk⟩ := List.mem_ite_nil_right.1 hk
    obtain rfl := List.mem_singleton.1 hk
    omega

/-- Every symbol of a chunk that is long enough is in a group. -/
theorem exists_groupStart {nsym len t : Nat} (hnsym : 0 < nsym) (hlen : nsym ≤ len) (ht : t < len) :
    ∃ k ∈ groupStarts nsym len, k ≤ t ∧ t < k + nsym := by
  by_cases hcovered : t < len / nsym * nsym
  · have hdiv : t / nsym < len / nsym := Nat.div_lt_of_lt_mul (Nat.mul_comm nsym _ ▸ hcovered)
    refine ⟨t / nsym * nsym,List.mem_append_left _ (List.mem_map.2 ⟨_,List.mem_range.2 hdiv,rfl⟩),
      Nat.div_mul_le_self t nsym,?_⟩
    exact Nat.lt_div_mul_add hnsym
  · have hlast := Nat.lt_div_mul_add (a := len) hnsym
    exact ⟨len - nsym,List.mem_append_right _ (List.mem_ite_nil_right.2 ⟨⟨by omega,hlen⟩,List.mem_singleton.2 rfl⟩),
      by omega,by omega⟩

end Metrics

section Deinterleave
variable {F : Type} [F32 F]

/-- Every channel value goes to the place of its bit in the codeword. -/
def deinterleaveLlrVec (llr : List F) (table : List Nat) : Option (List F) :=
  (List.range llr.length).foldlM (fun out j => (table[j]?).bind fun p => checkedSet out p (llr.getD j 0.0)) llr

def deinterleave (P : FrameParams) (llr : List F) : Option (List F) := match P.CODEWORD_INTERLEAVE with
  | some table => deinterleaveLlrVec llr table
  | none => some llr

/-- The value of a channel bit stands where the codeword has the bit. -/
theorem deinterleave_eq {P : FrameParams} (h : P.Valid) {llr : List F} (hllr : llr.length = P.dataBits) :
    ∃ out, deinterleave P llr = some out ∧ out.length = P.dataBits ∧
      ∀ i < P.dataBits, ∃ j < P.dataBits, P.channelIndex j = some i ∧ out[i]? = llr[j]? := by
  rw [deinterleave]
  split
  · rename_i table htable
    have hperm := h.interleave table htable
    have hlen : table.length = P.dataBits := by rw [hperm.length_eq,List.length_range]
    have hstep : ∀ j ∈ List.range llr.length, ∀ out : List F,
        ((table[j]?).bind fun p => checkedSet out p (llr.getD j 0.0)) =
          checkedSet out (table.getD j 0) (llr.getD j 0.0) := by
      intro j hj out
      rw [getElem?_eq_some_getD (by rw [hlen,← hllr]; exact List.mem_range.1 hj) 0]
      rfl
    have hwrites : (List.range llr.length).map (fun j => table.getD j 0) = table := by
      rw [hllr,← hlen]
      exact (map_eq_map_range table id 0).symm.trans (List.map_id table)
    have hnodup : (((List.range llr.length).map fun j => (table.getD j 0,llr.getD j 0.0)).map Prod.fst).Nodup := by
      rw [List.map_map]
      exact hwrites.symm ▸ hperm.nodup_iff.2 List.nodup_range
    have hrun : deinterleaveLlrVec llr table =
        some (place ((List.range llr.length).map fun j => (table.getD j 0,llr.getD j 0.0)) llr) := by
      rw [deinterleaveLlrVec,foldlM_congr hstep,← foldlM_checkedSet_place,List.foldlM_map]
      intro w hw
      obtain ⟨j,hj,rfl⟩ := List.mem_map.1 hw
      have hj := List.mem_range.1 hj
      rw [hllr] at hj ⊢
      rw [List.getD_eq_getElem _ _ (hlen.symm ▸ hj)]
      exact List.mem_range.1 (hperm.subset (List.getElem_mem _))
    refine ⟨_,hrun,(length_place _ _).trans hllr,fun i hi => ?_⟩
    obtain ⟨j,hj,hij⟩ := List.getElem_of_mem (hperm.symm.subset (List.mem_range.2 hi))
    have hjllr : j < llr.length := by omega
    refine ⟨j,by omega,?_,?_⟩
    · rw [FrameParams.channelIndex,htable]
      exact List.getElem?_eq_some_iff.2 ⟨hj,hij⟩
    · rw [getElem?_eq_some_getD hjllr 0.0]
      refine getElem?_place hnodup (List.mem_map.2 ⟨j,List.mem_range.2 hjllr,?_⟩) (hllr ▸ hi)
      rw [List.getD_eq_getElem _ _ hj,hij]
  · rename_i hnone
    refine ⟨llr,rfl,hllr,fun i hi => ⟨i,hi,?_,rfl⟩⟩
    rw [FrameParams.channelIndex,hnone]

end Deinterleave

section Total
variable {F S : Type} [F32Sqrt F] {P : FrameParams} {toAmp : S → F × F} {cs : List S} {nsym : Nat}

/-- What every group is processed under. -/
structure Processable (P : FrameParams) (cs : List S) (nsym : Nat) : Prop where
  valid : P.Valid
  one_le : 1 ≤ nsym
  width : nsym * P.BITS_PER_SYMBOL ≤ MAX_IBMAX_PLUS_1
  spectra : cs.length = P.N_SYMBOLS * P.NTONES

theorem Processable.inRange (hp : Processable P cs nsym) {ks : Nat} (hks : ks + nsym ≤ P.N_SYMBOLS) :
    InRange cs P.NTONES P.GRAY_MAP ks nsym := by
  refine ⟨hp.valid.grayLength.ge,fun s hs t ht => ?_⟩
  rw [hp.spectra]
  refine rowMajor_lt (by omega) ?_
  rw [List.getD_eq_getElem _ _ (hp.valid.grayLength.symm ▸ ht)]
  exact hp.valid.grayRange _ (List.getElem_mem _)

/-- The table is built whatever the amplitudes are. -/
theorem build_some {A : Type} [Add A] (toAmp : S → A) {ntones : Nat} {grayMap : List UInt8} {ks span : Nat}
    (hspan : 1 ≤ span) (h : InRange cs ntones grayMap ks span) {out scratch : List A} (hout : out.length = ntones^span)
    (hscratch : groupScratchLen span ntones ≤ scratch.length) :
    ∃ r, buildGroupAmplitudesInto toAmp cs ntones grayMap ks span out scratch = some r ∧
      r.1.length = out.length ∧ r.2.length = scratch.length := by
  induction span using Nat.strongRecOn generalizing ks out scratch with
  | ind span ih =>
    obtain rfl | hmany := Nat.eq_or_lt_of_le hspan
    · rw [buildGroupAmplitudesInto,if_neg Nat.one_ne_zero,if_pos rfl]
      have hread : ∀ t ∈ List.range (min ntones out.length), ∀ o : List A, o.length = out.length → ∃ o',
          ((grayMap[t]?).bind fun g => (cs[ks * ntones + g.toNat]?).map fun entry => o.set t (toAmp entry)) = some o' ∧
            o'.length = out.length := by
        intro t ht o ho
        have ht := List.mem_range.1 ht
        have htn : t < ntones := by omega
        have hcs := h.spectra 0 Nat.one_pos t htn
        rw [Nat.add_zero] at hcs
        rw [getElem?_eq_some_getD (htn.trans_le h.tones) 0,Option.bind_some,List.getElem?_eq_getElem hcs]
        exact ⟨_,rfl,List.length_set.trans ho⟩
      obtain ⟨out',hrun,hlen⟩ := exists_foldlM (fun o : List A => o.length = out.length) hread rfl
      exact ⟨(out',scratch),by rw [hrun]; rfl,hlen,rfl⟩
    · obtain ⟨hi,hhi⟩ : ∃ hi, hi = span / 2 := ⟨_,rfl⟩
      obtain ⟨lo,hlo⟩ : ∃ lo, lo = span - hi := ⟨_,rfl⟩
      have hsum : span = hi + lo := by omega
      rw [groupScratchLen,if_neg (Nat.not_le.2 hmany)] at hscratch
      simp only [← hhi,← hlo] at hscratch
      rw [buildGroupAmplitudesInto,if_neg (by omega),if_neg (by omega)]
      simp only [← hhi,← hlo]
      have hsplit : ntones^hi + ntones^lo ≤ scratch.length := by omega
      have hrest : (scratch.drop (ntones^hi + ntones^lo)).length = scratch.length - (ntones^hi + ntones^lo) :=
        List.length_drop
      have hhalves : (scratch.take (ntones^hi + ntones^lo)).length = ntones^hi + ntones^lo :=
        List.length_take_of_le hsplit
      have hHi (o sc : List A) (ho : o.length = ntones^hi) (hs : groupScratchLen hi ntones ≤ sc.length) :=
        ih hi (by omega) (by omega) (h.first (by omega)) ho hs
      have hLo (o sc : List A) (ho : o.length = ntones^lo) (hs : groupScratchLen lo ntones ≤ sc.length) :=
        ih lo (by omega) (by omega) (h.last hsum.ge) ho hs
      obtain ⟨⟨halfHi,rest⟩,hrunHi,hlenHi,hrestHi⟩ := hHi ((scratch.take (ntones^hi + ntones^lo)).take (ntones^hi))
        (scratch.drop (ntones^hi + ntones^lo)) (List.length_take_of_le (by omega)) (by omega)
      obtain ⟨⟨halfLo,rest'⟩,hrunLo,hlenLo,hrestLo⟩ := hLo ((scratch.take (ntones^hi + ntones^lo)).drop (ntones^hi)) rest
        (by rw [List.length_drop,hhalves,Nat.add_sub_cancel_left]) (by dsimp only at hrestHi; omega)
      rw [List.length_take_of_le (by omega)] at hlenHi
      rw [List.length_drop,hhalves,Nat.add_sub_cancel_left] at hlenLo
      dsimp only at hlenHi hlenLo hrestHi hrestLo
      have hprod : halfHi.length * halfLo.length = out.length := by rw [hlenHi,hlenLo,← Nat.pow_add,← hsum,hout]
      rw [if_pos hsplit,hrunHi,Option.bind_some,hrunLo,Option.bind_some,combineHalves_eq halfHi halfLo hprod.le,
        Option.map_some]
      refine ⟨_,rfl,?_,?_⟩
      · simp [List.length_flatMap,List.sum_replicate,hprod]
      · simp only [List.length_append]
        omega

/-- The buffers have their sizes. -/
structure MetricBuffers.Sized (P : FrameParams) (nsym len : Nat) (s : MetricBuffers F) : Prop where
  table : s.table.length = P.NTONES^nsym
  scratch : s.groupScratch.length = groupScratchLen nsym P.NTONES
  primary : s.bmetPrimary.length = len
  norm : ∀ b, s.bmetNorm = some b → b.length = len


variable (toAmp)

theorem processGroup_some (hp : Processable P cs nsym) {ks base len : Nat} (hks : ks + nsym ≤ P.N_SYMBOLS)
    {s : MetricBuffers F} (hs : s.Sized P nsym len) :
    ∃ s', processGroup P toAmp cs nsym ks base s = some s' ∧ s'.Sized P nsym len := by
  obtain ⟨r,hbuild,htable,hscratch⟩ := build_some toAmp hp.one_le (hp.inRange hks) hs.table hs.scratch.ge
  have hfit : P.BITS_PER_SYMBOL * nsym - 1 < MAX_IBMAX_PLUS_1 := by
    have hle := hp.width
    have hpos := Nat.mul_pos hp.valid.bits.1 hp.one_le
    rw [Nat.mul_comm] at hle
    omega
  rw [processGroup,hbuild,Option.bind_eq_bind,Option.bind_some]
  dsimp only
  rw [if_pos hfit]
  refine ⟨_,rfl,htable.trans hs.table,hscratch.trans hs.scratch,(length_foldl_set _ _ _ _).trans hs.primary,?_⟩
  intro b hb
  obtain ⟨b₀,hb₀,rfl⟩ := Option.map_eq_some_iff.1 hb
  exact (length_foldl_set _ _ _ _).trans (hs.norm b₀ hb₀)

/-- No group of a frame makes the metrics panic. -/
theorem fillBmetForNsym_some (hp : Processable P cs nsym) {bmet : List F} {bmetNorm : Option (List F)}
    (hnorm : ∀ b, bmetNorm = some b → b.length = bmet.length) :
    ∃ r, fillBmetForNsym P toAmp cs nsym bmet bmetNorm = some r ∧ r.1.length = bmet.length ∧
      ∀ b, r.2 = some b → b.length = bmet.length := by
  have hpos : ¬P.BITS_PER_SYMBOL * nsym = 0 := (Nat.mul_pos hp.valid.bits.1 hp.one_le).ne'
  have hchunks : ∀ chunk ∈ P.dataChunks, ∀ s : MetricBuffers F × Nat, s.1.Sized P nsym bmet.length → ∃ s',
      ((processChunk P toAmp cs nsym chunk s.2 s.1).map fun b => (b,s.2 + chunk.2 * P.BITS_PER_SYMBOL)) = some s' ∧
        s'.1.Sized P nsym bmet.length := by
    intro chunk hchunk s hs
    have hend := chunk_end_le hp.valid hchunk
    have hgroups : ∀ k ∈ groupStarts nsym chunk.2, ∀ b : MetricBuffers F, b.Sized P nsym bmet.length → ∃ b',
        processGroup P toAmp cs nsym (chunk.1 + k) (s.2 + k * P.BITS_PER_SYMBOL) b = some b' ∧
          b'.Sized P nsym bmet.length := by
      intro k hk b hb
      have hle := groupStarts_le hk
      exact processGroup_some toAmp hp (by omega) hb
    obtain ⟨b,hrun,hsized⟩ := exists_foldlM (MetricBuffers.Sized P nsym bmet.length) hgroups hs
    rw [processChunk_eq,hrun]
    exact ⟨_,rfl,hsized⟩
  have hstart : MetricBuffers.Sized P nsym bmet.length
      (⟨bmet,bmetNorm,List.replicate (P.NTONES^nsym) (0.0,0.0),
        List.replicate (groupScratchLen nsym P.NTONES) (0.0,0.0)⟩ : MetricBuffers F) :=
    ⟨List.length_replicate,List.length_replicate,rfl,hnorm⟩
  obtain ⟨r,hrun,hr⟩ := exists_foldlM (fun s : MetricBuffers F × Nat => s.1.Sized P nsym bmet.length) hchunks
    (b := (_,0)) hstart
  rw [fillBmetForNsym,if_neg hpos]
  dsimp only
  rw [hrun]
  exact ⟨_,rfl,hr.primary,hr.norm⟩

/-- A group of more bits than the maxima have room for panics, and so does one of no bits. -/
theorem fillBmetForNsym_eq_none (cs : List S)
    (hwide : P.BITS_PER_SYMBOL * nsym = 0 ∨ MAX_IBMAX_PLUS_1 < P.BITS_PER_SYMBOL * nsym)
    (hchunks : ∃ chunk ∈ P.dataChunks.head?, nsym ≤ chunk.2) (bmet : List F) (bmetNorm : Option (List F)) :
    fillBmetForNsym P toAmp cs nsym bmet bmetNorm = none := by
  rw [fillBmetForNsym]
  split
  · rfl
  · rename_i hpos
    have hgroup (ks base : Nat) (s : MetricBuffers F) : processGroup P toAmp cs nsym ks base s = none := by
      have hroom := hwide.resolve_left hpos
      exact Option.bind_eq_none_iff.2 fun r _ => if_neg (by omega)
    obtain ⟨chunk,hfirst,hlen⟩ := hchunks
    obtain ⟨rest,hsplit⟩ := List.head?_eq_some_iff.1 hfirst
    have hnsym : 0 < nsym := Nat.pos_of_mul_pos_left (Nat.pos_of_ne_zero hpos)
    obtain ⟨k,hk,-⟩ := exists_groupStart hnsym hlen (hnsym.trans_le hlen)
    obtain ⟨k₀,starts,hstarts⟩ := List.exists_cons_of_ne_nil (List.ne_nil_of_mem hk)
    dsimp only
    rw [hsplit,List.foldlM_cons,processChunk_eq,hstarts,List.foldlM_cons,hgroup]
    rfl

theorem length_scaleBmet {T : Type} (fromF32 : F → T) (v : List F) : (scaleBmet fromF32 v).length = v.length := by
  rw [scaleBmet,List.length_map,normalizeBmet]
  split
  · rw [List.length_map]
  · rfl

theorem codewordBitLen_eq (P : FrameParams) : codewordBitLen P = P.dataBits := by
  rw [codewordBitLen,FrameParams.dataBits,FrameParams.dataSymbols,List.length_flatMap]
  simp only [List.length_range']

theorem computeLlrPartial_some {T : Type} (fromF32 : F → T) (hp : Processable P cs nsym) :
    ∃ llr, computeLlrPartial P toAmp cs fromF32 nsym = some llr ∧ llr.length = P.dataBits := by
  have hnone : ∀ b : List F, none = some b → b.length = (List.replicate (codewordBitLen P) (0.0 : F)).length :=
    fun b hb => by cases hb
  obtain ⟨r,hrun,hlen,-⟩ := fillBmetForNsym_some toAmp hp hnone
  rw [computeLlrPartial,hrun]
  refine ⟨_,rfl,?_⟩
  rw [length_scaleBmet,hlen,List.length_replicate,codewordBitLen_eq]

/-- The fast soft values are those of single symbols. -/
theorem computeLlrFast_eq {T : Type} (fromF32 : F → T) {r : List F × Option (List F)}
    (hrun : fillBmetForNsym P toAmp cs 1 (List.replicate (codewordBitLen P) 0.0)
      (some (List.replicate (codewordBitLen P) 0.0)) = some r) :
    computeLlrFast P toAmp cs fromF32 = some
      ⟨scaleBmet fromF32 r.1,scaleBmet fromF32 (List.replicate (codewordBitLen P) 0.0),
        scaleBmet fromF32 (List.replicate (codewordBitLen P) 0.0),
        scaleBmet fromF32 (r.2.getD (List.replicate (codewordBitLen P) 0.0)),[]⟩ := by
  rw [computeLlrFast,computeLlrGeneric,List.range'_one,List.foldlM_cons,if_neg (by decide),if_pos rfl,hrun]
  rfl

theorem computeLlrFast_some {T : Type} (fromF32 : F → T) (hp : Processable P cs 1) :
    ∃ set, computeLlrFast P toAmp cs fromF32 = some set ∧ set.llra.length = P.dataBits ∧
      set.llrd.length = P.dataBits := by
  have hzeros : (List.replicate (codewordBitLen P) (0.0 : F)).length = P.dataBits := by
    rw [List.length_replicate,codewordBitLen_eq]
  have hnorm : ∀ b, some (List.replicate (codewordBitLen P) (0.0 : F)) = some b →
      b.length = (List.replicate (codewordBitLen P) (0.0 : F)).length := fun b hb => Option.some.inj hb ▸ rfl
  obtain ⟨r,hrun,hlen,hnormlen⟩ := fillBmetForNsym_some toAmp hp hnorm
  refine ⟨_,computeLlrFast_eq toAmp fromF32 hrun,by rw [length_scaleBmet,hlen,hzeros],?_⟩
  rw [length_scaleBmet]
  cases hr : r.2 with
  | none => exact hzeros
  | some b => exact (hnormlen b hr).trans hzeros

end Total

end MfskCore.Engine
