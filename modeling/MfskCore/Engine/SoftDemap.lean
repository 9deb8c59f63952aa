import MfskCore.Engine.BitMetrics
import MfskCore.Rust.ExactF32
import Mathlib.Algebra.BigOperators.Pi
import Mathlib.Algebra.Group.Prod
import Mathlib.Algebra.Order.Field.Basic
import Mathlib.Tactic.NormNum

/-! The soft values agree with the tones that were sent (`engine/tx.rs` against `engine/llr.rs`): in exact arithmetic
every metric has the sign of its bit wherever the tones of each group are the strongest joint hypothesis. -/
namespace MfskCore.Engine
open Rust Fec Library

section Signs
variable {K S : Type} [Field K] [LinearOrder K] [IsStrictOrderedRing K] [ExactRoots K] {P : FrameParams}
  {toAmp : S → K × K} {cs : List S} {cw itone : List UInt8} {nsym : Nat}

omit [IsStrictOrderedRing K] in
theorem below_iff {top v : K} : Below top v ↔ v < top := ⟨And.left,fun h => ⟨h,h.asymm⟩⟩

omit [IsStrictOrderedRing K] in
theorem magnitude_nonneg (z : K × K) : 0 ≤ magnitude z := ExactRoots.sqrt_nonneg _

theorem neg_infinity_lt (z : K × K) : -F32.infinity < magnitude z :=
  (neg_neg_of_pos (ExactRoots.infinity_pos (K := K))).trans_le (magnitude_nonneg z)

/-- The amplitude of a symbol at a tone. -/
def symbolAmp (P : FrameParams) (toAmp : S → K × K) (cs : List S) (k tone : Nat) : K × K :=
  ((cs[k * P.NTONES + tone]?).map toAmp).getD 0

/-- The joint amplitude of a group at a choice of tones. -/
def groupAmp (P : FrameParams) (toAmp : S → K × K) (cs : List S) (nsym ks : Nat) (tones : Nat → Nat) : K × K :=
  ∑ s ∈ Finset.range nsym, symbolAmp P toAmp cs (ks + s) (tones s)

/-- Every other choice of tones is weaker than the tones of the frame. -/
def GroupClear (P : FrameParams) (toAmp : S → K × K) (cs : List S) (itone : List UInt8) (nsym ks : Nat) : Prop :=
  ∀ tones : Nat → Nat, (∀ s < nsym, tones s < P.NTONES) → (∃ s < nsym, tones s ≠ (itone.getD (ks + s) 0).toNat) →
    magnitude (groupAmp P toAmp cs nsym ks tones) <
      magnitude (groupAmp P toAmp cs nsym ks fun s => (itone.getD (ks + s) 0).toNat)

/-- The number the bits of a group write. -/
def sentIndex (P : FrameParams) (cw : List UInt8) (nsym base : Nat) : Nat :=
  wordValue (fun j => (P.channelBit cw j).toNat) base (nsym * P.BITS_PER_SYMBOL)

theorem sentIndex_lt (h : P.Valid) (cw : List UInt8) (nsym base : Nat) : sentIndex P cw nsym base < P.NTONES^nsym := by
  have hlt := wordValue_lt (fun j => channelBit_lt P cw j) base (nsym * P.BITS_PER_SYMBOL)
  rwa [h.tones,← Nat.pow_mul,Nat.mul_comm P.BITS_PER_SYMBOL]

omit [LinearOrder K] [IsStrictOrderedRing K] [ExactRoots K] in
theorem directSum_eq (toAmp : S → K × K) (cs : List S) (ks nsym i : Nat) :
    directSum toAmp cs P.NTONES P.GRAY_MAP ks nsym i =
      groupAmp P toAmp cs nsym ks fun s => (P.GRAY_MAP.getD (i / P.NTONES^(nsym - 1 - s) % P.NTONES) 0).toNat := rfl

/-- A group whose first symbol is data symbol `d`: the frame has the tones of the bits. -/
structure GroupSent (P : FrameParams) (cw itone : List UInt8) (nsym ks d : Nat) : Prop where
  tones : ∀ s < nsym, itone.getD (ks + s) 0 = P.dataTone cw (d + s)
  inFrame : ks + nsym ≤ P.N_SYMBOLS

omit [IsStrictOrderedRing K] in
/-- Of the joint amplitudes of a group, the one that was sent is the strongest. -/
theorem sent_strongest (h : P.Valid) {ks d : Nat} (hsent : GroupSent P cw itone nsym ks d)
    (hclear : GroupClear P toAmp cs itone nsym ks) {i : Nat} (hi : i < P.NTONES^nsym)
    (hne : i ≠ sentIndex P cw nsym (d * P.BITS_PER_SYMBOL)) :
    magnitude (directSum toAmp cs P.NTONES P.GRAY_MAP ks nsym i) <
      magnitude (directSum toAmp cs P.NTONES P.GRAY_MAP ks nsym (sentIndex P cw nsym (d * P.BITS_PER_SYMBOL))) := by
  have hn : 0 < P.NTONES := h.tones ▸ Nat.two_pow_pos _
  have hdigit (s : Nat) (hs : s < nsym) :
      sentIndex P cw nsym (d * P.BITS_PER_SYMBOL) / P.NTONES^(nsym - 1 - s) % P.NTONES = P.dataValue cw (d + s) := by
    rw [sentIndex,h.tones,wordValue_digit (fun j => channelBit_lt P cw j) _ _ hs,FrameParams.dataValue,Nat.add_mul]
  have hsame : groupAmp P toAmp cs nsym ks (fun s => (itone.getD (ks + s) 0).toNat) =
      directSum toAmp cs P.NTONES P.GRAY_MAP ks nsym (sentIndex P cw nsym (d * P.BITS_PER_SYMBOL)) := by
    rw [directSum_eq,groupAmp,groupAmp]
    refine Finset.sum_congr rfl fun s hs => ?_
    have hs := Finset.mem_range.1 hs
    rw [hdigit s hs,hsent.tones s hs]
    rfl
  have hrange (t : Nat) (ht : t < P.NTONES) : (P.GRAY_MAP.getD t 0).toNat < P.NTONES := by
    rw [List.getD_eq_getElem _ _ (h.grayLength.symm ▸ ht)]
    exact h.grayRange _ (List.getElem_mem _)
  rw [← hsame,directSum_eq]
  refine hclear _ (fun s _ => hrange _ (Nat.mod_lt _ hn)) ?_
  -- Another number has another digit, and the Gray map keeps digits apart.
  by_contra hall
  refine hne (eq_of_digits hi (sentIndex_lt h cw nsym _) fun s hs => ?_)
  have heq : (P.GRAY_MAP.getD (i / P.NTONES^(nsym - 1 - s) % P.NTONES) 0).toNat = (itone.getD (ks + s) 0).toNat :=
    by_contra fun hdiff => hall ⟨s,hs,hdiff⟩
  rw [hsent.tones s hs,FrameParams.dataTone,UInt8.toNat_inj] at heq
  have hi' : i / P.NTONES^(nsym - 1 - s) % P.NTONES < P.GRAY_MAP.length := h.grayLength.symm ▸ Nat.mod_lt _ hn
  have hv : P.dataValue cw (d + s) < P.GRAY_MAP.length := h.grayLength.symm ▸ dataValue_lt h cw (d + s)
  rw [List.getD_eq_getElem _ _ hi',List.getD_eq_getElem _ _ hv] at heq
  rw [hdigit s hs]
  exact (h.grayNodup.getElem_inj_iff).1 heq

private theorem signed_one {m : K × K} {top : K} (htop : m.1 = top) (hless : m.2 < top) : 0 < bitMetric m :=
  sub_pos.2 (htop ▸ hless)

private theorem signed_none {m : K × K} {top : K} (htop : m.2 = top) (hless : m.1 < top) : bitMetric m < 0 :=
  sub_neg.2 (htop ▸ hless)

omit [IsStrictOrderedRing K] in
private theorem bitMetricNorm_eq {m : K × K} (h : 0 < max m.1 m.2) : bitMetricNorm m = bitMetric m / max m.1 m.2 := by
  have hzero : (0.0 : K) = 0 := zero_literal
  exact if_pos (hzero ▸ h)

private theorem norm_one {m : K × K} {top : K} (hpos : 0 < top) (htop : m.1 = top) (hless : m.2 < top) :
    0 < bitMetricNorm m := by
  have hden : 0 < max m.1 m.2 := hpos.trans_le (htop ▸ le_max_left m.1 m.2)
  rw [bitMetricNorm_eq hden]
  exact div_pos (signed_one htop hless) hden

private theorem norm_none {m : K × K} {top : K} (hpos : 0 < top) (htop : m.2 = top) (hless : m.1 < top) :
    bitMetricNorm m < 0 := by
  have hden : 0 < max m.1 m.2 := hpos.trans_le (htop ▸ le_max_right m.1 m.2)
  rw [bitMetricNorm_eq hden]
  exact div_neg_of_neg_of_pos (signed_none htop hless) hden

/-- The maxima of a bit of the group are on the side of the bit. -/
theorem maxima_signed (h : P.Valid) {ks d : Nat} (hsent : GroupSent P cw itone nsym ks d)
    (hclear : GroupClear P toAmp cs itone nsym ks) {ib : Nat} (hib : ib < nsym * P.BITS_PER_SYMBOL) :
    let m := groupMaxima P nsym (groupTable toAmp cs P.NTONES P.GRAY_MAP ks nsym) ib
    Signed (P.channelBit cw (d * P.BITS_PER_SYMBOL + ib) = 1) (bitMetric m) ∧
      Signed (P.channelBit cw (d * P.BITS_PER_SYMBOL + ib) = 1) (bitMetricNorm m) := by
  intro m
  have hlen : ((groupTable toAmp cs P.NTONES P.GRAY_MAP ks nsym).map magnitude).length =
      2^(nsym * P.BITS_PER_SYMBOL) := by
    rw [List.length_map,length_groupTable,h.tones,← Nat.pow_mul,Nat.mul_comm]
  have hget : ∀ j v, ((groupTable toAmp cs P.NTONES P.GRAY_MAP ks nsym).map magnitude)[j]? = some v →
      j < P.NTONES^nsym ∧ v = magnitude (directSum toAmp cs P.NTONES P.GRAY_MAP ks nsym j) := by
    intro j v hj
    have hlt := (List.getElem?_eq_some_iff.1 hj).1
    rw [List.length_map,length_groupTable] at hlt
    rw [groupTable,List.map_map,List.getElem?_map,List.getElem?_range hlt] at hj
    exact ⟨hlt,(Option.some.inj hj).symm⟩
  have hsentlt := sentIndex_lt h cw nsym (d * P.BITS_PER_SYMBOL)
  have htop : ((groupTable toAmp cs P.NTONES P.GRAY_MAP ks nsym).map magnitude)[
      sentIndex P cw nsym (d * P.BITS_PER_SYMBOL)]? = some (magnitude (directSum toAmp cs P.NTONES P.GRAY_MAP ks nsym
        (sentIndex P cw nsym (d * P.BITS_PER_SYMBOL)))) := by
    rw [groupTable,List.map_map,List.getElem?_map,List.getElem?_range hsentlt]
    rfl
  have hmax := blockMaxima_top (lt_irrefl _) (below_iff.2 (neg_infinity_lt _)) hlen (b := nsym * P.BITS_PER_SYMBOL - 1 - ib)
    (by omega) htop fun j v hj hne => by
      obtain ⟨hlt,rfl⟩ := hget j v hj
      exact below_iff.2 (sent_strongest h hsent hclear hlt hne)
  have hbit : (sentIndex P cw nsym (d * P.BITS_PER_SYMBOL)).testBit (nsym * P.BITS_PER_SYMBOL - 1 - ib) =
      decide (P.channelBit cw (d * P.BITS_PER_SYMBOL + ib) = 1) := by
    rw [sentIndex,testBit_wordValue (fun j => channelBit_lt P cw j) _ hib]
    exact decide_eq_decide.2 (UInt8.toNat_inj (b := 1))
  rw [hbit,decide_eq_true_eq,decide_eq_false_iff_not,← Nat.one_shiftLeft,Nat.mul_comm nsym] at hmax
  obtain ⟨hone,hnone⟩ := hmax
  -- Some other hypothesis is weaker, so the strongest is not zero.
  have hpos : 0 < magnitude (directSum toAmp cs P.NTONES P.GRAY_MAP ks nsym
      (sentIndex P cw nsym (d * P.BITS_PER_SYMBOL))) := by
    have htwo : 1 < P.NTONES^nsym := by
      rw [h.tones,← Nat.pow_mul,Nat.mul_comm]
      exact Nat.one_lt_two_pow (by omega)
    obtain ⟨i,hi,hne⟩ : ∃ i < P.NTONES^nsym, i ≠ sentIndex P cw nsym (d * P.BITS_PER_SYMBOL) := by
      by_cases hfirst : sentIndex P cw nsym (d * P.BITS_PER_SYMBOL) = 0
      · exact ⟨1,htwo,by omega⟩
      · exact ⟨0,by omega,fun heq => hfirst heq.symm⟩
    exact (magnitude_nonneg _).trans_lt (sent_strongest h hsent hclear hi hne)
  exact ⟨⟨fun h1 => signed_one (hone h1).1 (hone h1).2.1,fun h0 => signed_none (hnone h0).1 (hnone h0).2.1⟩,
    ⟨fun h1 => norm_one hpos (hone h1).1 (hone h1).2.1,fun h0 => norm_none hpos (hnone h0).1 (hnone h0).2.1⟩⟩

omit [IsStrictOrderedRing K] in
/-- Metrics of the right signs keep the signs of the others. -/
theorem signed_writeMetrics {one : Nat → Prop} {D : Nat → Prop} {b : List K} {base width len : Nat} {f : Nat → K}
    (hlen : b.length = len) (hb : ∀ j < len, D j → Signed (one j) (b.getD j 0))
    (hf : ∀ ib < width, Signed (one (base + ib)) (f ib)) :
    (writeMetrics len base width f b).length = len ∧ ∀ j < len, D j ∨ (base ≤ j ∧ j < base + width) →
      Signed (one j) ((writeMetrics len base width f b).getD j 0) := by
  refine ⟨(length_foldl_set f base _ b).trans hlen,fun j hj hmem => ?_⟩
  rw [List.getD_eq_getElem?_getD,writeMetrics,getElem?_foldl_set]
  by_cases hin : base ≤ j ∧ j < base + width
  · rw [if_pos ⟨hin.1,by omega,hlen ▸ hj⟩,Option.getD_some]
    have hplace := hf (j - base) (by omega)
    rwa [Nat.add_sub_cancel' hin.1] at hplace
  · rw [if_neg (by omega),← List.getD_eq_getElem?_getD]
    exact hb j hj (hmem.resolve_right hin)

/-- The tables have their sizes, and the metrics of some of the bits have the signs of the bits. -/
structure Swept (P : FrameParams) (cw : List UInt8) (nsym len : Nat) (D : Nat → Prop) (s : MetricBuffers K) : Prop where
  table : s.table.length = P.NTONES^nsym
  scratch : s.groupScratch.length = groupScratchLen nsym P.NTONES
  length : s.bmetPrimary.length = len
  primary : ∀ j < len, D j → Signed (P.channelBit cw j = 1) (s.bmetPrimary.getD j 0)
  norm : ∀ b, s.bmetNorm = some b → b.length = len ∧ ∀ j < len, D j → Signed (P.channelBit cw j = 1) (b.getD j 0)

/-- A group adds its bits to those with the right signs. -/
theorem processGroup_swept (hp : Processable P cs nsym) {ks d len : Nat} (hsent : GroupSent P cw itone nsym ks d)
    (hclear : GroupClear P toAmp cs itone nsym ks) {D : Nat → Prop} {s : MetricBuffers K} (hs : Swept P cw nsym len D s) :
    ∃ s', processGroup P toAmp cs nsym ks (d * P.BITS_PER_SYMBOL) s = some s' ∧
      Swept P cw nsym len (fun j => D j ∨ (d * P.BITS_PER_SYMBOL ≤ j ∧
        j < d * P.BITS_PER_SYMBOL + nsym * P.BITS_PER_SYMBOL)) s' ∧ s'.bmetNorm.isSome = s.bmetNorm.isSome := by
  obtain ⟨scratch,hscratch,hbuild⟩ := (build_run toAmp hp.one_le (hp.inRange hsent.inFrame) hs.table.ge
    s.groupScratch).1 hs.scratch.ge
  rw [List.drop_eq_nil_of_le hs.table.le,List.append_nil] at hbuild
  have hbits := hp.valid.bits.1
  have hpos : 0 < nsym * P.BITS_PER_SYMBOL := Nat.mul_pos hp.one_le hbits
  have hwidth : P.BITS_PER_SYMBOL * nsym - 1 + 1 = nsym * P.BITS_PER_SYMBOL := by
    rw [Nat.mul_comm]
    omega
  have hsigned (ib : Nat) (hib : ib < nsym * P.BITS_PER_SYMBOL) := maxima_signed hp.valid hsent hclear hib
  have hfit : P.BITS_PER_SYMBOL * nsym - 1 < MAX_IBMAX_PLUS_1 := by
    have hle := hp.width
    omega
  have hprimary := signed_writeMetrics hs.length hs.primary fun ib hib => (hsigned ib hib).1
  have hnorm (b : List K) (hb : s.bmetNorm = some b) :=
    signed_writeMetrics (hs.norm b hb).1 (hs.norm b hb).2 fun ib hib => (hsigned ib hib).2
  have hrun : processGroup P toAmp cs nsym ks (d * P.BITS_PER_SYMBOL) s = some
      ⟨writeMetrics len (d * P.BITS_PER_SYMBOL) (nsym * P.BITS_PER_SYMBOL)
          (fun ib => bitMetric (groupMaxima P nsym (groupTable toAmp cs P.NTONES P.GRAY_MAP ks nsym) ib)) s.bmetPrimary,
        s.bmetNorm.map (writeMetrics len (d * P.BITS_PER_SYMBOL) (nsym * P.BITS_PER_SYMBOL)
          fun ib => bitMetricNorm (groupMaxima P nsym (groupTable toAmp cs P.NTONES P.GRAY_MAP ks nsym) ib)),
        groupTable toAmp cs P.NTONES P.GRAY_MAP ks nsym,scratch⟩ := by
    rw [processGroup,hbuild,Option.bind_eq_bind,Option.bind_some]
    dsimp only
    rw [if_pos hfit,hwidth,hs.length]
  refine ⟨_,hrun,⟨length_groupTable toAmp,hscratch.trans hs.scratch,hprimary.1,hprimary.2,fun b' hb' => ?_⟩,?_⟩
  · obtain ⟨b,hb,rfl⟩ := Option.map_eq_some_iff.1 hb'
    exact hnorm b hb
  · exact Option.isSome_map

omit [IsStrictOrderedRing K] in
theorem Swept.mono {len : Nat} {D E : Nat → Prop} {s : MetricBuffers K} (hs : Swept P cw nsym len D s)
    (h : ∀ j < len, E j → D j) : Swept P cw nsym len E s :=
  ⟨hs.table,hs.scratch,hs.length,fun j hj hE => hs.primary j hj (h j hj hE),fun b hb => ⟨(hs.norm b hb).1,
    fun j hj hE => (hs.norm b hb).2 j hj (h j hj hE)⟩⟩

/-- So do the groups at a series of places of a chunk whose first symbol is data symbol `o`. -/
theorem groups_swept (hp : Processable P cs nsym) {start o len : Nat} {starts : List Nat}
    (hsent : ∀ k ∈ starts, GroupSent P cw itone nsym (start + k) (o + k))
    (hclear : ∀ k ∈ starts, GroupClear P toAmp cs itone nsym (start + k)) {D : Nat → Prop} {s : MetricBuffers K}
    (hs : Swept P cw nsym len D s) :
    ∃ s', starts.foldlM (fun s k => processGroup P toAmp cs nsym (start + k)
        (o * P.BITS_PER_SYMBOL + k * P.BITS_PER_SYMBOL) s) s = some s' ∧
      Swept P cw nsym len (fun j => D j ∨ ∃ k ∈ starts, (o + k) * P.BITS_PER_SYMBOL ≤ j ∧
        j < (o + k) * P.BITS_PER_SYMBOL + nsym * P.BITS_PER_SYMBOL) s' ∧ s'.bmetNorm.isSome = s.bmetNorm.isSome := by
  induction starts generalizing D s with
  | nil => exact ⟨s,rfl,hs.mono fun j _ h => h.resolve_right (by simp),rfl⟩
  | cons k starts ih =>
    obtain ⟨s₁,hrun,hs₁,hsome⟩ := processGroup_swept hp (hsent k List.mem_cons_self) (hclear k List.mem_cons_self) hs
    obtain ⟨s₂,hrest,hs₂,hsome₂⟩ := ih (fun l hl => hsent l (List.mem_cons_of_mem k hl))
      (fun l hl => hclear l (List.mem_cons_of_mem k hl)) hs₁
    refine ⟨s₂,?_,hs₂.mono fun j _ h => ?_,hsome₂.trans hsome⟩
    · rw [List.foldlM_cons,← Nat.add_mul,hrun,Option.bind_eq_bind,Option.bind_some,hrest]
    · rcases h with h | ⟨l,hl,hj⟩
      · exact Or.inl (Or.inl h)
      · rcases List.mem_cons.1 hl with rfl | hl
        · exact Or.inl (Or.inr hj)
        · exact Or.inr ⟨l,hl,hj⟩

/-- The frame's tones are the strongest in every group of symbols that is demapped. -/
def FrameClear (P : FrameParams) (toAmp : S → K × K) (cs : List S) (itone : List UInt8) (nsym : Nat) : Prop :=
  ∀ chunk ∈ P.dataChunks, ∀ k ∈ groupStarts nsym chunk.2, GroupClear P toAmp cs itone nsym (chunk.1 + k)

/-- The chunks, after some that hold the first data symbols. -/
theorem chunks_swept (hp : Processable P cs nsym) (hcw : cw.length = P.dataBits)
    (hitone : P.codewordToItone cw = some itone) (hfit : ∀ chunk ∈ P.dataChunks, nsym ≤ chunk.2)
    (hclear : FrameClear P toAmp cs itone nsym) {pre post : List (Nat × Nat)} (hsplit : P.dataChunks = pre ++ post)
    {s : MetricBuffers K} (hs : Swept P cw nsym P.dataBits
      (fun j => j < (pre.flatMap fun c => List.range' c.1 c.2).length * P.BITS_PER_SYMBOL) s) :
    ∃ r, post.foldlM (fun (s : MetricBuffers K × Nat) chunk =>
        (processChunk P toAmp cs nsym chunk s.2 s.1).map fun b => (b,s.2 + chunk.2 * P.BITS_PER_SYMBOL))
        (s,(pre.flatMap fun c => List.range' c.1 c.2).length * P.BITS_PER_SYMBOL) = some r ∧
      Swept P cw nsym P.dataBits (fun _ => True) r.1 ∧ r.1.bmetNorm.isSome = s.bmetNorm.isSome := by
  induction post generalizing pre s with
  | nil =>
    rw [List.append_nil] at hsplit
    exact ⟨_,rfl,hs.mono fun j hj _ => hsplit ▸ hj,rfl⟩
  | cons chunk post ih =>
    obtain ⟨o,ho⟩ : ∃ o, (pre.flatMap fun c => List.range' c.1 c.2).length = o := ⟨_,rfl⟩
    rw [ho] at hs ⊢
    have hmem : chunk ∈ P.dataChunks := hsplit ▸ List.mem_append_right _ List.mem_cons_self
    have hplaces : ∀ t < chunk.2, P.dataSymbols[o + t]? = some (chunk.1 + t) := by
      intro t ht
      rw [FrameParams.dataSymbols,hsplit,List.flatMap_append,List.flatMap_cons,← ho,
        List.getElem?_append_right (Nat.le_add_right _ _),Nat.add_sub_cancel_left,
        List.getElem?_append_left (by rwa [List.length_range']),List.getElem?_range' ht,Nat.one_mul]
    have hsent : ∀ k ∈ groupStarts nsym chunk.2, GroupSent P cw itone nsym (chunk.1 + k) (o + k) := by
      intro k hk
      have hle := groupStarts_le hk
      refine ⟨fun t ht => ?_,?_⟩
      · have hplace := hplaces (k + t) (by omega)
        have htone := itone_data hp.valid hcw hitone hplace
        rw [← Nat.add_assoc,← Nat.add_assoc] at htone
        rw [List.getD_eq_getElem?_getD,htone,Option.getD_some]
      · have hend := chunk_end_le hp.valid hmem
        omega
    obtain ⟨s₁,hrun,hs₁,hsome⟩ := groups_swept hp hsent (hclear chunk hmem) hs
    rw [← processChunk_eq] at hrun
    have hnext : ((pre ++ [chunk]).flatMap fun c => List.range' c.1 c.2).length = o + chunk.2 := by
      rw [List.flatMap_append,List.length_append,ho,List.flatMap_singleton,List.length_range']
    have hcovered : ∀ j < P.dataBits, j < (o + chunk.2) * P.BITS_PER_SYMBOL → j < o * P.BITS_PER_SYMBOL ∨
        ∃ k ∈ groupStarts nsym chunk.2, (o + k) * P.BITS_PER_SYMBOL ≤ j ∧
          j < (o + k) * P.BITS_PER_SYMBOL + nsym * P.BITS_PER_SYMBOL := by
      intro j _ hj
      by_cases hbefore : j < o * P.BITS_PER_SYMBOL
      · exact Or.inl hbefore
      -- The symbol of the bit is in some group.
      obtain ⟨t,ht⟩ : ∃ t, j / P.BITS_PER_SYMBOL = o + t :=
        Nat.exists_eq_add_of_le ((Nat.le_div_iff_mul_le hp.valid.bits.1).2 (Nat.le_of_not_lt hbefore))
      have htlt : t < chunk.2 := by
        have hlt := Nat.div_lt_of_lt_mul (Nat.mul_comm (o + chunk.2) _ ▸ hj)
        omega
      obtain ⟨k,hk,hle,hlt⟩ := exists_groupStart hp.one_le (hfit chunk hmem) htlt
      have hlow := Nat.div_mul_le_self j P.BITS_PER_SYMBOL
      have hhigh := Nat.lt_div_mul_add (a := j) (b := P.BITS_PER_SYMBOL) hp.valid.bits.1
      have hfirst : (o + k) * P.BITS_PER_SYMBOL ≤ (o + t) * P.BITS_PER_SYMBOL := Nat.mul_le_mul_right _ (by omega)
      have hlast : (o + t + 1) * P.BITS_PER_SYMBOL ≤ (o + k + nsym) * P.BITS_PER_SYMBOL :=
        Nat.mul_le_mul_right _ (by omega)
      rw [ht] at hlow hhigh
      rw [Nat.succ_mul,Nat.add_mul (o + k)] at hlast
      exact Or.inr ⟨k,hk,by omega,by omega⟩
    have hsplit' : P.dataChunks = (pre ++ [chunk]) ++ post := by rw [hsplit,List.append_assoc]; rfl
    obtain ⟨r,hrest,hr,hsome₂⟩ := ih hsplit' (by rw [hnext]; exact hs₁.mono hcovered)
    refine ⟨r,?_,hr,hsome₂.trans hsome⟩
    rw [List.foldlM_cons,hrun,Option.map_some,Option.bind_eq_bind,Option.bind_some,← Nat.add_mul,← hnext,hrest]

/-- The metrics of a protocol whose chunks are as long as a group have the signs of the channel bits, whatever the
buffers held. -/
theorem fillBmetForNsym_signed (hp : Processable P cs nsym) (hcw : cw.length = P.dataBits)
    (hitone : P.codewordToItone cw = some itone) (hfit : ∀ chunk ∈ P.dataChunks, nsym ≤ chunk.2)
    (hclear : FrameClear P toAmp cs itone nsym) {bmet : List K} (hbmet : bmet.length = P.dataBits)
    {bmetNorm : Option (List K)} (hnorm : ∀ b, bmetNorm = some b → b.length = P.dataBits) :
    ∃ r, fillBmetForNsym P toAmp cs nsym bmet bmetNorm = some r ∧
      r.1.length = P.dataBits ∧ (∀ j < P.dataBits, Signed (P.channelBit cw j = 1) (r.1.getD j 0)) ∧
      r.2.isSome = bmetNorm.isSome ∧ ∀ b, r.2 = some b → b.length = P.dataBits ∧
        ∀ j < P.dataBits, Signed (P.channelBit cw j = 1) (b.getD j 0) := by
  have hstart : Swept P cw nsym P.dataBits
      (fun j => j < (([] : List (Nat × Nat)).flatMap fun c => List.range' c.1 c.2).length * P.BITS_PER_SYMBOL)
      (⟨bmet,bmetNorm,List.replicate (P.NTONES^nsym) (0.0,0.0),
        List.replicate (groupScratchLen nsym P.NTONES) (0.0,0.0)⟩ : MetricBuffers K) := by
    refine ⟨List.length_replicate,List.length_replicate,hbmet,fun j _ hj => absurd hj (by simp),
      fun b hb => ⟨hnorm b hb,fun j _ hj => absurd hj (by simp)⟩⟩
  obtain ⟨r,hrun,hr,hsome⟩ := chunks_swept hp hcw hitone hfit hclear (List.nil_append P.dataChunks).symm hstart
  have hpos : ¬P.BITS_PER_SYMBOL * nsym = 0 := (Nat.mul_pos hp.valid.bits.1 hp.one_le).ne'
  rw [List.flatMap_nil,List.length_nil,Nat.zero_mul] at hrun
  refine ⟨(r.1.bmetPrimary,r.1.bmetNorm),?_,hr.length,fun j hj => hr.primary j hj trivial,hsome,
    fun b hb => ⟨(hr.norm b hb).1,fun j hj => (hr.norm b hb).2 j hj trivial⟩⟩
  rw [fillBmetForNsym,if_neg hpos]
  dsimp only
  rw [hrun]
  rfl

/-- The scale of the soft values is positive. -/
theorem scaleBmet_eq (v : List K) : ∃ c : K, 0 < c ∧ scaleBmet id v = v.map fun x => x * c := by
  have hzero : (0.0 : K) = 0 := zero_literal
  have hscale : (0 : K) < LLR_SCALE := by
    show (0 : K) < 2.83
    norm_num
  obtain ⟨d,hd,hnorm⟩ : ∃ d : K, 0 < d ∧ normalizeBmet v = v.map fun x => x / d := by
    rw [normalizeBmet]
    split
    · rename_i hpos
      exact ⟨bmetDeviation v,hzero ▸ hpos,rfl⟩
    · refine ⟨1,one_pos,?_⟩
      simp only [div_one,List.map_id']
  refine ⟨LLR_SCALE / d,div_pos hscale hd,?_⟩
  rw [scaleBmet,hnorm,List.map_map]
  refine List.map_congr_left fun x _ => ?_
  show x / d * LLR_SCALE = x * (LLR_SCALE / d)
  ring

/-- Soft values in the order of the codeword, each on the side of its bit. -/
structure SoftWord (P : FrameParams) (cw : List UInt8) (llr : List K) : Prop where
  length : llr.length = P.dataBits
  signed : ∀ i < P.dataBits, Signed (cw.getD i 0 = 1) (llr.getD i 0)

omit [IsStrictOrderedRing K] in
/-- Soft values of channel bits, each on the side of its bit, are put in the order of the codeword. -/
theorem deinterleave_softWord (h : P.Valid) (hbits : IsBits P.dataBits cw) {llr : List K}
    (hlen : llr.length = P.dataBits)
    (hsigned : ∀ j < P.dataBits, Signed (P.channelBit cw j = 1) (llr.getD j 0)) :
    ∃ out, deinterleave P llr = some out ∧ SoftWord P cw out := by
  obtain ⟨out,hout,houtlen,hplaces⟩ := deinterleave_eq h hlen
  refine ⟨out,hout,houtlen,fun i hi => ?_⟩
  obtain ⟨j,hj,hindex,hvalue⟩ := hplaces i hi
  have hbit : P.channelBit cw j = cw.getD i 0 := by
    rw [FrameParams.channelBit,hindex,Option.getD_some]
    have hlt : (cw.getD i 0).toNat < 2 := hbits.getD_lt i
    rw [← UInt8.toNat_inj,UInt8.toNat_and]
    show (cw.getD i 0).toNat &&& 1 = (cw.getD i 0).toNat
    rw [Nat.and_one_is_mod,Nat.mod_eq_of_lt hlt]
  have hsame : out.getD i 0 = llr.getD j 0 := by
    rw [List.getD_eq_getElem?_getD,hvalue,← List.getD_eq_getElem?_getD]
  rw [hsame,← hbit]
  exact hsigned j hj

theorem scaled_signed {v : List K} (hlen : v.length = P.dataBits)
    (hsigned : ∀ j < P.dataBits, Signed (P.channelBit cw j = 1) (v.getD j 0)) :
    (scaleBmet id v).length = P.dataBits ∧
      ∀ j < P.dataBits, Signed (P.channelBit cw j = 1) ((scaleBmet id v).getD j 0) := by
  obtain ⟨c,hc,hscale⟩ := scaleBmet_eq v
  refine ⟨by rw [hscale,List.length_map,hlen],fun j hj => ?_⟩
  rw [hscale,List.getD_eq_getElem _ _ (by rw [List.length_map,hlen]; exact hj),List.getElem_map,
    ← List.getD_eq_getElem _ 0]
  exact (hsigned j hj).mul hc

omit [IsStrictOrderedRing K] in
theorem length_zeros : (List.replicate (codewordBitLen P) (0.0 : K)).length = P.dataBits := by
  rw [List.length_replicate,codewordBitLen_eq]

/-- A depth of groups demaps the frame of a codeword that is clear at that depth. -/
theorem softWord_of_clear (hp : Processable P cs nsym) (hbits : IsBits P.dataBits cw)
    (hitone : P.codewordToItone cw = some itone) (hfit : ∀ chunk ∈ P.dataChunks, nsym ≤ chunk.2)
    (hclear : FrameClear P toAmp cs itone nsym) :
    ∃ llr out, computeLlrPartial P toAmp cs id nsym = some llr ∧ deinterleave P llr = some out ∧ SoftWord P cw out := by
  have hnone : ∀ b : List K, none = some b → b.length = P.dataBits := fun b hb => by cases hb
  obtain ⟨r,hrun,hlen,hsigned,-,-⟩ := fillBmetForNsym_signed hp hbits.1 hitone hfit hclear length_zeros hnone
  obtain ⟨hscaled,hsides⟩ := scaled_signed hlen hsigned
  obtain ⟨out,hout,hsoft⟩ := deinterleave_softWord hp.valid hbits hscaled hsides
  exact ⟨scaleBmet id r.1,out,by rw [computeLlrPartial,hrun]; rfl,hout,hsoft⟩

/-- So do the fast soft values, with the absolute metrics and with the relative ones. -/
theorem fast_of_clear (hp : Processable P cs 1) (hbits : IsBits P.dataBits cw) (hitone : P.codewordToItone cw = some itone)
    (hclear : FrameClear P toAmp cs itone 1) :
    ∃ set llra llrd, computeLlrFast P toAmp cs id = some set ∧ deinterleave P set.llra = some llra ∧
      deinterleave P set.llrd = some llrd ∧ SoftWord P cw llra ∧ SoftWord P cw llrd := by
  have hnorm : ∀ b, some (List.replicate (codewordBitLen P) (0.0 : K)) = some b → b.length = P.dataBits :=
    fun b hb => Option.some.inj hb ▸ length_zeros
  obtain ⟨r,hrun,hlen,hsigned,hsome,hnormed⟩ := fillBmetForNsym_signed hp hbits.1 hitone
    (fun chunk hchunk => dataChunks_pos hchunk) hclear length_zeros hnorm
  obtain ⟨b,hb⟩ := Option.isSome_iff_exists.1 (hsome.trans rfl)
  obtain ⟨hscaled,hsides⟩ := scaled_signed hlen hsigned
  obtain ⟨hscaled',hsides'⟩ := scaled_signed (hnormed b hb).1 (hnormed b hb).2
  obtain ⟨llra,hllra,hsoft⟩ := deinterleave_softWord hp.valid hbits hscaled hsides
  obtain ⟨llrd,hllrd,hsoft'⟩ := deinterleave_softWord hp.valid hbits hscaled' hsides'
  refine ⟨_,llra,llrd,computeLlrFast_eq toAmp id hrun,hllra,?_,hsoft,hsoft'⟩
  rw [hb]
  exact hllrd

end Signs

section Clean
variable {K S : Type} [Field K] [LinearOrder K] [IsStrictOrderedRing K] [ExactRoots K] {P : FrameParams}
  {toAmp : S → K × K} {cs : List S} {itone : List UInt8}

/-- One amplitude at the tone that was sent, and silence at the other tones. -/
def CleanFrame (P : FrameParams) (toAmp : S → K × K) (cs : List S) (itone : List UInt8) (a : K × K) : Prop :=
  ∀ k ∈ P.dataSymbols, ∀ tone < P.NTONES,
    symbolAmp P toAmp cs k tone = if tone = (itone.getD k 0).toNat then a else 0

theorem sqrt_lt_sqrt {x y : K} (hx : 0 ≤ x) (hxy : x < y) : ExactRoots.sqrt x < ExactRoots.sqrt y := by
  by_contra hle
  have hsq := mul_self_le_mul_self (ExactRoots.sqrt_nonneg y) (not_lt.1 hle)
  rw [ExactRoots.sqrt_mul_self x hx,ExactRoots.sqrt_mul_self y (hx.trans hxy.le)] at hsq
  exact absurd hxy (not_lt.2 hsq)

/-- More copies of an amplitude that is not zero are stronger. -/
theorem magnitude_nsmul_lt {a : K × K} (ha : a ≠ 0) {m n : Nat} (hmn : m < n) : magnitude (m • a) < magnitude (n • a) := by
  have hsq (n : Nat) : (n • a).1 * (n • a).1 + (n • a).2 * (n • a).2 = (n : K) * n * (a.1 * a.1 + a.2 * a.2) := by
    rw [Prod.smul_fst,Prod.smul_snd,nsmul_eq_mul,nsmul_eq_mul]
    ring
  have hnorm : 0 < a.1 * a.1 + a.2 * a.2 := by
    refine (add_nonneg (mul_self_nonneg _) (mul_self_nonneg _)).lt_of_ne' fun hzero => ha ?_
    obtain ⟨h1,h2⟩ := (add_eq_zero_iff_of_nonneg (mul_self_nonneg _) (mul_self_nonneg _)).1 hzero
    exact Prod.ext (mul_self_eq_zero.1 h1) (mul_self_eq_zero.1 h2)
  have hcast : (m : K) * m < (n : K) * n := mul_self_lt_mul_self (Nat.cast_nonneg m) (Nat.cast_lt.2 hmn)
  have hless : (m : K) * m * (a.1 * a.1 + a.2 * a.2) < (n : K) * n * (a.1 * a.1 + a.2 * a.2) :=
    mul_lt_mul_of_pos_right hcast hnorm
  rw [← hsq,← hsq] at hless
  exact sqrt_lt_sqrt (add_nonneg (mul_self_nonneg _) (mul_self_nonneg _)) hless

/-- A clean frame is clear at every depth. -/
theorem clear_of_clean (h : P.Valid) {cw : List UInt8} (hcw : cw.length = P.dataBits)
    (hitone : P.codewordToItone cw = some itone) {a : K × K} (ha : a ≠ 0) (hclean : CleanFrame P toAmp cs itone a)
    (nsym : Nat) : FrameClear P toAmp cs itone nsym := by
  intro chunk hchunk k hk tones htones hother
  have hgroup := groupStarts_le hk
  have hdata : ∀ s < nsym, chunk.1 + k + s ∈ P.dataSymbols := fun s hs =>
    List.mem_flatMap.2 ⟨chunk,hchunk,List.mem_range'_1.2 ⟨by omega,by omega⟩⟩
  -- The joint amplitude counts the symbols where the choice agrees with the frame.
  have hcount : ∀ tones : Nat → Nat, (∀ s < nsym, tones s < P.NTONES) →
      groupAmp P toAmp cs nsym (chunk.1 + k) tones =
        ((Finset.range nsym).filter fun s => tones s = (itone.getD (chunk.1 + k + s) 0).toNat).card • a := by
    intro tones htones
    rw [groupAmp,← Finset.sum_const,Finset.sum_filter]
    refine Finset.sum_congr rfl fun s hs => ?_
    have hs := Finset.mem_range.1 hs
    exact hclean _ (hdata s hs) _ (htones s hs)
  rw [hcount tones htones,hcount _ fun s hs => itone_data_lt h hcw hitone (hdata s hs)]
  refine magnitude_nsmul_lt ha (Finset.card_lt_card (Finset.ssubset_iff_subset_ne.2 ⟨?_,?_⟩))
  · exact fun s hs => Finset.mem_filter.2 ⟨(Finset.mem_filter.1 hs).1,rfl⟩
  · obtain ⟨s,hs,hne⟩ := hother
    intro heq
    have hmem : s ∈ (Finset.range nsym).filter fun s =>
        (itone.getD (chunk.1 + k + s) 0).toNat = (itone.getD (chunk.1 + k + s) 0).toNat :=
      Finset.mem_filter.2 ⟨Finset.mem_range.2 hs,rfl⟩
    rw [← heq] at hmem
    exact hne (Finset.mem_filter.1 hmem).2

/-- The spectra of a frame without noise: one amplitude at the tone of each symbol. -/
def cleanSpectra (P : FrameParams) (a : K × K) (itone : List UInt8) : List (K × K) :=
  (List.range (P.N_SYMBOLS * P.NTONES)).map fun j =>
    if j % P.NTONES = (itone.getD (j / P.NTONES) 0).toNat then a else 0

omit [LinearOrder K] [IsStrictOrderedRing K] [ExactRoots K] in
theorem length_cleanSpectra (a : K × K) : (cleanSpectra P a itone).length = P.N_SYMBOLS * P.NTONES := by
  rw [cleanSpectra,List.length_map,List.length_range]

omit [LinearOrder K] [IsStrictOrderedRing K] [ExactRoots K] in
theorem symbolAmp_cleanSpectra (a : K × K) {k tone : Nat} (hk : k < P.N_SYMBOLS) (htone : tone < P.NTONES) :
    symbolAmp P id (cleanSpectra P a itone) k tone = if tone = (itone.getD k 0).toNat then a else 0 := by
  rw [symbolAmp,cleanSpectra,List.getElem?_map,List.getElem?_range (rowMajor_lt hk htone),Nat.mul_comm,Option.map_some,
    Nat.mul_add_mod,Nat.mod_eq_of_lt htone,Nat.mul_add_div (Nat.zero_lt_of_lt htone),Nat.div_eq_of_lt htone,Nat.add_zero]
  rfl

omit [LinearOrder K] [IsStrictOrderedRing K] [ExactRoots K] in
theorem cleanFrame_cleanSpectra (h : P.Valid) (a : K × K) : CleanFrame P id (cleanSpectra P a itone) itone a :=
  fun _ hk _ htone => symbolAmp_cleanSpectra a
    (List.mem_range.1 (h.places.subset (List.mem_append_right _ hk))) htone

variable {cw : List UInt8} {nsym : Nat}

/-- A frame without noise is demapped to the codeword it was sent for, for every layout of sync blocks, Gray map,
interleaver and depth of groups that there is room for and that no chunk is too short for. -/
theorem clean_frame_demaps (hp : Processable P cs nsym) (hfit : ∀ chunk ∈ P.dataChunks, nsym ≤ chunk.2)
    (hbits : IsBits P.dataBits cw) {start : List K} (hstart : start.length = P.dataBits) {a : K × K} (ha : a ≠ 0)
    (hclean : ∀ itone, P.codewordToItone cw = some itone → CleanFrame P toAmp cs itone a) :
    ∃ itone bmet out, P.codewordToItone cw = some itone ∧
      fillBmetForNsym P toAmp cs nsym start none = some (bmet,none) ∧ bmet.length = P.dataBits ∧
      (∀ j < P.dataBits, Signed (P.channelBit cw j = 1) (bmet.getD j 0)) ∧
      deinterleave P bmet = some out ∧ SoftWord P cw out := by
  have hitone := codewordToItone_eq hp.valid hbits.1
  have hclear := clear_of_clean hp.valid hbits.1 hitone ha (hclean _ hitone) nsym
  have hnone : ∀ b : List K, none = some b → b.length = P.dataBits := fun b hb => by cases hb
  obtain ⟨⟨bmet,norm⟩,hrun,hlen,hsigned,hsome,-⟩ := fillBmetForNsym_signed hp hbits.1 hitone hfit hclear hstart hnone
  obtain rfl : norm = none := Option.isSome_eq_false_iff.1 hsome |> Option.isNone_iff_eq_none.1
  obtain ⟨out,hout,hsoft⟩ := deinterleave_softWord hp.valid hbits hlen hsigned
  exact ⟨_,bmet,out,hitone,hrun,hlen,hsigned,hout,hsoft⟩

/-- Noise does no harm as long as the tones that were sent are the strongest joint hypothesis: every metric has the sign
of its channel bit, and the soft values that go to the decoder have the signs of the codeword. -/
theorem demapping_agrees (hp : Processable P cs nsym) (hbits : IsBits P.dataBits cw)
    (hfit : ∀ chunk ∈ P.dataChunks, nsym ≤ chunk.2)
    (hclear : ∀ itone, P.codewordToItone cw = some itone → FrameClear P toAmp cs itone nsym) :
    ∃ itone bmet llr out, P.codewordToItone cw = some itone ∧
      fillBmetForNsym P toAmp cs nsym (List.replicate (codewordBitLen P) 0.0) none = some (bmet,none) ∧
      bmet.length = P.dataBits ∧ (∀ j < P.dataBits, Signed (P.channelBit cw j = 1) (bmet.getD j 0)) ∧
      computeLlrPartial P toAmp cs id nsym = some llr ∧ deinterleave P llr = some out ∧ SoftWord P cw out := by
  have hitone := codewordToItone_eq hp.valid hbits.1
  have hframe := hclear _ hitone
  have hnone : ∀ b : List K, none = some b → b.length = P.dataBits := fun b hb => by cases hb
  obtain ⟨⟨bmet,norm⟩,hrun,hlen,hsigned,hsome,-⟩ := fillBmetForNsym_signed hp hbits.1 hitone hfit hframe length_zeros hnone
  obtain rfl : norm = none := Option.isSome_eq_false_iff.1 hsome |> Option.isNone_iff_eq_none.1
  obtain ⟨llr,out,hllr,hout,hsoft⟩ := softWord_of_clear hp hbits hitone hfit hframe
  exact ⟨_,bmet,llr,out,hitone,hrun,hlen,hsigned,hllr,hout,hsoft⟩

end Clean

section Real

/-- Two chunks of three symbols of two bits, of which the groups of two leave one out, behind an interleaver. -/
def smallFrame : FrameParams where
  ID := .Fst4
  NTONES := 4
  BITS_PER_SYMBOL := 2
  GRAY_MAP := [0,1,3,2]
  LLR_NSYM_MAX := 2
  LLR_NSYM_MID := none
  INFO_SCRAMBLE_RVEC := none
  N_SYNC := 2
  N_SYMBOLS := 8
  blocks := [⟨0,[2]⟩,⟨4,[1]⟩]
  CODEWORD_INTERLEAVE := some [5,0,10,3,8,1,6,11,4,9,2,7]
  fec := .Ldpc174_91

theorem valid_smallFrame : smallFrame.Valid := ⟨by decide,rfl,rfl,by decide,List.all_iff_forall_prop.1 rfl,by decide,
  by decide,fun table htable => Option.some.inj htable ▸ by decide⟩

theorem smallFrame_tones :
    smallFrame.codewordToItone [1,0,0,1,1,1,0,1,0,0,1,0] = some [2,2,2,0,1,0,3,1] := by decide

theorem clean_frame_demaps_small : ∃ itone bmet out,
    smallFrame.codewordToItone [1,0,0,1,1,1,0,1,0,0,1,0] = some itone ∧
    fillBmetForNsym smallFrame id (cleanSpectra smallFrame ((1,0) : ℝ × ℝ) [2,2,2,0,1,0,3,1]) 2
      (List.replicate 12 0.0) none = some (bmet,none) ∧ bmet.length = smallFrame.dataBits ∧
    (∀ j < smallFrame.dataBits, Signed (smallFrame.channelBit [1,0,0,1,1,1,0,1,0,0,1,0] j = 1) (bmet.getD j 0)) ∧
    deinterleave smallFrame bmet = some out ∧ SoftWord smallFrame [1,0,0,1,1,1,0,1,0,0,1,0] out := by
  refine clean_frame_demaps ⟨valid_smallFrame,by decide,by decide,length_cleanSpectra _⟩ (by decide)
    ⟨rfl,List.all_iff_forall_prop.1 rfl⟩ rfl (a := (1,0)) (by simp) fun itone h => ?_
  obtain rfl : [2,2,2,0,1,0,3,1] = itone := Option.some.inj (smallFrame_tones.symm.trans h)
  exact cleanFrame_cleanSpectra valid_smallFrame _

theorem demapping_agrees_small : ∃ itone bmet llr out,
    smallFrame.codewordToItone [1,0,0,1,1,1,0,1,0,0,1,0] = some itone ∧
    fillBmetForNsym smallFrame id (cleanSpectra smallFrame ((1,0) : ℝ × ℝ) [2,2,2,0,1,0,3,1]) 2
      (List.replicate (codewordBitLen smallFrame) 0.0) none = some (bmet,none) ∧ bmet.length = smallFrame.dataBits ∧
    (∀ j < smallFrame.dataBits, Signed (smallFrame.channelBit [1,0,0,1,1,1,0,1,0,0,1,0] j = 1) (bmet.getD j 0)) ∧
    computeLlrPartial smallFrame id (cleanSpectra smallFrame ((1,0) : ℝ × ℝ) [2,2,2,0,1,0,3,1]) id 2 = some llr ∧
    deinterleave smallFrame llr = some out ∧ SoftWord smallFrame [1,0,0,1,1,1,0,1,0,0,1,0] out := by
  have hbits : IsBits smallFrame.dataBits [1,0,0,1,1,1,0,1,0,0,1,0] := ⟨rfl,List.all_iff_forall_prop.1 rfl⟩
  refine demapping_agrees ⟨valid_smallFrame,by decide,by decide,length_cleanSpectra _⟩ hbits (by decide) fun itone h => ?_
  obtain rfl : [2,2,2,0,1,0,3,1] = itone := Option.some.inj (smallFrame_tones.symm.trans h)
  exact clear_of_clean (a := (1,0)) valid_smallFrame hbits.1 h (by simp) (cleanFrame_cleanSpectra valid_smallFrame _) 2

/-- Symbols of so many bits, and no sync blocks. -/
def plainFrame (bits symbols : Nat) : FrameParams where
  ID := .Fst4
  NTONES := 2^bits
  BITS_PER_SYMBOL := bits
  GRAY_MAP := (List.range (2^bits)).map UInt8.ofNat
  LLR_NSYM_MAX := 2
  LLR_NSYM_MID := none
  INFO_SCRAMBLE_RVEC := none
  N_SYNC := 0
  N_SYMBOLS := symbols
  blocks := []
  CODEWORD_INTERLEAVE := none
  fec := .Ldpc174_91

/-- One symbol more in a group than there is room for, no symbol in a group, and symbols without a bit. -/
theorem deep_group_panics :
    (plainFrame 1 33).Valid ∧ (plainFrame 1 33).codewordToItone (List.replicate 33 1) = some (List.replicate 33 1) ∧
    (∀ chunk ∈ (plainFrame 1 33).dataChunks, 33 ≤ chunk.2) ∧
    CleanFrame (plainFrame 1 33) id (cleanSpectra (plainFrame 1 33) ((1,0) : ℝ × ℝ) (List.replicate 33 1))
      (List.replicate 33 1) (1,0) ∧
    (∀ nsym ∈ [0,33], fillBmetForNsym (plainFrame 1 33) id (cleanSpectra (plainFrame 1 33) ((1,0) : ℝ × ℝ)
      (List.replicate 33 1)) nsym (List.replicate 33 0.0) none = none) ∧
    fillBmetForNsym (plainFrame 0 1) id (cleanSpectra (plainFrame 0 1) ((1,0) : ℝ × ℝ) [0]) 1 [] none = none := by
  have hvalid : (plainFrame 1 33).Valid := ⟨by decide,rfl,rfl,by decide,List.all_iff_forall_prop.1 rfl,by decide,
    by decide,fun table htable => by cases htable⟩
  refine ⟨hvalid,by decide,by decide,cleanFrame_cleanSpectra hvalid _,fun nsym hnsym => ?_,
    fillBmetForNsym_eq_none _ _ (by decide) ⟨(0,1),by decide,le_rfl⟩ _ _⟩
  obtain rfl | rfl : nsym = 0 ∨ nsym = 33 := by simpa using hnsym
  · exact fillBmetForNsym_eq_none _ _ (by decide) ⟨(0,33),by decide,Nat.zero_le _⟩ _ _
  · exact fillBmetForNsym_eq_none _ _ (by decide) ⟨(0,33),by decide,le_rfl⟩ _ _

end Real

end MfskCore.Engine
