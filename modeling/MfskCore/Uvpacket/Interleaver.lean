import MfskCore.Library.Checked
import MfskCore.Library.RowMajor
import MfskCore.Rust.F32

/-! The block interleaver of uvpacket (`uvpacket/interleaver.rs`): the codewords are the rows of a matrix that
goes out column by column. -/
namespace MfskCore.Uvpacket
open Library Rust

def buildPermutation (nBlocks blockLen : Nat) : List Nat :=
  let total := nBlocks * blockLen
  (List.range total).map fun k =>
    let block := k % nBlocks
    let bit := k / nBlocks
    block * blockLen + bit

/-- The assertions and the read fail as the source panics. -/
def interleave (codewordsConcat : List UInt8) (nBlocks : Nat) : Option (List UInt8) :=
  if nBlocks > 0 then
    let total := codewordsConcat.length
    if total % nBlocks = 0 then
      let blockLen := total / nBlocks
      (List.range total).mapM fun k =>
        let block := k % nBlocks
        let bit := k / nBlocks
        codewordsConcat[block * blockLen + bit]?
    else none
  else none

section Deinterleave
variable {F : Type} [F32 F]

/-- One LLR, written to its place. -/
def placeLlr (nBlocks : Nat) (llrTx : List F) (perBlock : List (List F)) (k : Nat) : List (List F) :=
  let block := k % nBlocks
  let bit := k / nBlocks
  perBlock.modify block fun row => row.set bit (llrTx.getD k 0.0)

def deinterleaveLlr (llrTx : List F) (nBlocks : Nat) : Option (List (List F)) :=
  if nBlocks > 0 then
    let total := llrTx.length
    if total % nBlocks = 0 then
      let blockLen := total / nBlocks
      some ((List.range total).foldl (placeLlr nBlocks llrTx)
        (List.replicate nBlocks (List.replicate blockLen 0.0)))
    else none
  else none

end Deinterleave

variable {nBlocks blockLen : Nat}

theorem buildPermutation_eq (nBlocks blockLen : Nat) :
    buildPermutation nBlocks blockLen =
      (List.range (nBlocks * blockLen)).map (transposeCell nBlocks blockLen) := rfl

theorem getElem_buildPermutation {k : Nat} (hk : k < (buildPermutation nBlocks blockLen).length) :
    (buildPermutation nBlocks blockLen)[k] = transposeCell nBlocks blockLen k := by
  simp only [buildPermutation_eq,List.getElem_map,List.getElem_range]

/-- The table holds every place once. -/
theorem buildPermutation_perm (nBlocks blockLen : Nat) :
    (buildPermutation nBlocks blockLen).Perm (List.range (nBlocks * blockLen)) := by
  have hinj : Set.InjOn (transposeCell nBlocks blockLen) {k | k ∈ List.range (nBlocks * blockLen)} := by
    intro k hk l hl h
    rw [← transposeCell_transposeCell (List.mem_range.1 hk),h,transposeCell_transposeCell (List.mem_range.1 hl)]
  rw [buildPermutation_eq]
  refine (List.perm_ext_iff_of_nodup (List.Nodup.map_on (fun k hk l hl h => hinj hk hl h) List.nodup_range)
    List.nodup_range).2 fun p => ?_
  rw [List.mem_map,List.mem_range]
  constructor
  · rintro ⟨k,hk,rfl⟩
    exact transposeCell_lt (List.mem_range.1 hk)
  · intro hp
    have hback := Nat.mul_comm nBlocks blockLen ▸ hp
    exact ⟨transposeCell blockLen nBlocks p,
      List.mem_range.2 (Nat.mul_comm nBlocks blockLen ▸ transposeCell_lt hback),transposeCell_transposeCell hback⟩

/-- A window of the channel meets a codeword once in every round. -/
theorem countP_burst_le (blockLen start burst block : Nat) (h : 1 ≤ nBlocks) :
    (((buildPermutation nBlocks blockLen).drop start).take burst).countP (fun p => p / blockLen = block) ≤
      (burst + nBlocks - 1) / nBlocks := by
  have hwindow : ((List.range (nBlocks * blockLen)).drop start).take burst =
      List.range' start (min burst (nBlocks * blockLen - start)) := by
    rw [List.range_eq_range',List.drop_range',Nat.zero_add,Nat.mul_one]
    rcases Nat.le_total burst (nBlocks * blockLen - start) with hle | hle
    · rw [List.take_range'_of_length_ge hle,Nat.min_eq_left hle]
    · rw [List.take_range'_of_length_le hle,Nat.min_eq_right hle]
  rw [buildPermutation_eq,← List.map_drop,← List.map_take,List.countP_map,hwindow]
  have hblock : ∀ k ∈ List.range' start (min burst (nBlocks * blockLen - start)),
      (transposeCell nBlocks blockLen k / blockLen = block) ↔ k % nBlocks = block := by
    intro k hk
    obtain ⟨hlo,hhi⟩ := List.mem_range'_1.1 hk
    rw [transposeCell_div (by omega)]
  have hcount := List.countP_congr (p := ((fun p => decide (p / blockLen = block)) ∘ transposeCell nBlocks blockLen))
    (q := fun k => decide (k % nBlocks = block)) (fun k hk => by simpa using hblock k hk)
  rw [hcount]
  refine countP_window_mod_le block start ((Nat.min_le_left _ _).trans ?_)
  have hround := Nat.div_add_mod (burst + nBlocks - 1) nBlocks
  have hrest := Nat.mod_lt (burst + nBlocks - 1) h
  rw [Nat.mul_comm]
  omega

theorem interleave_eq {cw : List UInt8} (h : 1 ≤ nBlocks) (hlen : cw.length = nBlocks * blockLen) :
    interleave cw nBlocks = some ((buildPermutation nBlocks blockLen).map fun p => cw.getD p 0) := by
  have hrows : cw.length / nBlocks = blockLen := by rw [hlen,Nat.mul_div_cancel_left _ h]
  have hwhole : cw.length % nBlocks = 0 := by rw [hlen,Nat.mul_mod_right]
  unfold interleave
  dsimp only
  rw [if_pos (Nat.lt_of_succ_le h),if_pos hwhole,hrows,hlen,buildPermutation_eq,List.map_map]
  refine mapM_eq_some fun k hk => ?_
  refine getElem?_eq_some_getD ?_ 0
  rw [hlen]
  exact transposeCell_lt (List.mem_range.1 hk)

section Deinterleave
variable {F : Type} [F32 F]

/-- The matrix after the first `m` places. -/
private theorem foldl_placeLlr (h : 1 ≤ nBlocks) (llrTx : List F) (m : Nat) :
    (List.range m).foldl (placeLlr nBlocks llrTx) (List.replicate nBlocks (List.replicate blockLen 0.0)) =
      (List.range nBlocks).map fun block => (List.range blockLen).map fun bit =>
        if bit * nBlocks + block < m then llrTx.getD (bit * nBlocks + block) 0.0 else 0.0 := by
  induction m with
  | zero => simp [List.map_const']
  | succ m ih =>
    rw [List.range_succ,List.foldl_append,ih,List.foldl_cons,List.foldl_nil,placeLlr]
    refine List.ext_getElem (by simp) fun block hblock _ => ?_
    have hb : block < nBlocks := by simpa using hblock
    have hplace (bit : Nat) : bit * nBlocks + block = m ↔ m % nBlocks = block ∧ m / nBlocks = bit := by
      constructor
      · rintro rfl
        rw [Nat.mul_comm,Nat.mul_add_mod,Nat.mod_eq_of_lt hb,Nat.mul_add_div h,Nat.div_eq_of_lt hb]
        exact ⟨rfl,Nat.add_zero bit⟩
      · rintro ⟨rfl,rfl⟩
        rw [Nat.mul_comm,Nat.div_add_mod]
    have hnext (bit : Nat) : bit * nBlocks + block < m + 1 ↔
        bit * nBlocks + block < m ∨ bit * nBlocks + block = m := Nat.lt_succ_iff_lt_or_eq
    rw [List.getElem_modify,List.getElem_map,List.getElem_map,List.getElem_range]
    by_cases hrow : m % nBlocks = block
    · rw [if_pos hrow]
      refine List.ext_getElem (by simp) fun bit hbit _ => ?_
      rw [List.getElem_set,List.getElem_map,List.getElem_map,List.getElem_range]
      simp only [hnext,hplace,hrow,true_and]
      by_cases hbit : m / nBlocks = bit
      · rw [if_pos hbit,if_pos (Or.inr hbit),(hplace bit).2 ⟨hrow,hbit⟩]
      · rw [if_neg hbit]
        simp only [hbit,or_false]
    · rw [if_neg hrow]
      refine List.map_congr_left fun bit _ => ?_
      simp only [hnext,hplace,hrow,false_and,or_false]

theorem deinterleaveLlr_eq {llrTx : List F} (h : 1 ≤ nBlocks) (hlen : llrTx.length = nBlocks * blockLen) :
    deinterleaveLlr llrTx nBlocks = some ((List.range nBlocks).map fun block =>
      (List.range blockLen).map fun bit => llrTx.getD (bit * nBlocks + block) 0.0) := by
  have hrows : llrTx.length / nBlocks = blockLen := by rw [hlen,Nat.mul_div_cancel_left _ h]
  have hwhole : llrTx.length % nBlocks = 0 := by rw [hlen,Nat.mul_mod_right]
  unfold deinterleaveLlr
  dsimp only
  rw [if_pos (Nat.lt_of_succ_le h),if_pos hwhole,hrows,foldl_placeLlr h]
  refine congrArg some (List.map_congr_left fun block hblock => List.map_congr_left fun bit hbit => ?_)
  refine if_pos ?_
  rw [hlen,Nat.mul_comm nBlocks]
  exact rowMajor_lt (List.mem_range.1 hbit) (List.mem_range.1 hblock)

/-- The codewords come back one by one, whatever the channel makes of a bit. -/
theorem deinterleaveLlr_interleaved {cw : List UInt8} (h : 1 ≤ nBlocks) (hlen : cw.length = nBlocks * blockLen)
    (llr : UInt8 → F) :
    deinterleaveLlr (((buildPermutation nBlocks blockLen).map fun p => cw.getD p 0).map llr) nBlocks =
      some ((List.range nBlocks).map fun block => ((cw.drop (block * blockLen)).take blockLen).map llr) := by
  have hlength : ((buildPermutation nBlocks blockLen).map fun p => llr (cw.getD p 0)).length =
      nBlocks * blockLen := by
    rw [buildPermutation_eq,List.length_map,List.length_map,List.length_range]
  rw [List.map_map]
  refine (deinterleaveLlr_eq h hlength).trans ?_
  refine congrArg some (List.map_congr_left fun block hblock => ?_)
  have hb : block < nBlocks := List.mem_range.1 hblock
  have hrow : (block + 1) * blockLen ≤ nBlocks * blockLen := Nat.mul_le_mul_right blockLen hb
  rw [Nat.succ_mul] at hrow
  refine List.ext_getElem (by simp; omega) fun bit hbit _ => ?_
  have hbit' : bit < blockLen := by simpa using hbit
  have hsent : bit * nBlocks + block < nBlocks * blockLen := by
    rw [Nat.mul_comm nBlocks]
    exact rowMajor_lt hbit' hb
  have hcell : transposeCell nBlocks blockLen (bit * nBlocks + block) = block * blockLen + bit := by
    rw [transposeCell,Nat.mul_comm bit,Nat.mul_add_mod,Nat.mod_eq_of_lt hb,Nat.mul_add_div h,Nat.div_eq_of_lt hb,
      Nat.add_zero]
  rw [List.getElem_map,List.getElem_range,List.getD_eq_getElem _ _ (hlength.symm ▸ hsent),List.getElem_map,
    List.getElem_map,List.getElem_take,List.getElem_drop,← List.getD_eq_getElem cw 0,getElem_buildPermutation,hcell]

/-- The permutation holds every place once, the two sides are inverse to each other whatever the channel makes
of a bit, and a burst of `b` places meets each codeword at most `b / nBlocks` times, rounded up. -/
theorem interleaver_inverse_and_burst (F : Type) [F32 F] (nBlocks blockLen : Nat) (h : 1 ≤ nBlocks) :
    (buildPermutation nBlocks blockLen).Perm (List.range (nBlocks * blockLen)) ∧
    (∀ cw : List UInt8, cw.length = nBlocks * blockLen →
      ∃ tx, interleave cw nBlocks = some tx ∧
        tx = (buildPermutation nBlocks blockLen).map (fun p => cw.getD p 0) ∧
        ∀ llr : UInt8 → F, deinterleaveLlr (tx.map llr) nBlocks =
          some ((List.range nBlocks).map fun block => ((cw.drop (block * blockLen)).take blockLen).map llr)) ∧
    ∀ start burst block, (((buildPermutation nBlocks blockLen).drop start).take burst).countP
      (fun p => p / blockLen = block) ≤ (burst + nBlocks - 1) / nBlocks :=
  ⟨buildPermutation_perm nBlocks blockLen,
    fun _ hlen => ⟨_,interleave_eq h hlen,rfl,deinterleaveLlr_interleaved h hlen⟩,
    fun start burst block => countP_burst_le blockLen start burst block h⟩

/-- Two codewords of three bits, with a burst of three places. -/
theorem interleaver_two_by_three :
    letI := rationalF32
    (buildPermutation 2 3).Perm (List.range 6) ∧
      (((buildPermutation 2 3).drop 1).take 3).countP (fun p => p / 3 = 1) ≤ 2 := by
  let _ := rationalF32
  have h := interleaver_inverse_and_burst Rat 2 3 (by decide)
  exact ⟨h.1,h.2.2 1 3 1⟩

end Deinterleave

end MfskCore.Uvpacket
