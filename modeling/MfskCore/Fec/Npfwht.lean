import MfskCore.Library.Checked
import MfskCore.Library.RowMajor
import MfskCore.Library.WalshHadamard

/-! The Walsh-Hadamard transform of the message passing (`fec/qra/npfwht.rs`), in place. It runs over any
commutative ring; an index past the end of the buffer panics. -/
namespace MfskCore.Fec
open Library

section Definitions
variable {R : Type*} [Add R] [Sub R]

def butterfly (h : Nat) (buf : List R) (j : Nat) : Option (List R) :=
  (buf[j]?).bind fun a => (buf[j + h]?).map fun b => (buf.set j (a + b)).set (j + h) (a - b)

/-- The values `0, 2h, 4h, …` of `i` below `n`. -/
def blocks (n h : Nat) : List Nat := List.range' 0 ((n + h * 2 - 1) / (h * 2)) (h * 2)

def stage (n : Nat) (buf : List R) (h : Nat) : Option (List R) :=
  (blocks n h).foldlM (fun buf i => (List.range' i h).foldlM (butterfly h) buf) buf

/-- The values `1, 2, 4, …` of `h` below `n`. -/
def widths (n : Nat) : List Nat := ((List.range n).map (2^·)).takeWhile (· < n)

def fwht (buf : List R) : Option (List R) := (widths buf.length).foldlM (stage buf.length) buf

end Definitions

section Butterflies
variable {R : Type*} [CommRing R]

/-- Butterflies on disjoint pairs of places. -/
theorem butterflies_run {h : Nat} {buf : List R} {js : List Nat} (hnodup : js.Nodup)
    (hin : ∀ j ∈ js, j + h < buf.length) (hdisjoint : ∀ j ∈ js, j + h ∉ js) :
    ∃ out, js.foldlM (butterfly h) buf = some out ∧ out.length = buf.length ∧
      (∀ j ∈ js, out.getD j 0 = buf.getD j 0 + buf.getD (j + h) 0 ∧
        out.getD (j + h) 0 = buf.getD j 0 - buf.getD (j + h) 0) ∧
      ∀ m, m ∉ js → (∀ j ∈ js, j + h ≠ m) → out.getD m 0 = buf.getD m 0 := by
  induction js using List.reverseRecOn with
  | nil => exact ⟨buf,rfl,rfl,by simp,fun _ _ _ => rfl⟩
  | append_singleton js j ih =>
    have hsub {i : Nat} (hi : i ∈ js) : i ∈ js ++ [j] := List.mem_append_left _ hi
    have hlast : j ∈ js ++ [j] := List.mem_append_right _ (List.mem_singleton_self j)
    have hfresh : j ∉ js := (List.nodup_middle.1 hnodup).notMem ∘ List.mem_append_left []
    obtain ⟨out,hrun,hlen,hdone,hrest⟩ := ih (hnodup.sublist (List.sublist_append_left _ _))
      (fun i hi => hin i (hsub hi)) fun i hi hih => hdisjoint i (hsub hi) (hsub hih)
    have hjh : j + h < out.length := hlen ▸ hin j hlast
    have hj : j < out.length := (Nat.le_add_right j h).trans_lt hjh
    have ha : out.getD j 0 = buf.getD j 0 := hrest j hfresh fun i hi hij => hdisjoint i (hsub hi) (hij ▸ hlast)
    have hb : out.getD (j + h) 0 = buf.getD (j + h) 0 := by
      refine hrest _ (fun hjh => hdisjoint j hlast (hsub hjh)) fun i hi hij => hfresh ?_
      rwa [← Nat.add_right_cancel hij]
    have hget (x y : R) (m : Nat) : ((out.set j x).set (j + h) y).getD m 0 =
        if j + h = m then y else if j = m then x else out.getD m 0 := by
      rw [getD_set (by rwa [List.length_set]),getD_set hj]
    refine ⟨(out.set j (buf.getD j 0 + buf.getD (j + h) 0)).set (j + h) (buf.getD j 0 - buf.getD (j + h) 0),?_,?_,?_,?_⟩
    · rw [List.foldlM_append,hrun,Option.bind_eq_bind,Option.bind_some,List.foldlM_cons,butterfly,
        getElem?_eq_some_getD hj 0,getElem?_eq_some_getD hjh 0,Option.bind_some,Option.map_some,ha,hb]
      rfl
    · rw [List.length_set,List.length_set,hlen]
    · intro i hi
      rcases List.mem_append.1 hi with hi | hi
      · have hi1 : j ≠ i := fun hij => hfresh (hij ▸ hi)
        have hi2 : j + h ≠ i := fun hij => hdisjoint j hlast (hij ▸ hsub hi)
        have hi3 : j ≠ i + h := fun hij => hdisjoint i (hsub hi) (hij ▸ hlast)
        have hi4 : j + h ≠ i + h := fun hij => hi1 (Nat.add_right_cancel hij)
        rw [hget,hget,if_neg hi2,if_neg hi1,if_neg hi4,if_neg hi3]
        exact hdone i hi
      · obtain rfl := List.mem_singleton.1 hi
        have hij : i + h ≠ i := fun hij => hdisjoint i hlast (hij.symm ▸ hlast)
        rw [hget,hget,if_neg hij,if_pos rfl,if_pos rfl]
        exact ⟨rfl,rfl⟩
    · intro m hm hmh
      have hmj : j ≠ m := fun hmj => hm (hmj ▸ hlast)
      rw [hget,if_neg (hmh j hlast),if_neg hmj]
      exact hrest m (fun hm' => hm (hsub hm')) fun i hi => hmh i (hsub hi)

end Butterflies

section Stages
variable {R : Type*} [CommRing R] {k s : Nat}

theorem blocks_two_pow (hs : s < k) : blocks (2^k) (2^s) = (List.range (2^(k - (s + 1)))).map (2^(s + 1) * ·) := by
  have hwide : 2^k = 2^(s + 1) * 2^(k - (s + 1)) := by rw [← Nat.pow_add,Nat.add_sub_cancel' hs]
  have hpos : 0 < 2^(s + 1) := Nat.two_pow_pos _
  have hcount : (2^k + 2^(s + 1) - 1) / 2^(s + 1) = 2^(k - (s + 1)) := by
    rw [hwide,Nat.add_sub_assoc hpos,Nat.mul_add_div hpos,Nat.div_eq_of_lt (Nat.sub_lt hpos Nat.one_pos),Nat.add_zero]
  rw [blocks,← Nat.pow_succ,hcount]
  refine List.ext_getElem (by simp) fun q hq _ => ?_
  rw [List.getElem_range',List.getElem_map,List.getElem_range,Nat.zero_add]

theorem widths_two_pow (k : Nat) : widths (2^k) = (List.range k).map (2^·) := by
  have hsplit : List.range (2^k) = List.range k ++ (List.range (2^k - k)).map (k + ·) := by
    rw [← List.range_add,Nat.add_sub_cancel' Nat.lt_two_pow_self.le]
  have hbelow : ∀ h ∈ (List.range k).map (2^·), decide (h < 2^k) = true := by
    intro h hh
    obtain ⟨s,hs,rfl⟩ := List.mem_map.1 hh
    exact decide_eq_true (Nat.pow_lt_pow_right (by decide) (List.mem_range.1 hs))
  rw [widths,hsplit,List.map_append,List.takeWhile_append_of_pos hbelow]
  have hstop : ((List.range (2^k - k)).map (k + ·)).map (2^·) = 2^k :: (((List.range (2^k - k)).map (k + ·)).map (2^·)).tail := by
    cases hrest : 2^k - k with
    | zero => exact absurd (Nat.sub_eq_zero_iff_le.1 hrest) (Nat.not_le.2 Nat.lt_two_pow_self)
    | succ n => rw [List.range_succ_eq_map]; rfl
  rw [hstop,List.takeWhile_cons_of_neg (by simp),List.append_nil]

/-- The places whose digit in base `2^s` is even. -/
theorem mem_places (hs : s < k) {j : Nat} :
    j ∈ (blocks (2^k) (2^s)).flatMap (fun i => List.range' i (2^s)) ↔
      ∃ q < 2^(k - (s + 1)), ∃ r < 2^s, j = 2^s * (2 * q) + r := by
  rw [blocks_two_pow hs]
  simp only [List.mem_flatMap,List.mem_map,List.mem_range,List.mem_range'_1]
  constructor
  · rintro ⟨_,⟨q,hq,rfl⟩,hlo,hhi⟩
    refine ⟨q,hq,j - 2^(s + 1) * q,by omega,?_⟩
    rw [← Nat.mul_assoc,← Nat.pow_succ,Nat.add_sub_cancel' hlo]
  · rintro ⟨q,hq,r,hr,rfl⟩
    refine ⟨_,⟨q,hq,rfl⟩,?_,?_⟩
    · rw [Nat.pow_succ,Nat.mul_assoc]
      exact Nat.le_add_right _ _
    · rw [Nat.pow_succ,Nat.mul_assoc]
      exact Nat.add_lt_add_left hr _

theorem nodup_places (hs : s < k) : ((blocks (2^k) (2^s)).flatMap fun i => List.range' i (2^s)).Nodup := by
  rw [blocks_two_pow hs,List.flatMap_map,List.nodup_flatMap]
  refine ⟨fun q _ => List.nodup_range',List.pairwise_lt_range.imp fun {p q} hpq => ?_⟩
  intro j hp hq
  rw [List.mem_range'_1] at hp hq
  have hstep : 2^(s + 1) * (p + 1) ≤ 2^(s + 1) * q := Nat.mul_le_mul_left _ hpq
  have hpow : 2^(s + 1) = 2^s * 2 := Nat.pow_succ 2 s
  rw [Nat.mul_succ] at hstep
  omega

/-- A stage adds and subtracts the neighbouring blocks of width `2^s`. -/
theorem stage_run (hs : s < k) {buf : List R} (hlen : buf.length = 2^k) :
    ∃ out, stage (2^k) buf (2^s) = some out ∧ out.length = 2^k ∧ ∀ q < 2^(k - (s + 1)), ∀ r < 2^s,
      out.getD (2^s * (2 * q) + r) 0 = buf.getD (2^s * (2 * q) + r) 0 + buf.getD (2^s * (2 * q + 1) + r) 0 ∧
      out.getD (2^s * (2 * q + 1) + r) 0 = buf.getD (2^s * (2 * q) + r) 0 - buf.getD (2^s * (2 * q + 1) + r) 0 := by
  have hnext (q r : Nat) : 2^s * (2 * q) + r + 2^s = 2^s * (2 * q + 1) + r := by
    rw [Nat.mul_succ,Nat.add_right_comm]
  have hin : ∀ j ∈ (blocks (2^k) (2^s)).flatMap (fun i => List.range' i (2^s)), j + 2^s < buf.length := by
    intro j hj
    obtain ⟨q,hq,r,hr,rfl⟩ := (mem_places hs).1 hj
    calc 2^s * (2 * q) + r + 2^s < 2^s * (2 * q) + 2^s + 2^s := by omega
      _ = 2^(s + 1) * (q + 1) := by rw [Nat.pow_succ,Nat.mul_succ,Nat.mul_assoc]; omega
      _ ≤ 2^(s + 1) * 2^(k - (s + 1)) := Nat.mul_le_mul_left _ hq
      _ = buf.length := by rw [← Nat.pow_add,Nat.add_sub_cancel' hs,hlen]
  have hdisjoint : ∀ j ∈ (blocks (2^k) (2^s)).flatMap (fun i => List.range' i (2^s)),
      j + 2^s ∉ (blocks (2^k) (2^s)).flatMap (fun i => List.range' i (2^s)) := by
    intro j hj hjs
    obtain ⟨q,-,r,hr,rfl⟩ := (mem_places hs).1 hj
    obtain ⟨q',-,r',hr',heq⟩ := (mem_places hs).1 hjs
    rw [hnext,Nat.mul_comm,Nat.mul_comm (2^s) (2 * q'),rowMajor_inj hr hr'] at heq
    omega
  obtain ⟨out,hrun,hout,hdone,-⟩ := butterflies_run (nodup_places hs) hin hdisjoint
  refine ⟨out,(foldlM_flatMap _ _ _ _).symm.trans hrun,hout.trans hlen,fun q hq r hr => ?_⟩
  have hpair := hdone _ ((mem_places hs).2 ⟨q,hq,r,hr,rfl⟩)
  rwa [hnext] at hpair

/-- After the stages below `2^s` every block of width `2^s` holds its own transform. -/
theorem stages_run {buf : List R} (hlen : buf.length = 2^k) (hs : s ≤ k) :
    ∃ out, ((List.range s).map (2^·)).foldlM (stage (2^k)) buf = some out ∧ out.length = 2^k ∧
      ∀ d < 2^(k - s), ∀ r < 2^s, out.getD (2^s * d + r) 0 = walshHadamard (2^s) (fun j => buf.getD (2^s * d + j) 0) r := by
  induction s with
  | zero =>
    refine ⟨buf,rfl,hlen,fun d _ r hr => ?_⟩
    obtain rfl : r = 0 := by omega
    simp [walshHadamard,walshSign_zero]
  | succ s ih =>
    obtain ⟨mid,hrun,hmid,hblocks⟩ := ih (Nat.le_of_succ_le hs)
    obtain ⟨out,hstage,hout,hpairs⟩ := stage_run hs hmid
    refine ⟨out,?_,hout,fun q hq i hi => ?_⟩
    · rw [List.range_succ,List.map_append,List.foldlM_append,hrun,Option.bind_eq_bind,Option.bind_some,
        List.map_singleton,List.foldlM_cons,hstage]
      rfl
    have hhalves : 2^(k - s) = 2 * 2^(k - (s + 1)) := by rw [← Nat.pow_succ']; congr 1; omega
    have hi' : i < 2 * 2^s := by rwa [← Nat.pow_succ']
    obtain ⟨e,r,he,hr,rfl⟩ : ∃ e r, e < 2 ∧ r < 2^s ∧ i = 2^s * e + r :=
      ⟨i / 2^s,i % 2^s,Nat.div_lt_of_lt_mul (by rwa [Nat.mul_comm] at hi'),Nat.mod_lt _ (Nat.two_pow_pos s),(Nat.div_add_mod _ _).symm⟩
    have hplace (e r : Nat) : 2^(s + 1) * q + (2^s * e + r) = 2^s * (2 * q + e) + r := by
      rw [Nat.pow_succ,Nat.mul_assoc,Nat.mul_add,Nat.add_assoc]
    obtain ⟨hsum,hdiff⟩ := hpairs q hq r hr
    rw [hblocks (2 * q) (by omega) r hr,hblocks (2 * q + 1) (by omega) r hr] at hsum hdiff
    have hfirst (j : Nat) : 2^(s + 1) * q + j = 2^s * (2 * q) + j := by rw [Nat.pow_succ,Nat.mul_assoc]
    have hsecond (j : Nat) : 2^(s + 1) * q + (2^s + j) = 2^s * (2 * q + 1) + j := by
      rw [hfirst,Nat.mul_succ,Nat.add_assoc]
    rw [hplace,walshHadamard_two_pow_succ hr]
    simp only [hsecond]
    simp only [hfirst]
    obtain rfl | rfl : e = 0 ∨ e = 1 := by omega
    · have hsign : walshSign R 0 1 = 1 := by rw [walshSign_comm,walshSign_zero]
      rw [hsign,one_mul]
      exact hsum
    · have hsign : walshSign R 1 1 = -1 := walshSign_two_pow 1 0
      rw [hsign,neg_one_mul,← sub_eq_add_neg]
      exact hdiff

end Stages

section Transform
variable {R : Type*} [CommRing R] {k : Nat}

theorem fwht_eq {buf : List R} (hlen : buf.length = 2^k) :
    fwht buf = some ((List.range (2^k)).map (walshHadamard (2^k) fun j => buf.getD j 0)) := by
  obtain ⟨out,hrun,hout,hblocks⟩ := stages_run hlen (Nat.le_refl k)
  rw [fwht,hlen,widths_two_pow,hrun]
  refine congrArg some (List.ext_getElem (by simp [hout]) fun i hi _ => ?_)
  have hi' : i < 2^k := hout ▸ hi
  have hblock := hblocks 0 (Nat.two_pow_pos _) i hi'
  simp only [Nat.mul_zero,Nat.zero_add] at hblock
  rw [List.getElem_map,List.getElem_range,← hblock,List.getD_eq_getElem _ 0 hi]

theorem fwht_map_range (f : Nat → R) :
    fwht ((List.range (2^k)).map f) = some ((List.range (2^k)).map (walshHadamard (2^k) f)) := by
  rw [fwht_eq (k := k) (by rw [List.length_map,List.length_range])]
  refine congrArg some (List.map_congr_left fun i _ => Finset.sum_congr rfl fun j hj => ?_)
  exact congrArg _ (getD_map_range f 0 (Finset.mem_range.1 hj))

/-- The transform of a buffer whose length is a power of two is the Walsh-Hadamard transform. Twice it multiplies
by the length, and the product of two transforms is the transform of the convolution. -/
theorem fwht_is_walsh_hadamard (R : Type) [CommRing R] (k : Nat) (buf : List R) (hlen : buf.length = 2^k) :
    ∃ out, fwht buf = some out ∧ out.length = 2^k ∧
      (∀ i < 2^k, out.getD i 0 = ∑ j ∈ Finset.range (2^k), (-1)^countOnes (i &&& j) * buf.getD j 0) ∧
      fwht out = some (buf.map (2^k * ·)) ∧
      ∀ other : List R, other.length = 2^k → ∃ otherOut, fwht other = some otherOut ∧
        fwht ((List.range (2^k)).map fun m => ∑ a ∈ Finset.range (2^k), buf.getD a 0 * other.getD (a ^^^ m) 0) =
          some (List.zipWith (· * ·) out otherOut) := by
  refine ⟨_,fwht_eq hlen,by simp,fun i hi => getD_map_range _ 0 hi,?_,fun other hother => ⟨_,fwht_eq hother,?_⟩⟩
  · rw [fwht_map_range]
    refine congrArg some (List.ext_getElem (by simp [hlen]) fun i hi _ => ?_)
    have hi' : i < 2^k := by simpa using hi
    rw [List.getElem_map,List.getElem_range,walshHadamard_walshHadamard _ hi',List.getElem_map,List.getD_eq_getElem]
  · have hconvolution := fwht_map_range (k := k) (xorConvolution (2^k) (fun j => buf.getD j 0) fun j => other.getD j 0)
    refine hconvolution.trans (congrArg some ?_)
    rw [List.zipWith_map,List.zipWith_self,List.map_congr_left fun i _ => walshHadamard_xorConvolution _ _ i]

/-- Two stages, there and back. -/
theorem fwht_of_four : ∃ out, fwht [1,2,3,(-5 : Int)] = some out ∧ fwht out = some [4,8,12,-20] := by
  obtain ⟨out,hout,-,-,htwice,-⟩ := fwht_is_walsh_hadamard Int 2 [1,2,3,-5] rfl
  exact ⟨out,hout,htwice⟩

end Transform

end MfskCore.Fec
