import MfskCore.Fec.FanoScratch
import MfskCore.Library.Positional
import Mathlib.Data.List.GetD
import Mathlib.Tactic.IntervalCases
import Mathlib.Tactic.Linarith
import Mathlib.Tactic.Ring

/-! A noise-free frame is decoded without a step back: the search follows the transmitted path one node a
cycle, and the encoder states it leaves behind hold the data. -/
namespace MfskCore.Fec
open Rust Library

section Encoder

/-- Parity of the bits of a word. -/
private theorem countOnes_xor (a b : UInt32) :
    countOnes (a ^^^ b) % 2 = (countOnes a + countOnes b) % 2 := by
  have hfold (n : Nat) : (List.range n).countP (fun i => (a ^^^ b).toNat.testBit i) % 2 =
      ((List.range n).countP (fun i => a.toNat.testBit i) + (List.range n).countP fun i => b.toNat.testBit i) % 2 := by
    induction n with
    | zero => rfl
    | succ n ih =>
      simp only [List.range_succ,List.countP_append,List.countP_singleton,UInt32.toNat_xor,Nat.testBit_xor] at ih ⊢
      cases a.toNat.testBit n <;> cases b.toNat.testBit n <;> simp <;> omega
  exact hfold 32

private theorem and_xor (x y m : UInt32) : (x ^^^ y) &&& m = (x &&& m) ^^^ (y &&& m) := by
  refine UInt32.toNat_inj.mp (Nat.eq_of_testBit_eq fun i => ?_)
  simp only [UInt32.toNat_and,UInt32.toNat_xor,Nat.testBit_and,Nat.testBit_xor]
  cases x.toNat.testBit i <;> cases y.toNat.testBit i <;> cases m.toNat.testBit i <;> rfl

/-- The mask and the two folds commute with exclusive or. -/
private theorem polyParity_xor (poly a b : UInt32) :
    polyParity poly (a ^^^ b) = (polyParity poly a + polyParity poly b) % 2 := by
  have hfold (n x y : UInt32) : (x ^^^ y) ^^^ (x ^^^ y) >>> n = (x ^^^ x >>> n) ^^^ (y ^^^ y >>> n) := by
    rw [UInt32.shiftRight_xor]
    ac_rfl
  unfold polyParity
  dsimp only
  rw [and_xor a b poly,hfold 16,hfold 8,and_xor _ _ 0xff,countOnes_xor,Nat.add_mod]

/-- A state whose low bit is clear sends the complement when the bit is set: both polynomials are odd. -/
theorem encodeStep_or_one {e : UInt32} (he : e &&& 1 = 0) : encodeStep (e ||| 1) = 3 ^^^ encodeStep e := by
  have hor : e ||| 1 = e ^^^ 1 := by
    refine UInt32.toNat_inj.mp (Nat.eq_of_testBit_eq fun i => ?_)
    have hbit := congrArg (fun x => x.toNat.testBit i) he
    simp only [UInt32.toNat_and,Nat.testBit_and] at hbit
    simp only [UInt32.toNat_or,UInt32.toNat_xor,Nat.testBit_or,Nat.testBit_xor]
    cases h1 : e.toNat.testBit i <;> cases h2 : (1 : UInt32).toNat.testBit i <;> simp_all
  have hone1 : polyParity POLY1 1 = 1 := by decide
  have hone2 : polyParity POLY2 1 = 1 := by decide
  have hlt (poly : UInt32) : polyParity poly e < 2 := Nat.mod_lt _ (by decide)
  have h1 := hlt POLY1
  have h2 := hlt POLY2
  rw [hor,encodeStep,encodeStep,polyParity_xor,polyParity_xor,hone1,hone2]
  generalize polyParity POLY1 e = p1 at *
  generalize polyParity POLY2 e = p2 at *
  interval_cases p1 <;> interval_cases p2 <;> rfl

theorem encodeStep_lt (e : UInt32) : encodeStep e < 4 := by
  have h1 : polyParity POLY1 e < 2 := Nat.mod_lt _ (by decide)
  have h2 : polyParity POLY2 e < 2 := Nat.mod_lt _ (by decide)
  rw [encodeStep]
  omega

/-- The state after the first bits. -/
def encoderState (data : List UInt8) : Nat → UInt32
  | 0 => 0
  | i + 1 => encoderState data i <<< 1 ||| (dataBit data i).toUInt32

theorem convEncode_eq (data : List UInt8) (nbits : Nat) :
    convEncode data nbits = (List.range nbits).flatMap fun i =>
      let sym := encodeStep (encoderState data (i + 1))
      [(sym / 2 % 2).toUInt8,(sym % 2).toUInt8] := by
  have hfold : (List.range nbits).foldl (convStep data) (0,[]) =
      (encoderState data nbits,(List.range nbits).flatMap fun i =>
        let sym := encodeStep (encoderState data (i + 1))
        [(sym / 2 % 2).toUInt8,(sym % 2).toUInt8]) := by
    induction nbits with
    | zero => rfl
    | succ n ih =>
      rw [List.range_succ,List.foldl_append,ih,List.foldl_cons,List.foldl_nil,List.flatMap_append]
      simp [convStep,encoderState]
  rw [convEncode,hfold]

/-- The two bits sent at a node. -/
theorem getD_convEncode (data : List UInt8) {nbits k : Nat} (hk : k < nbits) :
    (convEncode data nbits).getD (2 * k) 0 = (encodeStep (encoderState data (k + 1)) / 2 % 2).toUInt8 ∧
      (convEncode data nbits).getD (2 * k + 1) 0 = (encodeStep (encoderState data (k + 1)) % 2).toUInt8 := by
  rw [convEncode_eq]
  induction nbits with
  | zero => omega
  | succ n ih =>
    have hlength : ((List.range n).flatMap fun i =>
        let sym := encodeStep (encoderState data (i + 1))
        [(sym / 2 % 2).toUInt8,(sym % 2).toUInt8]).length = 2 * n := by
      simp [List.length_flatMap,Nat.mul_comm]
    rw [List.range_succ,List.flatMap_append]
    rcases Nat.lt_succ_iff_lt_or_eq.mp hk with hlt | rfl
    · rw [List.getD_append _ _ _ _ (by omega),List.getD_append _ _ _ _ (by omega)]
      exact ih hlt
    · rw [List.getD_append_right _ _ _ _ (by omega),List.getD_append_right _ _ _ _ (by omega),hlength]
      simp

theorem dataBit_cases (data : List UInt8) (i : Nat) : dataBit data i = 0 ∨ dataBit data i = 1 := by
  have hnat : (dataBit data i).toNat = ((data.getD (i / 8) 0) >>> (7 - i % 8).toUInt8).toNat % 2 := by
    rw [dataBit,UInt8.toNat_and]
    exact Nat.and_one_is_mod _
  rcases Nat.mod_two_eq_zero_or_one ((data.getD (i / 8) 0) >>> (7 - i % 8).toUInt8).toNat with h | h
  · exact Or.inl (UInt8.toNat_inj.mp (hnat.trans h))
  · exact Or.inr (UInt8.toNat_inj.mp (hnat.trans h))

private theorem toNat_dataBit (data : List UInt8) (i : Nat) {n : Nat} (hn : n < 8) :
    (dataBit data (8 * i + n)).toNat = (data.getD i 0).toNat >>> (7 - n) % 2 := by
  have hdiv : (8 * i + n) / 8 = i := by omega
  have hmod : (8 * i + n) % 8 = n := by omega
  have hshift : (7 - n).toUInt8.toNat % 8 = 7 - n := by
    rw [Nat.toUInt8_eq,UInt8.toNat_ofNat']
    omega
  rw [dataBit,hdiv,hmod,UInt8.toNat_and,UInt8.toNat_shiftRight,hshift]
  exact Nat.and_one_is_mod _

private theorem toNat_encoderState (data : List UInt8) (k : Nat) :
    (encoderState data (k + 1)).toNat = (2 * (encoderState data k).toNat + (dataBit data k).toNat) % 2^32 := by
  have hbit : (dataBit data k).toNat < 2 := by
    rcases dataBit_cases data k with h | h <;> rw [h] <;> decide
  have hlt := (encoderState data k).toNat_lt
  have hleft : (encoderState data k <<< 1).toNat = 2 * (encoderState data k).toNat % 2^32 := by
    rw [UInt32.toNat_shiftLeft,Nat.shiftLeft_eq,Nat.mul_comm]
    rfl
  have heven : 2^1 ∣ 2 * (encoderState data k).toNat % 2^32 := by omega
  rw [encoderState,UInt32.toNat_or,hleft,UInt8.toNat_toUInt32,or_eq_add 1 heven (by omega)]
  omega

/-- The last eight bits of the state after a byte are the byte. -/
theorem toUInt8_encoderState (data : List UInt8) (i : Nat) :
    (encoderState data (8 * i + 8)).toUInt8 = data.getD i 0 := by
  have hbits : ∀ n ≤ 8, (encoderState data (8 * i + n)).toNat % 2^n = (data.getD i 0).toNat >>> (8 - n) := by
    intro n
    induction n with
    | zero =>
      have hlt := (data.getD i 0).toNat_lt
      intro _
      rw [Nat.shiftRight_eq_div_pow,Nat.div_eq_of_lt (by omega),Nat.pow_zero,Nat.mod_one]
    | succ n ih =>
      intro hn
      have hprev := ih (by omega)
      have hbit := toNat_dataBit data i (n := n) (by omega)
      have hstate := toNat_encoderState data (8 * i + n)
      have hdvd : 2^(n + 1) ∣ 2^32 := Nat.pow_dvd_pow 2 (by omega)
      have hshift : (data.getD i 0).toNat >>> (8 - n) = (data.getD i 0).toNat >>> (7 - n) / 2 := by
        rw [show 8 - n = 7 - n + 1 by omega,Nat.shiftRight_succ]
      rw [← Nat.add_assoc,hstate,Nat.mod_mod_of_dvd _ hdvd,hbit,show 8 - (n + 1) = 7 - n by omega]
      rw [hshift] at hprev
      generalize (data.getD i 0).toNat >>> (7 - n) = d at hprev ⊢
      generalize (encoderState data (8 * i + n)).toNat = e at hprev ⊢
      have hhalf : (2 * e + d % 2) / 2 = e := by omega
      rw [Nat.pow_succ',Nat.mod_mul,hhalf,hprev]
      omega
  have hbyte := hbits 8 (Nat.le_refl 8)
  refine UInt8.toNat_inj.mp ?_
  rw [UInt32.toNat_toUInt8]
  simpa using hbyte

end Encoder

section Frame

/-- The metric of a pair of sent bits at a node, an `i32` sum. -/
def pairMetric (bm : List (Int × Int)) (k : Nat) (a b : UInt8) : Int :=
  let m0 := bm.getD (2 * k) (0,0)
  let m1 := bm.getD (2 * k + 1) (0,0)
  wrapI32 ((if a = 0 then m0.1 else m0.2) + if b = 0 then m1.1 else m1.2)

/-- The metric of the transmitted pair, and of the complement that the other branch sends. -/
def sentMetric (data : List UInt8) (nbits : Nat) (bm : List (Int × Int)) (k : Nat) : Int :=
  let c := convEncode data nbits
  pairMetric bm k (c.getD (2 * k) 0) (c.getD (2 * k + 1) 0)

def otherMetric (data : List UInt8) (nbits : Nat) (bm : List (Int × Int)) (k : Nat) : Int :=
  let c := convEncode data nbits
  pairMetric bm k (1 - c.getD (2 * k) 0) (1 - c.getD (2 * k + 1) 0)

/-- The metric of the transmitted path up to a node. -/
def pathMetric (data : List UInt8) (nbits : Nat) (bm : List (Int × Int)) (k : Nat) : Int :=
  ((List.range k).map (sentMetric data nbits bm)).sum

/-- A frame with its tail, and metrics that favour the transmitted pair at every node. -/
structure NoiseFree (data : List UInt8) (nbits : Nat) (bm : List (Int × Int)) : Prop where
  hasData : nbits ≤ 8 * data.length
  hasTail : K_CONSTRAINT - 1 ≤ nbits
  tail : ∀ k < nbits, tailIdx nbits ≤ k → dataBit data k = 0
  length : bm.length = 2 * nbits
  nonneg : ∀ k < nbits, 0 ≤ sentMetric data nbits bm k
  better : ∀ k < nbits, otherMetric data nbits bm k < sentMetric data nbits bm k

variable {data : List UInt8} {nbits : Nat} {bm : List (Int × Int)} {delta : Int}

theorem pathMetric_succ (k : Nat) :
    pathMetric data nbits bm (k + 1) = pathMetric data nbits bm k + sentMetric data nbits bm k := by
  simp [pathMetric,List.range_succ]

/-- The sums of a node, as the search reads them. -/
def HasSums (bm : List (Int × Int)) (n : Node) (k : Nat) : Prop :=
  ∀ sym < 4, n.metrics.getD sym 0 = pairMetric bm k (sym / 2 % 2).toUInt8 (sym % 2).toUInt8

/-- The four sums of a node, read at the symbol of a pair. -/
private theorem hasSums_bootstrap {nodes : List Node} {k : Nat} (hk : k < nbits)
    (hlen : nodes.length = nbits + 1) : HasSums bm (node (bootstrap (precompute nbits bm nodes)) k) k := by
  intro sym hsym
  rw [bootstrap_metrics bm hk hlen]
  interval_cases sym <;> rfl

private theorem sentMetric_eq (data : List UInt8) {k : Nat} (hk : k < nbits) {n : Node} (hn : HasSums bm n k) :
    n.metrics.getD (encodeStep (encoderState data (k + 1))) 0 = sentMetric data nbits bm k ∧
      n.metrics.getD (3 ^^^ encodeStep (encoderState data (k + 1))) 0 = otherMetric data nbits bm k := by
  obtain ⟨hfirst,hsecond⟩ := getD_convEncode data hk
  have hsym := encodeStep_lt (encoderState data (k + 1))
  rw [sentMetric,otherMetric,hfirst,hsecond]
  generalize encodeStep (encoderState data (k + 1)) = sym at hsym ⊢
  have hflip : 3 ^^^ sym < 4 := by interval_cases sym <;> decide
  refine ⟨hn sym hsym,(hn _ hflip).trans ?_⟩
  interval_cases sym <;> rfl

private theorem shiftLeft_and_one (e : UInt32) : e <<< 1 &&& 1 = 0 := by
  refine UInt32.toNat_inj.mp ?_
  rw [UInt32.toNat_and,UInt32.toNat_shiftLeft,Nat.shiftLeft_eq]
  have hmod := Nat.and_one_is_mod (e.toNat * 2 ^ ((1 : UInt32).toNat % 32) % 2^32)
  have heven : e.toNat * 2 ^ ((1 : UInt32).toNat % 32) % 2^32 % 2 = 0 := by
    show e.toNat * 2 % 2^32 % 2 = 0
    omega
  exact hmod.trans heven

/-- Ordered by metric, the transmitted branch comes first. -/
private theorem orderBranches_sent {k : Nat} (hk : k < nbits) {n : Node} (hn : HasSums bm n k)
    (he : n.encstate = encoderState data k <<< 1)
    (hbetter : otherMetric data nbits bm k < sentMetric data nbits bm k) :
    (n.orderBranches (encodeStep n.encstate)).encstate = encoderState data (k + 1) ∧
      (n.orderBranches (encodeStep n.encstate)).tm.1 = sentMetric data nbits bm k := by
  obtain ⟨hsent,hother⟩ := sentMetric_eq data hk hn
  have hstate : encoderState data (k + 1) = n.encstate ||| (dataBit data k).toUInt32 := by
    rw [he,encoderState]
  unfold Node.orderBranches
  dsimp only
  rcases dataBit_cases data k with hbit | hbit
  · have hsame : encoderState data (k + 1) = n.encstate := by
      rw [hstate,hbit]
      exact UInt32.or_zero
    rw [hsame] at hsent hother
    rw [hsent,hother,if_pos hbetter,hsame]
    exact ⟨rfl,rfl⟩
  · have hset : encoderState data (k + 1) = n.encstate ||| 1 := by
      rw [hstate,hbit]
      rfl
    have hcomplement : encodeStep (n.encstate ||| 1) = 3 ^^^ encodeStep n.encstate :=
      encodeStep_or_one (he ▸ shiftLeft_and_one _)
    have htwice : 3 ^^^ (3 ^^^ encodeStep n.encstate) = encodeStep n.encstate := by
      rw [← Nat.xor_assoc,Nat.xor_self,Nat.zero_xor]
    rw [hset,hcomplement] at hsent
    rw [hset,hcomplement,htwice] at hother
    rw [hsent,hother,if_neg (by omega),hset]
    exact ⟨rfl,rfl⟩

/-- So it does in the tail, where the bit is known. -/
private theorem enter_sent {k : Nat} (h : NoiseFree data nbits bm) (hk : k < nbits) {n : Node}
    (hn : HasSums bm n k) (he : n.encstate = encoderState data k <<< 1) :
    (n.enter (tailIdx nbits ≤ k)).encstate = encoderState data (k + 1) ∧
      (n.enter (tailIdx nbits ≤ k)).branch = sentMetric data nbits bm k ∧
      (n.enter (tailIdx nbits ≤ k)).gamma = n.gamma := by
  unfold Node.enter
  dsimp only
  split
  · rename_i htail
    have hsame : encoderState data (k + 1) = n.encstate := by
      rw [he,encoderState,h.tail k hk (of_decide_eq_true htail)]
      exact UInt32.or_zero
    obtain ⟨hsent,_⟩ := sentMetric_eq data hk hn
    rw [hsame] at hsent ⊢
    exact ⟨rfl,hsent,rfl⟩
  · obtain ⟨hstate,hbranch⟩ := orderBranches_sent hk hn he (h.better k hk)
    refine ⟨hstate,hbranch,?_⟩
    unfold Node.orderBranches
    dsimp only
    split <;> rfl

end Frame

section Threshold

/-- The threshold is raised to the last multiple of the step that does not pass the metric. -/
theorem tighten_eq {delta : Int} (hdelta : 0 < delta) {r : Int} (hr : 0 ≤ r) (hlt : r < delta) (q fuel : Nat)
    {t : Int} (ht : 0 ≤ t) (hfit : t + delta * q < 2^31) (hfuel : q < fuel) :
    tighten delta (t + delta * q + r) fuel t = some (t + delta * q) := by
  induction q generalizing fuel t with
  | zero =>
    obtain ⟨fuel,rfl⟩ : ∃ n, fuel = n + 1 := ⟨fuel - 1,by omega⟩
    rw [tighten,if_neg (by simp; omega)]
    simp
  | succ q ih =>
    obtain ⟨fuel,rfl⟩ : ∃ n, fuel = n + 1 := ⟨fuel - 1,by omega⟩
    have hnext : t + delta * (q + 1 : Nat) = (t + delta) + delta * q := by
      push_cast
      ring
    have hpos : 0 ≤ delta * (q : Int) := Int.mul_nonneg hdelta.le (Int.natCast_nonneg q)
    rw [hnext] at hfit ⊢
    rw [tighten,if_pos (by omega),wrapI32_eq (by omega) (by omega)]
    exact ih fuel (by omega) hfit (by omega)

/-- Between two metrics of a rising path. -/
theorem tighten_rise {delta a b : Int} (hdelta : 0 < delta) (ha : 0 ≤ a) (hab : a ≤ b)
    (hfit : delta * (b / delta) < 2^31) :
    tighten delta b (2^32) (delta * (a / delta)) = some (delta * (b / delta)) := by
  have hle : a / delta ≤ b / delta := Int.ediv_le_ediv hdelta hab
  have ha0 : 0 ≤ a / delta := Int.ediv_nonneg ha hdelta.le
  obtain ⟨q,hq⟩ := Int.eq_ofNat_of_zero_le (Int.sub_nonneg.mpr hle)
  have hb : delta * (b / delta) = delta * (a / delta) + delta * q := by
    rw [← hq]
    ring
  have hbound : (b / delta) < 2^31 := by nlinarith [Int.ediv_nonneg (ha.trans hab) hdelta.le]
  have h := tighten_eq hdelta (Int.emod_nonneg b hdelta.ne') (Int.emod_lt_of_pos b hdelta) q (2^32)
    (Int.mul_nonneg hdelta.le ha0) (hb ▸ hfit) (by omega)
  rw [← hb,Int.mul_ediv_add_emod] at h
  exact h

end Threshold

section Path

variable {data : List UInt8} {nbits : Nat} {bm : List (Int × Int)} {delta : Int}

/-- The search stands on node `k` of the transmitted path and has taken no step back. -/
structure OnPath (data : List UInt8) (nbits : Nat) (bm : List (Int × Int)) (delta : Int) (k : Nat)
    (s : Search) : Prop where
  np : s.np = k
  t : s.t = delta * (pathMetric data nbits bm k / delta)
  cycles : s.cycles = k
  maxNp : s.maxNp = k - 1
  searching : s.converged = false
  size : s.nodes.length = nbits + 1
  sums : ∀ j < nbits, HasSums bm (node s.nodes j) j
  states : ∀ j ≤ k, (node s.nodes j).encstate = encoderState data (j + 1)
  gamma : (node s.nodes k).gamma = pathMetric data nbits bm k
  branch : (node s.nodes k).branch = sentMetric data nbits bm k

/-- The search has left the last node of the path. -/
structure Finished (data : List UInt8) (nbits : Nat) (bm : List (Int × Int)) (s : Search) : Prop where
  np : s.np = nbits
  cycles : s.cycles = nbits
  maxNp : s.maxNp = nbits - 1
  converged : s.converged = true
  states : ∀ j < nbits, (node s.nodes j).encstate = encoderState data (j + 1)
  gamma : (node s.nodes nbits).gamma = pathMetric data nbits bm nbits

theorem pathMetric_mono (h : NoiseFree data nbits bm) {k n : Nat} (hkn : k ≤ n) (hn : n ≤ nbits) :
    pathMetric data nbits bm k ≤ pathMetric data nbits bm n := by
  induction n with
  | zero => rw [Nat.le_zero.mp hkn]
  | succ n ih =>
    rcases Nat.lt_or_eq_of_le hkn with hlt | rfl
    · rw [pathMetric_succ]
      have hstep := h.nonneg n hn
      have hprev := ih (Nat.le_of_lt_succ hlt) (Nat.le_of_succ_le hn)
      omega
    · exact le_refl _

private theorem pathMetric_nonneg (h : NoiseFree data nbits bm) {k : Nat} (hk : k ≤ nbits) :
    0 ≤ pathMetric data nbits bm k := pathMetric_mono h (Nat.zero_le k) hk

/-- The root is entered by the bootstrap. -/
private theorem onPath_start (delta : Int) (h : NoiseFree data nbits bm) :
    OnPath data nbits bm delta 0 ⟨prepare .new bm nbits,0,0,0,0,false⟩ := by
  have hpos : 0 < nbits := by
    have htail := h.hasTail
    rw [K_CONSTRAINT] at htail
    omega
  have hlen : (List.replicate (nbits + 1) Node.default).length = nbits + 1 := List.length_replicate
  have hprepare : prepare .new bm nbits =
      bootstrap (precompute nbits bm (List.replicate (nbits + 1) Node.default)) := rfl
  have hroot : node (prepare .new bm nbits) 0 =
      { (node (precompute nbits bm (List.replicate (nbits + 1) Node.default)) 0).orderBranches
        (encodeStep 0) with i := 0,gamma := 0 } := by
    rw [hprepare]
    exact node_modify_self _ _ (by rw [length_precompute,hlen]; omega)
  have hsums : HasSums bm (node (precompute nbits bm (List.replicate (nbits + 1) Node.default)) 0) 0 := by
    intro sym hsym
    rw [node_precompute nbits bm _ 0 (by rw [hlen]; omega),if_pos hpos]
    interval_cases sym <;> rfl
  have hstate : (node (precompute nbits bm (List.replicate (nbits + 1) Node.default)) 0).encstate =
      encoderState data 0 <<< 1 := by
    rw [node_precompute nbits bm _ 0 (by rw [hlen]; omega),if_pos hpos]
    simp [node,Node.default,encoderState]
  obtain ⟨hencstate,hbranch⟩ := orderBranches_sent hpos hsums hstate (h.better 0 hpos)
  rw [hstate,encoderState,show (0 : UInt32) <<< 1 = 0 by decide] at hencstate hbranch
  have hfirst : (node (prepare .new bm nbits) 0).branch = sentMetric data nbits bm 0 := by
    rw [hroot]
    exact hbranch
  refine ⟨rfl,?_,rfl,rfl,rfl,?_,?_,?_,?_,hfirst⟩
  · simp [pathMetric]
  · dsimp only
    rw [hprepare,length_bootstrap,length_precompute,hlen]
  · intro j hj
    exact hasSums_bootstrap hj hlen
  · intro j hj
    obtain rfl := Nat.le_zero.mp hj
    dsimp only
    rw [hroot]
    exact hencstate
  · dsimp only
    rw [hroot]
    rfl

/-- A node of the path is left by a step forward, once the threshold is tightened. -/
private theorem OnPath.cycle_eq {k : Nat} {s : Search} (hs : OnPath data nbits bm delta k s)
    (h : NoiseFree data nbits bm) (hdelta : 0 < delta) (hk : k < nbits) :
    cycle nbits delta s = (tighten delta (pathMetric data nbits bm (k + 1)) (2^32)
      (delta * (pathMetric data nbits bm k / delta))).map fun t =>
        forward nbits { s with cycles := s.cycles + 1,maxNp := max s.maxNp s.np }
          (pathMetric data nbits bm (k + 1)) t := by
  have hrise := pathMetric_mono h (Nat.le_succ k) hk
  have hbelow : delta * (pathMetric data nbits bm k / delta) ≤ pathMetric data nbits bm k :=
    Int.mul_ediv_self_le hdelta.ne'
  have habove : pathMetric data nbits bm k < delta * (pathMetric data nbits bm k / delta) + delta :=
    Int.lt_mul_ediv_self_add hdelta
  unfold cycle
  dsimp only
  rw [hs.np,hs.gamma,hs.branch,hs.t,← pathMetric_succ,if_pos (hbelow.trans hrise),if_pos habove]

/-- One cycle takes the search to the next node, or past the last one. -/
private theorem OnPath.step {k : Nat} {s : Search} (hs : OnPath data nbits bm delta k s)
    (h : NoiseFree data nbits bm) (hdelta : 0 < delta)
    (hfit : delta * (pathMetric data nbits bm (k + 1) / delta) < 2^31) (hk : k < nbits) :
    ∃ s', cycle nbits delta s = some s' ∧ (k + 1 < nbits → OnPath data nbits bm delta (k + 1) s') ∧
      (k + 1 = nbits → Finished data nbits bm s') := by
  have htighten := tighten_rise hdelta (pathMetric_nonneg h hk.le) (pathMetric_mono h (Nat.le_succ k) hk) hfit
  refine ⟨_,(hs.cycle_eq h hdelta hk).trans (congrArg _ htighten),fun hnext => ?_,fun hlast => ?_⟩
  · have hinside : ¬ k + 1 > lastIdx nbits := by
      rw [lastIdx]
      omega
    simp only [forward,hs.np,modify_modify]
    rw [if_neg hinside]
    have henter := enter_sent h hnext (n := { node s.nodes (k + 1) with
        gamma := pathMetric data nbits bm (k + 1),encstate := (node s.nodes k).encstate <<< 1 })
      (hs.sums (k + 1) hnext) (by rw [hs.states k (le_refl k)])
    obtain ⟨hstate,hbranch,hgamma⟩ := henter
    have hself : ∀ f, node (s.nodes.modify (k + 1) f) (k + 1) = f (node s.nodes (k + 1)) := fun f =>
      node_modify_self _ f (by rw [hs.size]; omega)
    refine ⟨rfl,rfl,by simp only [hs.cycles],?_,hs.searching,?_,?_,?_,?_,?_⟩
    · simp only [hs.maxNp]
      omega
    · rw [List.length_modify,hs.size]
    · intro j hj sym hsym
      dsimp only
      rw [node_modify]
      split
      · rename_i hjk
        rw [enter_metrics,← hjk.1]
        exact hs.sums j hj sym hsym
      · exact hs.sums j hj sym hsym
    · intro j hj
      dsimp only
      rcases Nat.lt_or_eq_of_le hj with hlt | rfl
      · rw [node_modify_ne _ _ (Nat.ne_of_lt hlt)]
        exact hs.states j (Nat.le_of_lt_succ hlt)
      · rw [hself]
        exact hstate
    · dsimp only
      rw [hself,hgamma]
    · dsimp only
      rw [hself]
      exact hbranch
  · have houtside : k + 1 > lastIdx nbits := by
      rw [lastIdx]
      omega
    simp only [forward,hs.np]
    rw [if_pos houtside]
    refine ⟨hlast,by simp only [hs.cycles,hlast],?_,rfl,?_,?_⟩
    · simp only [hs.maxNp]
      omega
    · intro j hj
      dsimp only
      rw [node_modify_ne _ _ (by omega)]
      exact hs.states j (by omega)
    · subst hlast
      dsimp only
      rw [node_modify_self _ _ (by rw [hs.size]; omega)]

/-- The thresholds on the way stay below the last one. -/
private theorem threshold_fits (h : NoiseFree data nbits bm) (hdelta : 0 < delta)
    (hfit : delta * (pathMetric data nbits bm nbits / delta) < 2^31) {k : Nat} (hk : k ≤ nbits) :
    delta * (pathMetric data nbits bm k / delta) < 2^31 :=
  lt_of_le_of_lt (Int.mul_le_mul_of_nonneg_left
    (Int.ediv_le_ediv hdelta (pathMetric_mono h hk (le_refl _))) hdelta.le) hfit

/-- After `k` cycles the search stands on node `k`. -/
private theorem search_onPath (h : NoiseFree data nbits bm) (hdelta : 0 < delta)
    (hfit : delta * (pathMetric data nbits bm nbits / delta) < 2^31) {k : Nat} (hk : k < nbits) (left : Nat) :
    ∃ s, OnPath data nbits bm delta k s ∧
      search nbits delta (k + left) ⟨prepare .new bm nbits,0,0,0,0,false⟩ = search nbits delta left s := by
  induction k generalizing left with
  | zero => exact ⟨_,onPath_start delta h,by rw [Nat.zero_add]⟩
  | succ k ih =>
    obtain ⟨s,hs,hsearch⟩ := ih (Nat.lt_of_succ_lt hk) (left + 1)
    obtain ⟨s',hcycle,hnext,-⟩ := hs.step h hdelta (threshold_fits h hdelta hfit (by omega)) (by omega)
    refine ⟨s',hnext hk,?_⟩
    rw [show k + 1 + left = k + (left + 1) by omega,hsearch,search,hcycle,Option.bind_some,
      (hnext hk).searching,if_neg Bool.false_ne_true]

private theorem search_finished (h : NoiseFree data nbits bm) (hdelta : 0 < delta)
    (hfit : delta * (pathMetric data nbits bm nbits / delta) < 2^31) {maxCycles : Nat} (hmax : nbits ≤ maxCycles) :
    ∃ s, search nbits delta maxCycles ⟨prepare .new bm nbits,0,0,0,0,false⟩ = some s ∧
      Finished data nbits bm s := by
  have hpos : 1 ≤ nbits := le_trans (by decide) h.hasTail
  obtain ⟨s,hs,hsearch⟩ := search_onPath h hdelta hfit (k := nbits - 1) (by omega) (maxCycles - nbits + 1)
  have hk : nbits - 1 + 1 = nbits := by omega
  obtain ⟨s',hcycle,-,hend⟩ := hs.step h hdelta (threshold_fits h hdelta hfit hk.le) (by omega)
  refine ⟨s',?_,hend hk⟩
  rw [show maxCycles = nbits - 1 + (maxCycles - nbits + 1) by omega,hsearch,search,hcycle,Option.bind_some,
    (hend hk).converged,if_pos rfl]

private theorem Finished.data_eq {s : Search} (hs : Finished data nbits bm s) (h : NoiseFree data nbits bm) :
    (result nbits s).data = data.take (nbits / 8) := by
  have hdata := h.hasData
  refine List.ext_getElem (by simp [result]; omega) fun i hi hi' => ?_
  have hlt : i < nbits / 8 := by simpa [result] using hi
  simp only [result,List.getElem_map,List.getElem_range,List.getElem_take]
  rw [hs.states (8 * i + 7) (by omega),toUInt8_encoderState]
  exact List.getD_eq_getElem _ _ (by omega)

/-- As long as the threshold fits its type and the cycles last, a frame whose metrics favour the transmitted
pair at every node is searched one node a cycle, and its data comes back. -/
theorem noiseFree_recovered (data : List UInt8) (nbits : Nat) (bm : List (Int × Int)) (delta : Int)
    (maxCyclesPerBit : Nat) (h : NoiseFree data nbits bm) (hdelta : 0 < delta)
    (hfit : delta * (pathMetric data nbits bm nbits / delta) < 2^31)
    (hcycles : nbits ≤ maxCyclesPerBit * nbits % 2^64) :
    (∀ k < nbits, ∃ s, search nbits delta k ⟨prepare .new bm nbits,0,0,0,0,false⟩ = some s ∧
      s.np = k ∧ s.cycles = k) ∧
    ∃ r, fanoDecode bm nbits delta maxCyclesPerBit = some r ∧ r.converged = true ∧ r.cycles = nbits ∧
      r.maxNp = nbits - 1 ∧ r.metric = pathMetric data nbits bm nbits ∧ r.data = data.take (nbits / 8) := by
  refine ⟨fun k hk => ?_,?_⟩
  · obtain ⟨s,hs,hsearch⟩ := search_onPath h hdelta hfit hk 0
    exact ⟨s,hsearch,hs.np,hs.cycles⟩
  · obtain ⟨s,hsearch,hs⟩ := search_finished h hdelta hfit hcycles
    refine ⟨result nbits s,?_,hs.converged,hs.cycles,hs.maxNp,?_,hs.data_eq h⟩
    · rw [fanoDecode,decode_eq .new h.length,hsearch,Option.map_some]
    · simp only [result]
      rw [hs.np,Nat.min_self,hs.gamma]

/-- One data bit in front of the tail, and metrics that count agreeing bits. -/
theorem noiseFree_recovered_bit :
    NoiseFree [0x80,0,0,0] 32 ((convEncode [0x80,0,0,0] 32).map fun c => (1 - (c.toNat : Int),(c.toNat : Int))) ∧
    ∃ r, fanoDecode ((convEncode [0x80,0,0,0] 32).map fun c => (1 - (c.toNat : Int),(c.toNat : Int))) 32 17 10 =
      some r ∧ r.data = [0x80,0,0,0] := by
  have h : NoiseFree [0x80,0,0,0] 32
      ((convEncode [0x80,0,0,0] 32).map fun c => (1 - (c.toNat : Int),(c.toNat : Int))) :=
    ⟨by decide,by decide,by decide,by decide,by decide,by decide⟩
  obtain ⟨-,r,hr,-,-,-,-,hdata⟩ := noiseFree_recovered _ 32 _ 17 10 h (by decide) (by decide) (by decide)
  exact ⟨h,r,hr,hdata⟩

/-- Once the metric has left the type of the threshold, the threshold comes round and the loop goes on. -/
private theorem tighten_round (ngamma : Int) (hbig : 2^31 ≤ ngamma) (fuel : Nat) (c : Int) (hlow : -2 ≤ c)
    (hhigh : c ≤ 1) : tighten (2^30) ngamma fuel (2^30 * c) = none := by
  induction fuel generalizing c with
  | zero => rfl
  | succ fuel ih =>
    rw [tighten,if_pos (by omega)]
    rcases Int.lt_or_eq_of_le hhigh with hlt | rfl
    · rw [show 2^30 * c + 2^30 = 2^30 * (c + 1) by ring,wrapI32_eq (by omega) (by omega)]
      exact ih (c + 1) (by omega) (by omega)
    · exact ih (-2) (by decide) (by decide)

/-- The tail alone, with metrics the path adds up past the threshold's type in two steps. -/
def steepFrame : List (Int × Int) := List.replicate 62 (2^29,0)

private theorem noiseFree_steep : NoiseFree [0,0,0,0] 31 steepFrame :=
  ⟨by decide,by decide,by decide,by decide,by decide,by decide⟩

/-- The frame is not recovered: with this step the call does not return, and without a budget it gives up. -/
theorem noiseFree_not_recovered :
    NoiseFree [0,0,0,0] 31 steepFrame ∧ fanoDecode steepFrame 31 (2^30) 10000 = none ∧
      (fanoDecode steepFrame 31 17 0).map FanoDecodeResult.converged = some false := by
  refine ⟨noiseFree_steep,?_,by decide⟩
  have hfirst : pathMetric [0,0,0,0] 31 steepFrame (0 + 1) = 2^30 := by decide
  have hsecond : pathMetric [0,0,0,0] 31 steepFrame (1 + 1) = 2^31 := by decide
  have hstart := onPath_start (2^30) noiseFree_steep
  obtain ⟨s,hcycle,hnext,-⟩ := hstart.step noiseFree_steep (by decide) (by rw [hfirst]; decide) (by decide)
  have hround := tighten_round (2^31) (le_refl _) (2^32) 1 (by decide) (by decide)
  have hstop : cycle 31 (2^30) s = none := by
    rw [(hnext (by decide)).cycle_eq noiseFree_steep (by decide) (by decide),hsecond,hfirst]
    exact congrArg _ hround
  have hbudget : 10000 * 31 % 2^64 = 309998 + 1 + 1 := by decide
  rw [fanoDecode,decode_eq .new noiseFree_steep.length,hbudget,search,hcycle,Option.bind_some,
    (hnext (by decide)).searching,if_neg Bool.false_ne_true,search,hstop]
  rfl

end Path

end MfskCore.Fec
