import MfskCore.Fec.RunningSum
import MfskCore.Library.Checked
import MfskCore.Library.Peeling
import MfskCore.Library.RowMajor

/-! The puncturing patterns (`uvpacket/puncture.rs`): how many rounds of peeling recover each punctured bit, and the
greedy choice of the bits to drop. A read out of range panics. -/
namespace MfskCore.Uvpacket
open Fec Library Rust

def N : Nat := 240
def K_INFO : Nat := 101
def N_PARITY : Nat := N - K_INFO

def U32_MAX : Nat := 2^32 - 1

section Classify
variable (P : LdpcParams)

/-- `P::mn(v)`. -/
def checksOf (v : Nat) : List Nat := (List.range NCW).map fun k => (P.mn v).getD k 0

/-- `P::nm(c, slot)` for every slot in use. -/
def membersOf (c : Nat) : List Nat := (List.range (P.nrw c)).map (P.nm c)

/-- Whether every other bit of a check has a lower level. -/
def allLower (level : List Nat) (k v : Nat) : List Nat → Option Bool
  | [] => some true
  | v2 :: rest =>
    if v2 = v then allLower level k v rest
    else (level[v2]?).bind fun l => if k ≤ l then some false else allLower level k v rest

/-- Whether some check recovers the bit. -/
def recovered (level : List Nat) (k v : Nat) : List Nat → Option Bool
  | [] => some false
  | c :: rest => (allLower level k v (membersOf P c)).bind fun lower => if lower then some true else recovered level k v rest

def promote (punctured : List Bool) (k : Nat) (level : List Nat) (v : Nat) : Option (List Nat) :=
  (punctured[v]?).bind fun p => (level[v]?).bind fun l =>
    if !p || l ≠ U32_MAX then some level
    else (recovered P level k v (checksOf P v)).map fun found => if found then level.set v k else level

def classifyKSR (punctured : List Bool) (maxK : UInt32) : Option (List Nat) :=
  ((List.range P.N).foldlM (fun level v => (punctured[v]?).map fun p => if !p then level.set v 0 else level)
    (List.replicate P.N U32_MAX)).bind fun level =>
  (List.range' 1 maxK.toNat).foldlM (fun level k => (List.range P.N).foldlM (promote P punctured k) level) level

end Classify

def scoreLevels (levels : List Nat) : Int × Int :=
  let (unrecoverable,sumLevels) := levels.foldl (fun (s : Int × Int) l =>
    if l = U32_MAX then (s.1 + 1,s.2) else (s.1,s.2 + l)) (0,0)
  (-unrecoverable,-sumLevels)

/-- `>` on pairs. -/
def scoreGt (s t : Int × Int) : Bool := t.1 < s.1 || (t.1 = s.1 && t.2 < s.2)

def I64_MIN : Int := -2^63

/-- The mask and the best candidate so far. -/
structure Greedy where
  punctured : List Bool
  bestP : Nat
  bestScore : Int × Int

/-- The candidate is punctured while the others are classified. -/
def tryCandidate (st : Greedy) (p : Nat) : Option Greedy :=
  (st.punctured[p]?).bind fun taken =>
    if taken then some st
    else
      let tried := st.punctured.set p true
      (classifyKSR Ldpc240_101Params tried 12).map fun lvls =>
        let s := scoreLevels lvls
        if scoreGt s st.bestScore then ⟨tried.set p false,p,s⟩ else { st with punctured := tried.set p false }

def greedyRound (punctured : List Bool) : Option (List Bool) :=
  ((List.range' K_INFO N_PARITY).foldlM tryCandidate ⟨punctured,K_INFO,(I64_MIN,I64_MIN)⟩).map fun st =>
    st.punctured.set st.bestP true

def keepIndicesKSRGreedyWithCount (targetPunctures : Nat) : Option (List Nat) :=
  if targetPunctures ≤ N_PARITY then
    if targetPunctures = 0 then some (List.range N)
    else
      ((List.range targetPunctures).foldlM (fun punctured _ => greedyRound punctured) (List.replicate N false)).map
        fun punctured => (List.range N).filter fun i => !punctured.getD i false
  else none

section Levels
variable {P : LdpcParams} {punctured : List Bool}

/-- The bits known after a number of rounds of peeling. -/
def knownAfter (P : LdpcParams) (punctured : List Bool) (k v : Nat) : Bool :=
  peel (checksOf P) (membersOf P) (fun v => !punctured.getD v false) k v

/-- The level of a bit after a number of rounds. -/
def levelAfter (P : LdpcParams) (punctured : List Bool) (k v : Nat) : Nat :=
  peelLevel (checksOf P) (membersOf P) (fun v => !punctured.getD v false) U32_MAX k v

theorem mem_checksOf (hP : P.InRange) {v c : Nat} (hv : v < P.N) (hc : c ∈ checksOf P v) : c < P.M := by
  obtain ⟨k,hk,rfl⟩ := List.mem_map.1 hc
  exact hP.check v hv k (List.mem_range.1 hk)

theorem mem_membersOf (hP : P.InRange) {c u : Nat} (hc : c < P.M) (hu : u ∈ membersOf P c) : u < P.N := by
  obtain ⟨s,hs,rfl⟩ := List.mem_map.1 hu
  exact hP.bit c hc s (List.mem_range.1 hs)

/-- While round `k + 1` scans, the bits below `m` have their level after the round, the others that before it. -/
structure Scanned (P : LdpcParams) (punctured : List Bool) (k m : Nat) (level : List Nat) : Prop where
  length : level.length = P.N
  levels : ∀ v < P.N, level.getD v 0 = if v < m then levelAfter P punctured (k + 1) v else levelAfter P punctured k v

variable {k m : Nat} {level : List Nat}

/-- A bit that is promoted during the round does not count as lower in it. -/
theorem Scanned.lower_iff (h : Scanned P punctured k m level) (hk : k < U32_MAX) {u : Nat} (hu : u < P.N) :
    level.getD u 0 < k + 1 ↔ knownAfter P punctured k u = true := by
  rw [h.levels u hu]
  by_cases hknown : knownAfter P punctured k u = true
  · have hsame : levelAfter P punctured (k + 1) u = levelAfter P punctured k u := if_pos hknown
    have hle := (peelLevel_spec U32_MAX hknown).1
    rw [hsame,ite_self]
    exact iff_of_true (Nat.lt_succ_of_le hle) hknown
  · have hlevel : levelAfter P punctured k u = U32_MAX := peelLevel_of_not_peel _ (eq_false_of_ne_true hknown)
    have hlate : levelAfter P punctured (k + 1) u = if knownAfter P punctured (k + 1) u then k + 1 else U32_MAX :=
      if_neg hknown
    have hnext : k + 1 ≤ levelAfter P punctured (k + 1) u := by
      rw [hlate]
      split
      · exact Nat.le_refl _
      · exact hk
    refine iff_of_false ?_ hknown
    split
    · exact Nat.not_lt.2 hnext
    · rw [hlevel]
      exact Nat.not_lt.2 hk

/-- A check is asked only about bits of the code. -/
theorem Scanned.allLower_eq (h : Scanned P punctured k m level) (hk : k < U32_MAX) (v : Nat) {us : List Nat}
    (hus : ∀ u ∈ us, u < P.N) :
    allLower level (k + 1) v us = some (us.all fun u => u = v || knownAfter P punctured k u) := by
  induction us with
  | nil => rfl
  | cons u us ih =>
    have hu : u < P.N := hus u List.mem_cons_self
    have hrest := ih fun w hw => hus w (List.mem_cons_of_mem u hw)
    rw [allLower,List.all_cons]
    by_cases huv : u = v
    · rw [if_pos huv,hrest,decide_eq_true huv,Bool.true_or,Bool.true_and]
    · rw [if_neg huv,getElem?_eq_some_getD (h.length.symm ▸ hu) 0,Option.bind_some,decide_eq_false huv,Bool.false_or,hrest]
      have hlower := h.lower_iff hk hu
      by_cases hknown : knownAfter P punctured k u = true
      · rw [if_neg (Nat.not_le.2 (hlower.2 hknown)),hknown,Bool.true_and]
      · rw [if_pos (Nat.not_lt.1 fun hlt => hknown (hlower.1 hlt)),eq_false_of_ne_true hknown,Bool.false_and]

theorem Scanned.recovered_eq (h : Scanned P punctured k m level) (hP : P.InRange) (hk : k < U32_MAX) (v : Nat)
    {cs : List Nat} (hcs : ∀ c ∈ cs, c < P.M) : recovered P level (k + 1) v cs =
      some (cs.any fun c => (membersOf P c).all fun u => u = v || knownAfter P punctured k u) := by
  induction cs with
  | nil => rfl
  | cons c cs ih =>
    rw [recovered,h.allLower_eq hk v fun u hu => mem_membersOf hP (hcs c List.mem_cons_self) hu,Option.bind_some,
      ih fun d hd => hcs d (List.mem_cons_of_mem c hd),List.any_cons]
    split
    · rename_i hall
      rw [hall,Bool.true_or]
    · rename_i hall
      rw [eq_false_of_ne_true hall,Bool.false_or]

/-- One bit of the scan. -/
theorem Scanned.promote (h : Scanned P punctured k m level) (hP : P.InRange) (hmask : punctured.length = P.N)
    (hk : k < U32_MAX) (hm : m < P.N) :
    ∃ level', promote P punctured (k + 1) level m = some level' ∧ Scanned P punctured k (m + 1) level' := by
  have hlevel := h.levels m hm
  rw [if_neg (Nat.lt_irrefl m)] at hlevel
  have hwrite {level' : List Nat} (hlen : level'.length = P.N) (hnew : level'.getD m 0 = levelAfter P punctured (k + 1) m)
      (hold : ∀ v, v ≠ m → level'.getD v 0 = level.getD v 0) : Scanned P punctured k (m + 1) level' := by
    refine ⟨hlen,fun v hv => ?_⟩
    by_cases hvm : v = m
    · rw [hvm,hnew,if_pos (Nat.lt_succ_self m)]
    · have hiff : v < m + 1 ↔ v < m := by omega
      rw [hold v hvm,h.levels v hv]
      simp only [hiff]
  have hstays : knownAfter P punctured k m = true → Scanned P punctured k (m + 1) level := fun hknown =>
    hwrite h.length (hlevel.trans (if_pos hknown).symm) fun _ _ => rfl
  rw [Uvpacket.promote,getElem?_eq_some_getD (hmask.symm ▸ hm) false,getElem?_eq_some_getD (h.length.symm ▸ hm) 0,
    Option.bind_some,Option.bind_some,hlevel]
  by_cases hknown : knownAfter P punctured k m = true
  · have hskip : (!punctured.getD m false || decide (levelAfter P punctured k m ≠ U32_MAX)) = true := by
      have hle := (peelLevel_spec U32_MAX hknown).1
      rw [Bool.or_eq_true]
      exact Or.inr (decide_eq_true (Nat.ne_of_lt (hle.trans_lt hk)))
    exact ⟨level,if_pos hskip,hstays hknown⟩
  · have hmarked : levelAfter P punctured k m = U32_MAX := peelLevel_of_not_peel _ (eq_false_of_ne_true hknown)
    have hpunctured : (!punctured.getD m false) = false :=
      eq_false_of_ne_true fun h0 => hknown (peel_mono (Nat.zero_le k) h0)
    have hscan : ¬(!punctured.getD m false || decide (levelAfter P punctured k m ≠ U32_MAX)) = true := by
      rw [hpunctured,Bool.false_or,decide_eq_true_eq]
      exact fun hne => hne hmarked
    have hfound := h.recovered_eq hP hk m fun c hc => mem_checksOf hP hm hc
    have hround : knownAfter P punctured (k + 1) m =
        (checksOf P m).any fun c => (membersOf P c).all fun u => u = m || knownAfter P punctured k u := by
      have hunknown : peel (checksOf P) (membersOf P) (fun v => !punctured.getD v false) k m = false :=
        eq_false_of_ne_true hknown
      rw [knownAfter,peel,hunknown,Bool.false_or]
      rfl
    rw [if_neg hscan,hfound,Option.map_some,← hround]
    have hlate : levelAfter P punctured (k + 1) m = if knownAfter P punctured (k + 1) m then k + 1 else U32_MAX :=
      if_neg hknown
    split
    · rename_i hnow
      rw [if_pos hnow] at hlate
      refine ⟨_,rfl,hwrite ((List.length_set).trans h.length) ?_ fun v hv => ?_⟩
      · rw [getD_set (h.length.symm ▸ hm),if_pos rfl,hlate]
      · rw [getD_set (h.length.symm ▸ hm),if_neg hv.symm]
    · rename_i hnow
      rw [if_neg hnow] at hlate
      exact ⟨level,rfl,hwrite h.length (hlevel.trans (hmarked.trans hlate.symm)) fun _ _ => rfl⟩

/-- A whole round is one round of simultaneous peeling. -/
theorem scan_run (hP : P.InRange) (hmask : punctured.length = P.N) (hk : k < U32_MAX) (h : Scanned P punctured k 0 level) :
    ∃ level', (List.range P.N).foldlM (promote P punctured (k + 1)) level = some level' ∧
      Scanned P punctured (k + 1) 0 level' := by
  have hupTo : ∀ m ≤ P.N, ∃ level', (List.range m).foldlM (promote P punctured (k + 1)) level = some level' ∧
      Scanned P punctured k m level' := by
    intro m
    induction m with
    | zero => exact fun _ => ⟨level,rfl,h⟩
    | succ m ih =>
      intro hm
      obtain ⟨mid,hrun,hmid⟩ := ih (Nat.le_of_succ_le hm)
      obtain ⟨out,hstep,hout⟩ := hmid.promote hP hmask hk hm
      refine ⟨out,?_,hout⟩
      rw [List.range_succ,List.foldlM_append,hrun,Option.bind_eq_bind,Option.bind_some,List.foldlM_cons,hstep]
      rfl
  obtain ⟨out,hrun,hout⟩ := hupTo P.N (Nat.le_refl _)
  refine ⟨out,hrun,hout.length,fun v hv => ?_⟩
  rw [hout.levels v hv,if_pos hv,if_neg (Nat.not_lt_zero v)]

/-- The bits that are sent have level zero, the others none yet. -/
theorem foldl_unpunctured (punctured : List Bool) {m n : Nat} (hm : m ≤ n) :
    let level := (List.range m).foldl (fun (level : List Nat) v => if !punctured.getD v false then level.set v 0 else level)
      (List.replicate n U32_MAX)
    level.length = n ∧ ∀ v < n, level.getD v 0 = if v < m ∧ (!punctured.getD v false) = true then 0 else U32_MAX := by
  induction m with
  | zero =>
    refine ⟨List.length_replicate,fun v hv => ?_⟩
    rw [if_neg fun h => Nat.not_lt_zero v h.1]
    exact List.getD_replicate _ hv
  | succ m ih =>
    obtain ⟨hlength,hlevels⟩ := ih (Nat.le_of_succ_le hm)
    simp only [List.range_succ,List.foldl_append,List.foldl_cons,List.foldl_nil]
    split
    · rename_i hsent
      refine ⟨(List.length_set).trans hlength,fun v hv => ?_⟩
      rw [getD_set (hlength.symm ▸ hm),hlevels v hv]
      by_cases hvm : m = v
      · subst hvm
        rw [if_pos rfl,if_pos ⟨Nat.lt_succ_self m,hsent⟩]
      · have hiff : v < m + 1 ↔ v < m := by omega
        simp only [hvm,hiff,if_false]
    · rename_i hdropped
      refine ⟨hlength,fun v hv => (hlevels v hv).trans ?_⟩
      by_cases hvm : m = v
      · subst hvm
        rw [if_neg fun h => hdropped h.2,if_neg fun h => hdropped h.2]
      · have hiff : v < m + 1 ↔ v < m := by omega
        simp only [hiff]

/-- The classification runs to its end, and gives every bit its level. -/
theorem classifyKSR_run (hP : P.InRange) (hmask : punctured.length = P.N) (maxK : UInt32) :
    ∃ level, classifyKSR P punctured maxK = some level ∧ Scanned P punctured maxK.toNat 0 level := by
  have hstart : (List.range P.N).foldlM (fun (level : List Nat) v =>
      (punctured[v]?).map fun p => if !p then level.set v 0 else level) (List.replicate P.N U32_MAX) =
      some ((List.range P.N).foldl (fun level v => if !punctured.getD v false then level.set v 0 else level)
        (List.replicate P.N U32_MAX)) := by
    refine (foldlM_eq_some (fun _ => True) (fun v hv level _ => ⟨?_,trivial⟩) trivial).1
    rw [getElem?_eq_some_getD (hmask.symm ▸ List.mem_range.1 hv) false]
    rfl
  have hfirst : Scanned P punctured 0 0 ((List.range P.N).foldl
      (fun level v => if !punctured.getD v false then level.set v 0 else level) (List.replicate P.N U32_MAX)) := by
    obtain ⟨hlength,hlevels⟩ := foldl_unpunctured punctured (n := P.N) (Nat.le_refl _)
    refine ⟨hlength,fun v hv => ?_⟩
    rw [hlevels v hv,if_neg (Nat.not_lt_zero v),levelAfter,peelLevel]
    simp only [hv,true_and]
  have hrounds : ∀ k ≤ U32_MAX, ∃ level, (List.range' 1 k).foldlM (fun level k =>
      (List.range P.N).foldlM (promote P punctured k) level) ((List.range P.N).foldl
      (fun level v => if !punctured.getD v false then level.set v 0 else level) (List.replicate P.N U32_MAX)) =
      some level ∧ Scanned P punctured k 0 level := by
    intro k
    induction k with
    | zero => exact fun _ => ⟨_,rfl,hfirst⟩
    | succ k ih =>
      intro hk
      obtain ⟨mid,hrun,hmid⟩ := ih (Nat.le_of_succ_le hk)
      obtain ⟨out,hround,hout⟩ := scan_run hP hmask hk hmid
      refine ⟨out,?_,hout⟩
      rw [List.range'_concat,List.foldlM_append,hrun,Option.bind_eq_bind,Option.bind_some,List.foldlM_cons,Nat.one_mul,
        Nat.add_comm,hround]
      rfl
  obtain ⟨level,hrun,hlevel⟩ := hrounds maxK.toNat (Nat.le_sub_one_of_lt maxK.toNat_lt)
  refine ⟨level,?_,hlevel⟩
  rw [classifyKSR,hstart,Option.bind_some,hrun]

end Levels

section Greedy

/-- The positions that are sent. -/
def kept (punctured : List Bool) : List Nat := (List.range N).filter fun i => !punctured.getD i false

theorem scoreLevels_fst (levels : List Nat) : -(levels.length : Int) ≤ (scoreLevels levels).1 := by
  have hcount (s : Int × Int) : (levels.foldl (fun (s : Int × Int) l =>
      if l = U32_MAX then (s.1 + 1,s.2) else (s.1,s.2 + l)) s).1 ≤ s.1 + levels.length := by
    induction levels generalizing s with
    | nil => simp
    | cons l levels ih =>
      rw [List.foldl_cons,List.length_cons]
      have hrest := ih (if l = U32_MAX then (s.1 + 1,s.2) else (s.1,s.2 + l))
      split at hrest
      · simp only at hrest
        push_cast
        rw [if_pos ‹_›]
        omega
      · simp only at hrest
        push_cast
        rw [if_neg ‹_›]
        omega
  have hzero := hcount (0,0)
  rw [scoreLevels]
  simp only at hzero ⊢
  omega

variable {mask : List Bool}

/-- What the scan over the candidates keeps: the mask, and a free candidate once one has come up. -/
structure Scans (mask : List Bool) (m : Nat) (st : Greedy) : Prop where
  mask_eq : st.punctured = mask
  best : (K_INFO ≤ st.bestP ∧ st.bestP < N ∧ mask.getD st.bestP false = false) ∨
    (st.bestScore = (I64_MIN,I64_MIN) ∧ ∀ p, K_INFO ≤ p → p < K_INFO + m → mask.getD p false = true)

theorem Scans.tryCandidate {m : Nat} {st : Greedy} (h : Scans mask m st) (hin : Ldpc240_101Params.InRange)
    (hmask : mask.length = N) (hm : m < N_PARITY) :
    ∃ st', tryCandidate st (K_INFO + m) = some st' ∧ Scans mask (m + 1) st' := by
  have hp : K_INFO + m < mask.length := by
    have hsize : N_PARITY = N - K_INFO := rfl
    omega
  rw [Uvpacket.tryCandidate,h.mask_eq,getElem?_eq_some_getD hp false,Option.bind_some]
  split
  · rename_i htaken
    refine ⟨st,rfl,h.mask_eq,h.best.imp_right fun hnone => ⟨hnone.1,fun p hlo hhi => ?_⟩⟩
    obtain hlt | rfl : p < K_INFO + m ∨ p = K_INFO + m := by omega
    · exact hnone.2 p hlo hlt
    · exact htaken
  · rename_i hfree
    have hfree' : mask.getD (K_INFO + m) false = false := eq_false_of_ne_true hfree
    have hrestore : (mask.set (K_INFO + m) true).set (K_INFO + m) false = mask := by
      rw [List.set_set,← hfree',List.getD_eq_getElem _ _ hp]
      exact List.set_getElem_self hp
    have htrial : (mask.set (K_INFO + m) true).length = N := by rw [List.length_set,hmask]
    obtain ⟨lvls,hlevels,hscanned⟩ := classifyKSR_run hin htrial 12
    have hscore := scoreLevels_fst lvls
    rw [hscanned.length] at hscore
    have hpick : Scans mask (m + 1) ⟨mask,K_INFO + m,scoreLevels lvls⟩ :=
      ⟨rfl,Or.inl ⟨Nat.le_add_right _ _,hmask ▸ hp,hfree'⟩⟩
    simp only [hlevels,Option.map_some,hrestore]
    split
    · exact ⟨_,rfl,hpick⟩
    · rename_i hlow
      refine ⟨_,rfl,rfl,Or.inl (h.best.resolve_right fun hnone => hlow ?_)⟩
      rw [hnone.1,scoreGt,Bool.or_eq_true]
      refine Or.inl (decide_eq_true ?_)
      have hmin : I64_MIN < -((Ldpc240_101Params.N : Nat) : Int) := by decide
      exact lt_of_lt_of_le hmin hscore

/-- A round punctures a free position behind the information bits. -/
theorem greedyRound_run (hin : Ldpc240_101Params.InRange) (hmask : mask.length = N) {p : Nat} (hlo : K_INFO ≤ p)
    (hhi : p < N) (hfree : mask.getD p false = false) :
    ∃ q, K_INFO ≤ q ∧ q < N ∧ mask.getD q false = false ∧ greedyRound mask = some (mask.set q true) := by
  have hscan : ∀ m ≤ N_PARITY, ∃ st, (List.range' K_INFO m).foldlM tryCandidate ⟨mask,K_INFO,(I64_MIN,I64_MIN)⟩ = some st ∧
      Scans mask m st := by
    intro m
    induction m with
    | zero => exact fun _ => ⟨_,rfl,rfl,Or.inr ⟨rfl,fun p hlo hhi => absurd hlo (Nat.not_le.2 hhi)⟩⟩
    | succ m ih =>
      intro hm
      obtain ⟨mid,hrun,hmid⟩ := ih (Nat.le_of_succ_le hm)
      obtain ⟨out,hstep,hout⟩ := hmid.tryCandidate hin hmask hm
      refine ⟨out,?_,hout⟩
      rw [List.range'_concat,List.foldlM_append,hrun,Option.bind_eq_bind,Option.bind_some,List.foldlM_cons,Nat.one_mul,hstep]
      rfl
  obtain ⟨st,hrun,hst⟩ := hscan N_PARITY (Nat.le_refl _)
  have hbest := hst.best.resolve_right fun hnone => by
    have htaken := hnone.2 p hlo hhi
    rw [hfree] at htaken
    cases htaken
  refine ⟨st.bestP,hbest.1,hbest.2.1,hbest.2.2,?_⟩
  rw [greedyRound,hrun,Option.map_some,hst.mask_eq]

/-- Puncturing a position that is kept takes it from the list. -/
theorem kept_set (hmask : mask.length = N) {q : Nat} (hq : q < N) : kept (mask.set q true) = (kept mask).filter (· != q) := by
  rw [kept,kept,List.filter_filter]
  refine List.filter_congr fun i _ => ?_
  rw [getD_set (hmask.symm ▸ hq)]
  by_cases hiq : q = i
  · simp [hiq]
  · simp [hiq,Ne.symm hiq]

/-- The mask after a number of rounds. -/
structure Punctures (t : Nat) (mask : List Bool) : Prop where
  length : mask.length = N
  info : ∀ i < K_INFO, mask.getD i false = false
  count : (kept mask).length + t = N

theorem Punctures.greedyRound {t : Nat} (h : Punctures t mask) (hin : Ldpc240_101Params.InRange) (ht : t < N_PARITY) :
    ∃ mask', greedyRound mask = some mask' ∧ Punctures (t + 1) mask' := by
  obtain ⟨p,hlo,hhi,hfree⟩ : ∃ p, K_INFO ≤ p ∧ p < N ∧ mask.getD p false = false := by
    by_contra hnone
    have hsub : kept mask ⊆ List.range K_INFO := by
      intro i hi
      obtain ⟨hiN,hfree⟩ := List.mem_filter.1 hi
      refine List.mem_range.2 (Nat.lt_of_not_le fun hlo => hnone ⟨i,hlo,List.mem_range.1 hiN,?_⟩)
      simpa using hfree
    have hnodup : (kept mask).Nodup := List.nodup_range.filter _
    have hle := (List.subperm_of_subset hnodup hsub).length_le
    have hcount := h.count
    rw [List.length_range] at hle
    unfold N_PARITY at ht
    omega
  obtain ⟨q,hqlo,hqhi,hqfree,hround⟩ := greedyRound_run hin h.length hlo hhi hfree
  refine ⟨_,hround,(List.length_set).trans h.length,fun i hi => ?_,?_⟩
  · rw [getD_set (h.length.symm ▸ hqhi),if_neg (by omega)]
    exact h.info i hi
  · have hmem : q ∈ kept mask := List.mem_filter.2 ⟨List.mem_range.2 hqhi,by rw [hqfree]; rfl⟩
    have hnodup : (kept mask).Nodup := List.nodup_range.filter _
    have herase := List.length_erase_of_mem hmem
    have hpos := List.length_pos_of_mem hmem
    have hcount := h.count
    rw [kept_set h.length hqhi,← List.Nodup.erase_eq_filter hnodup,herase]
    omega

theorem rounds_run (hin : Ldpc240_101Params.InRange) : ∀ t ≤ N_PARITY, ∃ mask,
    (List.range t).foldlM (fun punctured _ => greedyRound punctured) (List.replicate N false) = some mask ∧
      Punctures t mask := by
  intro t
  induction t with
  | zero =>
    have hfree (i : Nat) : (List.replicate N false).getD i false = false := by
      rw [List.getD_eq_getElem?_getD,List.getElem?_replicate]
      split
      · rfl
      · rfl
    refine fun _ => ⟨_,rfl,List.length_replicate,fun i _ => hfree i,?_⟩
    rw [kept,List.filter_eq_self.2 fun i _ => by rw [hfree]; rfl,List.length_range,Nat.add_zero]
  | succ t ih =>
    intro ht
    obtain ⟨mid,hrun,hmid⟩ := ih (Nat.le_of_succ_le ht)
    obtain ⟨out,hround,hout⟩ := hmid.greedyRound hin ht
    refine ⟨out,?_,hout⟩
    rw [List.range_succ,List.foldlM_append,hrun,Option.bind_eq_bind,Option.bind_some,List.foldlM_cons,hround]
    rfl

end Greedy

/-- A bit has level zero when it is sent, level `k` when it first becomes known in round `k` of peeling, and the mark
when it does not within the rounds. The greedy choice keeps the information bits, and as many positions as it is
asked to, in order. -/
theorem kSR_exact_and_greedy_keeps :
    (∀ P : LdpcParams, P.InRange → P.N < U32_MAX → ∀ punctured : List Bool, punctured.length = P.N → ∀ maxK : UInt32,
      ∃ level, classifyKSR P punctured maxK = some level ∧ level.length = P.N ∧ ∀ v < P.N,
        (level.getD v 0 = 0 ↔ punctured.getD v false = false) ∧
        (∀ k < maxK.toNat, k + 1 < U32_MAX → (level.getD v 0 = k + 1 ↔
          knownAfter P punctured (k + 1) v = true ∧ knownAfter P punctured k v = false)) ∧
        (level.getD v 0 = U32_MAX ↔ knownAfter P punctured maxK.toNat v = false)) ∧
    (∀ codec : LdpcCodec, codec.params.InRange ∧ codec.params.N < U32_MAX) ∧
    (∀ target ≤ N_PARITY, ∃ keep, keepIndicesKSRGreedyWithCount target = some keep ∧ keep.Pairwise (· < ·) ∧
      keep.length = N - target ∧ (∀ i < K_INFO, i ∈ keep) ∧ ∀ i ∈ keep, i < N) ∧
    ∀ target, N_PARITY < target → keepIndicesKSRGreedyWithCount target = none := by
  refine ⟨fun P hP hN punctured hmask maxK => ?_,fun codec => ⟨codec.inRange,?_⟩,fun target htarget => ?_,
    fun target htarget => if_neg (Nat.not_le.2 htarget)⟩
  · obtain ⟨level,hrun,hscanned⟩ := classifyKSR_run hP hmask maxK
    refine ⟨level,hrun,hscanned.length,fun v hv => ?_⟩
    rw [hscanned.levels v hv,if_neg (Nat.not_lt_zero v)]
    refine ⟨?_,fun k hk hmark => ?_,fun hlevel => eq_false_of_ne_true fun hknown => ?_,fun h => ?_⟩
    · rw [levelAfter,peelLevel_eq_iff (Nat.zero_le _) (by decide),FirstRound,peel]
      simp
    · rw [levelAfter,peelLevel_eq_iff hk (Nat.ne_of_lt hmark),firstRound_succ_iff]
      rfl
    · have hround := (peelLevel_spec U32_MAX hknown).2.le_card (s := Finset.range P.N)
        (fun u hu c hc w hw => Finset.mem_range.2
          (mem_membersOf hP (mem_checksOf hP (Finset.mem_range.1 hu) hc) hw)) (Finset.mem_range.2 hv)
      rw [Finset.card_range] at hround
      rw [levelAfter] at hlevel
      omega
    · exact peelLevel_of_not_peel _ h
  · cases codec <;> decide
  · obtain ⟨mask,hrun,hmask⟩ := rounds_run (LdpcCodec.inRange .Ldpc240_101) target htarget
    have hkeep : keepIndicesKSRGreedyWithCount target = some (kept mask) := by
      rw [keepIndicesKSRGreedyWithCount,if_pos htarget,hrun,Option.map_some]
      split
      · rename_i hzero
        have hcount := hmask.count
        have hall : (kept mask).length = (List.range N).length := by
          rw [List.length_range]
          omega
        exact congrArg some ((List.filter_sublist.eq_of_length hall).symm)
      · rfl
    have hcount := hmask.count
    refine ⟨_,hkeep,List.pairwise_lt_range.filter _,by omega,fun i hi => ?_,fun i hi => ?_⟩
    · refine List.mem_filter.2 ⟨List.mem_range.2 (hi.trans (by decide)),?_⟩
      rw [hmask.info i hi]
      rfl
    · exact List.mem_range.1 (List.mem_filter.1 hi).1

theorem greedy_keeps_of_three : ∃ keep, keepIndicesKSRGreedyWithCount 3 = some keep ∧ keep.length = 237 := by
  obtain ⟨keep,hrun,-,hlength,-⟩ := kSR_exact_and_greedy_keeps.2.2.1 3 (by decide)
  exact ⟨keep,hrun,hlength⟩

/-- The rate and symbol-rate postures. -/
inductive Mode where
  | UltraRobust
  | Robust
  | Standard
  | Express
  deriving DecidableEq

namespace Mode

/-- Channel bits of one block. -/
def chBitsPerBlock : Mode → Nat
  | UltraRobust => 240
  | Robust => 240
  | Standard => 202
  | Express => 134

def parityKept (mode : Mode) : Nat := mode.chBitsPerBlock - K_INFO

end Mode

def keepIndicesKSRGreedy (mode : Mode) : Option (List Nat) :=
  keepIndicesKSRGreedyWithCount (N_PARITY - mode.parityKept)

/-- The cache of a mode holds the value of its first call; the two modes that share one keep the same number. -/
def keepIndices (mode : Mode) : Option (List Nat) := keepIndicesKSRGreedy mode

/-- The transmitted positions of a codeword. -/
def puncture (codeword : List UInt8) (mode : Mode) : Option (List UInt8) :=
  if codeword.length = N then (keepIndices mode).bind fun keep => keep.mapM fun i => codeword[i]? else none

/-- The soft values at their positions, and erasures at the others. -/
def dePunctureLlr {F : Type} [F32 F] (channelLlrs : List F) (mode : Mode) : Option (List F) :=
  if channelLlrs.length = mode.chBitsPerBlock then
    (keepIndices mode).bind fun keep =>
      keep.zipIdx.foldlM (fun out jk => (channelLlrs[jk.2]?).bind fun v => checkedSet out jk.1 v) (List.replicate N 0.0)
  else none

section Transmission

/-- The positions that a mode sends, the information among them. -/
structure Keeps (mode : Mode) (keep : List Nat) : Prop where
  ascending : keep.Pairwise (· < ·)
  length : keep.length = mode.chBitsPerBlock
  inRange : ∀ i ∈ keep, i < N
  info : ∀ i < K_INFO, i ∈ keep

theorem keepIndices_keeps (mode : Mode) : ∃ keep, keepIndices mode = some keep ∧ Keeps mode keep := by
  have htarget : N_PARITY - mode.parityKept ≤ N_PARITY := Nat.sub_le _ _
  obtain ⟨mask,hrun,hmask⟩ := rounds_run (LdpcCodec.inRange .Ldpc240_101) _ htarget
  have hcount := hmask.count
  have hfull : N - (N_PARITY - mode.parityKept) = mode.chBitsPerBlock := by cases mode <;> decide
  have hkept : keepIndices mode = some (kept mask) := by
    rw [keepIndices,keepIndicesKSRGreedy,keepIndicesKSRGreedyWithCount,if_pos htarget,hrun,Option.map_some]
    split
    · rename_i hzero
      have hall : (kept mask).length = (List.range N).length := by
        rw [List.length_range]
        omega
      exact congrArg some ((List.filter_sublist.eq_of_length hall).symm)
    · rfl
  refine ⟨kept mask,hkept,List.pairwise_lt_range.filter _,by omega,
    fun i hi => List.mem_range.1 (List.mem_filter.1 hi).1,fun i hi => ?_⟩
  refine List.mem_filter.2 ⟨List.mem_range.2 (hi.trans (by decide)),?_⟩
  rw [hmask.info i hi]
  rfl

variable {mode : Mode} {keep : List Nat}

theorem puncture_eq (hkeep : keepIndices mode = some keep) (h : Keeps mode keep) {cw : List UInt8}
    (hcw : cw.length = N) : puncture cw mode = some (keep.map fun i => cw.getD i 0) := by
  rw [puncture,if_pos hcw,hkeep,Option.bind_some]
  exact mapM_eq_some fun i hi => getElem?_eq_some_getD (hcw ▸ h.inRange i hi) 0

/-- A kept position gets the soft value sent for it, the others are erased. -/
theorem dePunctureLlr_spec {F : Type} [F32 F] (hkeep : keepIndices mode = some keep) (h : Keeps mode keep) {l : List F}
    (hl : l.length = mode.chBitsPerBlock) : ∃ out, dePunctureLlr l mode = some out ∧ out.length = N ∧
      (∀ k < keep.length, out.getD (keep.getD k 0) 0.0 = l.getD k 0.0) ∧
      ∀ j, j ∉ keep → out.getD j 0.0 = 0.0 := by
  have hrun : ∀ n, n ≤ keep.length → ∃ out,
      (keep.zipIdx.take n).foldlM (fun out jk => (l[jk.2]?).bind fun v => checkedSet out jk.1 v) (List.replicate N (0.0 : F)) =
        some out ∧ out.length = N ∧ (∀ k < n, out.getD (keep.getD k 0) 0.0 = l.getD k 0.0) ∧
      ∀ j, j ∉ keep → out.getD j 0.0 = 0.0 := by
    intro n hn
    induction n with
    | zero => exact ⟨_,rfl,List.length_replicate,fun k hk => absurd hk (Nat.not_lt_zero k),fun j _ => by simp⟩
    | succ n ih =>
      obtain ⟨out,hout,hlen,hsent,herased⟩ := ih (Nat.le_of_succ_le hn)
      have hnk : n < keep.length := hn
      have hj : keep[n] < out.length := hlen ▸ h.inRange _ (List.getElem_mem hnk)
      have hnl : n < l.length := by
        rw [hl,← h.length]
        exact hnk
      refine ⟨out.set keep[n] (l.getD n 0.0),?_,by rw [List.length_set,hlen],fun k hk => ?_,fun j hjk => ?_⟩
      · have hnz : n < keep.zipIdx.length := by rwa [List.length_zipIdx]
        have hstep : ((l[n]?).bind fun v => checkedSet out keep[n] v) = some (out.set keep[n] (l.getD n 0.0)) := by
          rw [getElem?_eq_some_getD hnl 0.0,Option.bind_some,checkedSet_eq hj]
        rw [List.take_succ_eq_append_getElem hnz,List.foldlM_append,hout,List.getElem_zipIdx,Nat.zero_add,
          Option.bind_eq_bind,Option.bind_some,List.foldlM_cons]
        dsimp only
        rw [hstep]
        rfl
      · have hkk : k < keep.length := Nat.lt_of_lt_of_le hk hn
        rw [getD_set hj,List.getD_eq_getElem keep 0 hkk]
        rcases Nat.lt_succ_iff_lt_or_eq.1 hk with hlt | rfl
        · have hne : keep[n] ≠ keep[k] := Nat.ne_of_gt (List.pairwise_iff_getElem.1 h.ascending k n hkk hnk hlt)
          rw [if_neg hne,← List.getD_eq_getElem keep 0 hkk]
          exact hsent k hlt
        · rw [if_pos rfl]
      · have hne : keep[n] ≠ j := fun hjn => hjk (hjn ▸ List.getElem_mem hnk)
        rw [getD_set hj,if_neg hne]
        exact herased j hjk
  obtain ⟨out,hout,hlen,hsent,herased⟩ := hrun keep.length (Nat.le_refl _)
  refine ⟨out,?_,hlen,hsent,herased⟩
  rw [List.take_of_length_le (by rw [List.length_zipIdx])] at hout
  rw [dePunctureLlr,if_pos hl,hkeep]
  exact hout

/-- What is heard of a codeword, put back to its positions. -/
theorem dePunctureLlr_punctured {F : Type} [F32 F] (hkeep : keepIndices mode = some keep) (h : Keeps mode keep)
    (cw : List UInt8) (soft : UInt8 → F) :
    ∃ out, dePunctureLlr ((keep.map fun i => cw.getD i 0).map soft) mode = some out ∧ out.length = N ∧
      ∀ i, out.getD i 0.0 = if i ∈ keep then soft (cw.getD i 0) else 0.0 := by
  have hlength : ((keep.map fun i => cw.getD i 0).map soft).length = mode.chBitsPerBlock := by
    rw [List.length_map,List.length_map,h.length]
  obtain ⟨out,hout,hlen,hheard,herased⟩ := dePunctureLlr_spec hkeep h hlength
  refine ⟨out,hout,hlen,fun i => ?_⟩
  split
  · rename_i hi
    obtain ⟨k,hk,rfl⟩ := List.mem_iff_getElem.1 hi
    have hplace := hheard k hk
    rw [List.getD_eq_getElem keep 0 hk] at hplace
    rw [hplace,List.map_map,List.getD_eq_getElem _ _ (by rwa [List.length_map]),List.getElem_map]
    rfl
  · exact herased i ‹_›

/-- Every mode sends the information and as many bits as it has room for. What is heard of them comes back at the
positions of the codeword, the others are erased, and only words of another length panic. -/
theorem puncture_round_trip {F : Type} [F32 F] (mode : Mode) :
    ∃ keep, keepIndices mode = some keep ∧ Keeps mode keep ∧
      (∀ cw, (puncture cw mode).isSome ↔ cw.length = N) ∧
      (∀ l : List F, (dePunctureLlr l mode).isSome ↔ l.length = mode.chBitsPerBlock) ∧
      ∀ cw sent, puncture cw mode = some sent → sent.length = mode.chBitsPerBlock ∧
        ∀ soft : UInt8 → F, ∃ out, dePunctureLlr (sent.map soft) mode = some out ∧ out.length = N ∧
          ∀ i < N, out.getD i 0.0 = if i ∈ keep then soft (cw.getD i 0) else 0.0 := by
  obtain ⟨keep,hkeep,hkeeps⟩ := keepIndices_keeps mode
  have hpanic {α β : Type} {a : List α} {n : Nat} {o : Option β} (h : a.length = n → ∃ out, o = some out)
      (hnot : a.length ≠ n → o = none) : o.isSome ↔ a.length = n := by
    by_cases hlen : a.length = n
    · obtain ⟨out,hout⟩ := h hlen
      exact iff_of_true (hout ▸ rfl) hlen
    · exact iff_of_false (by rw [hnot hlen]; exact Bool.false_ne_true) hlen
  refine ⟨keep,hkeep,hkeeps,fun cw => ?_,fun l => ?_,fun cw sent hsent => ?_⟩
  · exact hpanic (fun h => ⟨_,puncture_eq hkeep hkeeps h⟩) fun h => if_neg h
  · refine hpanic (fun h => ?_) fun h => if_neg h
    obtain ⟨out,hout,-⟩ := dePunctureLlr_spec hkeep hkeeps h
    exact ⟨out,hout⟩
  · have hcw : cw.length = N := by
      by_contra hlen
      rw [puncture,if_neg hlen] at hsent
      cases hsent
    rw [puncture_eq hkeep hkeeps hcw] at hsent
    obtain rfl := Option.some.inj hsent
    refine ⟨List.length_map _ |>.trans hkeeps.length,fun soft => ?_⟩
    obtain ⟨out,hout,hlen,hheard⟩ := dePunctureLlr_punctured hkeep hkeeps cw soft
    exact ⟨out,hout,hlen,fun i _ => hheard i⟩

end Transmission

end MfskCore.Uvpacket
