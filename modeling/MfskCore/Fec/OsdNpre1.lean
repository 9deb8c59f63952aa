import MfskCore.Fec.Crc
import MfskCore.Fec.OsdReference
import MfskCore.Fec.OsdSearch
import MfskCore.Library.RowMajor

/-! The first pruned pass on FT8's own setup (`osd_setup_ldpc174_91`, `osd_npre1_pass`). It scores a candidate by the
rows it flips and the last columns, and this is the distance exactly when the first columns are the basis. -/
namespace MfskCore.Fec
open Rust Library BitRow

/-- The setup that the passes share, bit by bit: the order, the reduced generator, the hard decisions and reliabilities in
the order, and the first candidate. -/
structure OsdBits (F : Type) where
  perm : List Nat
  g : List Bool
  hdecPerm : List Bool
  absrxPerm : List F
  cPerm : List Bool

/-- A candidate and its `dd`. -/
structure Scored (F : Type) where
  cp : List Bool
  dd : F

/-- `state` is empty as long as `dd` is infinite. -/
structure OsdBest (F : Type) where
  state : Option (List UInt8 × List UInt8)
  dd : F

section Model
variable {F : Type} [F32 F] (P : LdpcParams)

/-- Add a row of the generator to a word. -/
def xorRow (g : List Bool) (c : List Bool) (r : Nat) : List Bool :=
  (List.range P.N).map fun col => c.getD col false ^^ g.getD (r * P.N + col) false

/-- The elimination is that of `osd_setup_generic_packed`, on rows of a fixed width. -/
def osdBits (sorter : SortUnstable) (llr : List F) : Option (OsdBits F) :=
  (osdSetupGenericPacked P sorter llr).map fun b =>
    let m0 (r : Nat) : Bool := hard llr (b.perm.getD (b.pivotCol.getD r 0) 0)
    { perm := b.perm
      g := b.g
      hdecPerm := (List.range P.N).map fun col => hard llr (b.perm.getD col 0)
      absrxPerm := (List.range P.N).map fun col => F32.abs (llr.getD (b.perm.getD col 0) 0.0)
      cPerm := (List.range P.K).foldl (fun c r => if m0 r then xorRow P b.g c r else c) (List.replicate P.N false) }

def osdBitsLdpc174_91 (sorter : SortUnstable) (llr : List F) : Option (OsdBits F) :=
  osdBits Ldpc174_91Params sorter llr

def OsdBest.new : OsdBest F := ⟨none,F32.infinity⟩

def OsdBest.maybeUpdate (best : OsdBest F) (decoded cw : List UInt8) (dd : F) : OsdBest F :=
  if dd < best.dd then ⟨some (decoded,cw),dd⟩ else best

namespace OsdBits
variable (s : OsdBits F)

/-- A candidate with its bits put back in their positions. -/
def unpermute (cp : List Bool) : List UInt8 :=
  scatterTo P.N (fun col => s.perm.getD col 0) (fun col => (cp.getD col false).toUInt8) (List.replicate P.N 0)

def tryCandidate (cp : List Bool) : Option (List UInt8 × List UInt8) :=
  let cUnperm := s.unpermute P cp
  if checkCrc14 (cUnperm.take P.K) then some (cUnperm.take P.K,cUnperm) else none

/-- Where a candidate differs from the hard decisions in the columns after the first `K`. -/
def parityErrors (cp : List Bool) (j : Nat) : Bool := cp.getD (P.K + j) false ^^ s.hdecPerm.getD (P.K + j) false

def parityWd (errors : Nat → Bool) : F :=
  (List.range (P.N - P.K)).foldl (fun wd j => if errors j then wd + s.absrxPerm.getD (P.K + j) 0.0 else wd) 0.0

/-- The candidates that the pass scores, in its order. -/
def npre1Scored (ntheta : Nat) : List (Scored F) :=
  ⟨s.cPerm,s.parityWd P (s.parityErrors P s.cPerm)⟩ :: (List.range P.K).reverse.flatMap fun iflag =>
    let ceIflag := xorRow P s.g s.cPerm iflag
    let e2sub := s.parityErrors P ceIflag
    let d1 := s.absrxPerm.getD iflag 0.0
    (if parityErr P e2sub < ntheta then [⟨ceIflag,d1 + s.parityWd P e2sub⟩] else []) ++
      (List.range iflag).reverse.flatMap fun n1 =>
        let e2 (j : Nat) : Bool := e2sub j ^^ s.g.getD (n1 * P.N + (P.K + j)) false
        if parityErr P e2 + 2 > ntheta then []
        else [⟨xorRow P s.g ceIflag n1,d1 + s.absrxPerm.getD n1 0.0 + s.parityWd P e2⟩]

/-- Keep a candidate that is strictly nearer than the best and has a valid check. -/
def offer (best : OsdBest F) (c : Scored F) : OsdBest F :=
  if c.dd < best.dd then
    match s.tryCandidate P c.cp with
    | some (decoded,cw) => best.maybeUpdate decoded cw c.dd
    | none => best
  else best

def osdNpre1Pass (best : OsdBest F) (ntheta : Nat) : OsdBest F := (s.npre1Scored P ntheta).foldl (s.offer P) best

/-- The `dd` of the second pass, over all columns. -/
def npre2Dd (cp : List Bool) : F :=
  (List.range P.N).foldl (fun dd col =>
    if cp.getD col false ≠ s.hdecPerm.getD col false then dd + s.absrxPerm.getD col 0.0 else dd) 0.0

end OsdBits

end Model

section Words
variable {F : Type} [F32 F] {P : LdpcParams} {b : OsdBasis} {llr : List F}

/-- The setup of a basis. -/
def OsdBasis.setup (P : LdpcParams) (b : OsdBasis) (llr : List F) : OsdBits F where
  perm := b.perm
  g := b.g
  hdecPerm := (List.range P.N).map (b.hdecPerm llr)
  absrxPerm := (List.range P.N).map (b.absrxPerm llr)
  cPerm := (List.range P.K).foldl (fun c r => if b.mrb llr r then xorRow P b.g c r else c) (List.replicate P.N false)

theorem osdBits_eq (sorter : SortUnstable) (llr : List F) :
    osdBits P sorter llr = (osdSetupGenericPacked P sorter llr).map fun b => b.setup P llr := rfl

/-- The setup with a byte for each bit, as the source keeps it. -/
def OsdBits.bytes (s : OsdBits F) : OsdSetup F where
  perm := s.perm
  g := s.g.map Bool.toUInt8
  hdecPerm := s.hdecPerm.map Bool.toUInt8
  absrxPerm := s.absrxPerm
  cPerm := s.cPerm.map Bool.toUInt8

/-- Rows added bit by bit are rows added byte by byte. -/
private theorem foldl_xorRow_bytes (g : List Bool) (m0 : Nat → Bool) (l : List Nat) {c : List Bool}
    (hc : c.length = P.N) :
    (l.foldl (fun c r => if m0 r then xorRow P g c r else c) c).map Bool.toUInt8 =
      l.foldl (fun c r => if m0 r then c.mapIdx fun col x => x ^^^ (g.map Bool.toUInt8).getD (r * P.N + col) 0 else c)
        (c.map Bool.toUInt8) := by
  induction l generalizing c with
  | nil => rfl
  | cons r l ih =>
    have hrow : (xorRow P g c r).map Bool.toUInt8 =
        (c.map Bool.toUInt8).mapIdx fun col x => x ^^^ (g.map Bool.toUInt8).getD (r * P.N + col) 0 := by
      refine List.ext_getElem (by simp [xorRow,hc]) fun col h1 h2 => ?_
      have hcol : col < c.length := by simpa using h2
      have hbyte : (g.map Bool.toUInt8).getD (r * P.N + col) 0 = (g.getD (r * P.N + col) false).toUInt8 :=
        List.getD_map g false Bool.toUInt8
      rw [List.getElem_map,List.getElem_mapIdx,List.getElem_map,hbyte,← toUInt8_xor]
      simp [xorRow,List.getElem?_eq_getElem hcol]
    rw [List.foldl_cons,List.foldl_cons]
    by_cases hm : m0 r
    · rw [if_pos hm,if_pos hm,ih (by simp [xorRow]),hrow]
    · rw [if_neg hm,if_neg hm,ih hc]

theorem OsdBasis.bytes_setup (b : OsdBasis) (llr : List F) :
    (b.setup P llr).bytes = osdSetupOf P llr b.perm (b.g.map Bool.toUInt8) b.pivotCol := by
  rw [OsdBasis.setup,OsdBits.bytes,osdSetupOf,OsdSetup.mk.injEq]
  refine ⟨rfl,rfl,List.map_map,rfl,?_⟩
  rw [foldl_xorRow_bytes _ _ _ List.length_replicate,List.map_replicate]
  rfl

theorem osdBits_bytes (sorter : SortUnstable) (llr : List F) :
    (osdBits P sorter llr).map OsdBits.bytes =
      let perm := reliabilityOrder P sorter llr
      let s := eliminate P perm
      if s.pivotCol.length < P.K then none else some (osdSetupOf P llr perm (unpackRows P s.rows) s.pivotCol) := by
  rw [osdBits_eq,Option.map_map,osdSetupGenericPacked]
  dsimp only
  split
  · rfl
  · refine congrArg some ((OsdBasis.bytes_setup _ llr).trans ?_)
    exact congrArg (fun g => osdSetupOf P llr _ g _) List.map_map

/-- Bit by bit, the setup of LDPC(174, 91) is the one on bytes. -/
theorem osdBitsLdpc174_91_bytes (sorter : SortUnstable) (llr : List F) :
    (osdBitsLdpc174_91 sorter llr).map OsdBits.bytes = osdSetupLdpc174_91 sorter llr := by
  rw [osdBitsLdpc174_91,osdBits_bytes,osdSetupLdpc174_91,packedGenerator174_eq]
  rfl

/-- A word with rows added one after another. -/
def flipRows (P : LdpcParams) (g : List Bool) (c : List Bool) (S : List Nat) : List Bool := S.foldl (xorRow P g) c

theorem getD_xorRow (g c : List Bool) (r : Nat) {col : Nat} (hcol : col < P.N) :
    (xorRow P g c r).getD col false = (c.getD col false ^^ g.getD (r * P.N + col) false) := by
  rw [xorRow,getD_map_range _ _ hcol]

theorem gf2_xorRow (b : OsdBasis) (c : List Bool) (r : Nat) {col : Nat} (hcol : col < P.N) :
    gf2 ((xorRow P b.g c r).getD col false) = gf2 (c.getD col false) + b.gMatrix P r col := by
  rw [getD_xorRow b.g c r hcol,gf2_xor,OsdBasis.gMatrix,decide_eq_true hcol,Bool.true_and]

theorem gf2_flipRows (b : OsdBasis) (c : List Bool) (S : List Nat) {col : Nat} (hcol : col < P.N) :
    gf2 ((flipRows P b.g c S).getD col false) = gf2 (c.getD col false) + (S.map fun r => b.gMatrix P r col).sum := by
  induction S generalizing c with
  | nil => simp [flipRows]
  | cons r S ih =>
    have hnext := ih (xorRow P b.g c r)
    rw [gf2_xorRow b c r hcol,add_assoc] at hnext
    rw [List.map_cons,List.sum_cons]
    exact hnext

/-- The first candidate is the combination of the rows with the hard decisions. -/
theorem gf2_cPerm (b : OsdBasis) (llr : List F) {col : Nat} (hcol : col < P.N) :
    gf2 ((b.setup P llr).cPerm.getD col false) = ∑ r ∈ Finset.range P.K, gf2 (b.mrb llr r) * b.gMatrix P r col := by
  unfold OsdBasis.setup
  generalize P.K = k
  induction k with
  | zero => simp
  | succ k ih =>
    rw [List.range_succ,List.foldl_append,List.foldl_cons,List.foldl_nil,Finset.sum_range_succ]
    cases h : b.mrb llr k with
    | false => simpa [h] using ih
    | true =>
      rw [if_pos rfl,gf2_xorRow b _ k hcol,gf2_true,one_mul]
      exact congrArg (· + b.gMatrix P k col) ih

/-- A candidate differs from the hard decision at the pivot of a row exactly when the row is flipped. -/
theorem differs_at_pivot_iff (h : b.Sound P) (llr : List F) {S : List Nat} (hS : S.Nodup) (hbelow : ∀ r ∈ S, r < P.K)
    {t p : Nat} (hp : b.pivotCol[t]? = some p) :
    (flipRows P b.g (b.setup P llr).cPerm S).getD p false ≠ b.hdecPerm llr p ↔ t ∈ S := by
  have hpN : p < P.N := h.echelon.below p (List.mem_of_getElem? hp)
  have hmrb : b.mrb llr t = b.hdecPerm llr p := by
    have hcol : b.pivotCol.getD t 0 = p := by rw [List.getD_eq_getElem?_getD,hp,Option.getD_some]
    rw [OsdBasis.mrb,OsdBasis.hdecPerm,hcol]
  have hflips : (S.map fun r => b.gMatrix P r p).sum = gf2 (decide (t ∈ S)) := by
    rw [List.map_congr_left fun r hr => h.echelon.unit t p hp r (hbelow r hr),← List.sum_toFinset _ hS,
      Finset.sum_ite_eq']
    by_cases ht : t ∈ S
    · simp [ht]
    · simp [ht]
  have hbit := gf2_flipRows b (b.setup P llr).cPerm S hpN
  rw [gf2_cPerm b llr hpN,h.echelon.sum_at_pivot _ hp,hmrb,hflips,← gf2_xor] at hbit
  rw [gf2_injective hbit]
  by_cases ht : t ∈ S
  · simp [ht]
  · simp [ht]

end Words

/-- The column of a position is a combination of the columns of the positions before it. -/
def DependsOnEarlier (P : LdpcParams) (order : List Nat) (c : Nat) : Prop :=
  column P.K P.generatorMatrix (order.getD c 0) ∈
    Submodule.span (ZMod 2) (column P.K P.generatorMatrix '' {j | j ∈ order.take c})

namespace OsdBasis.Sound
variable {P : LdpcParams} {b : OsdBasis}

/-- The pivots are the columns that do not depend on earlier ones. -/
theorem mem_pivotCol_iff (h : b.Sound P) {c : Nat} (hc : c < P.N) : c ∈ b.pivotCol ↔ ¬DependsOnEarlier P b.perm c := by
  have hlt : c < b.perm.length := h.length_perm.symm ▸ hc
  have hsplit : b.perm.take c ++ b.perm.getD c 0 :: b.perm.drop (c + 1) = b.perm := by
    rw [List.getD_eq_getElem _ _ hlt,List.cons_getElem_drop_succ,List.take_append_drop]
  have hnodup : b.perm.Nodup := h.perm.nodup_iff.mpr List.nodup_range
  have hkept := mem_greedyBasis_iff (F := ZMod 2) (column P.K P.generatorMatrix) (hsplit.symm ▸ hnodup)
  rw [hsplit,← h.greedy] at hkept
  refine Iff.trans ⟨fun hmem => List.mem_map_of_mem hmem,fun hmem => ?_⟩ hkept
  obtain ⟨p,hp,heq⟩ := List.mem_map.mp hmem
  exact h.injective p (h.echelon.below p hp) c hc heq ▸ hp

/-- A relation among the columns of the code is one among the columns of the reduced rows. -/
theorem column_mem_span (h : b.Sound P) {c : Nat} (hc : c < P.N) {s : Set Nat} (hs : ∀ d ∈ s, d < P.N) :
    column P.K (b.gMatrix P) c ∈ Submodule.span (ZMod 2) (column P.K (b.gMatrix P) '' s) ↔
      column P.K P.generatorMatrix (b.perm.getD c 0) ∈
        Submodule.span (ZMod 2) (column P.K P.generatorMatrix '' ((fun d => b.perm.getD d 0) '' s)) := by
  have hcolumn (d : Nat) (hd : d < P.N) :
      column P.K (P.permutedMatrix b.perm) d = column P.K P.generatorMatrix (b.perm.getD d 0) := by
    funext r
    rw [column,LdpcParams.permutedMatrix,if_pos hd,column]
  have himage : column P.K (P.permutedMatrix b.perm) '' s =
      column P.K P.generatorMatrix '' ((fun d => b.perm.getD d 0) '' s) := by
    rw [Set.image_image]
    exact Set.image_congr fun d hd => hcolumn d (hs d hd)
  rw [← himage,← hcolumn c hc]
  exact ⟨column_mem_span_of_rowSpace_le h.space.ge,column_mem_span_of_rowSpace_le h.space.le⟩

theorem mem_take_perm (h : b.Sound P) {d : Nat} (hd : d ≤ P.N) :
    {j | j ∈ b.perm.take d} = (fun c => b.perm.getD c 0) '' Set.Iio d := by
  have hgetD {c : Nat} (hc : c < d) : b.perm.getD c 0 = b.perm.get ⟨c,h.length_perm.symm ▸ Nat.lt_of_lt_of_le hc hd⟩ :=
    List.getD_eq_getElem _ _ _
  ext j
  refine List.mem_take_iff_getElem.trans ⟨?_,?_⟩
  · rintro ⟨c,hc,rfl⟩
    have hcd : c < d := Nat.lt_of_lt_of_le hc (min_le_left _ _)
    exact ⟨c,hcd,hgetD hcd⟩
  · rintro ⟨c,hc,rfl⟩
    exact ⟨c,lt_min hc (h.length_perm.symm ▸ Nat.lt_of_lt_of_le hc hd),(hgetD hc).symm⟩

/-- The first column without a pivot has a one in the row of some earlier pivot, unless it is zero. -/
theorem exists_row (h : b.Sound P) {d : Nat} (hd : d < P.N) (hall : ∀ c < d, c ∈ b.pivotCol) (hdep : d ∉ b.pivotCol)
    (hne : column P.K P.generatorMatrix (b.perm.getD d 0) ≠ 0) : ∃ r < d, b.gMatrix P r d = 1 := by
  have hearlier : column P.K (b.gMatrix P) d ∈ Submodule.span (ZMod 2) (column P.K (b.gMatrix P) '' Set.Iio d) := by
    refine (h.column_mem_span (s := Set.Iio d) hd fun c hc => lt_trans hc hd).mpr ?_
    rw [← h.mem_take_perm hd.le]
    exact not_not.mp (mt (h.mem_pivotCol_iff hd).mpr hdep)
  have hzero (r : Fin P.K) (hr : d ≤ r) : b.gMatrix P r d = 0 := by
    let entry : (Fin P.K → ZMod 2) →ₗ[ZMod 2] ZMod 2 := LinearMap.proj r
    have hker : Submodule.span (ZMod 2) (column P.K (b.gMatrix P) '' Set.Iio d) ≤ LinearMap.ker entry := by
      refine Submodule.span_le.mpr ?_
      rintro _ ⟨c,hc,rfl⟩
      exact (h.echelon.unit c c (h.echelon.diagonal hall c hc) r r.isLt).trans (if_neg (lt_of_lt_of_le hc hr).ne')
    exact hker hearlier
  by_contra hnone
  have hcolumn : column P.K (b.gMatrix P) d = 0 := by
    funext r
    by_cases hr : r.val < d
    · refine (Fin.exists_fin_two.mp ⟨b.gMatrix P r d,rfl⟩).elim id fun hone => ?_
      exact absurd ⟨r.val,hr,hone⟩ hnone
    · exact hzero r (Nat.not_lt.mp hr)
  have hspan := (h.column_mem_span (c := d) (s := ∅) hd (by simp)).mp (by rw [hcolumn]; exact Submodule.zero_mem _)
  rw [Set.image_empty,Set.image_empty,Submodule.span_empty,Submodule.mem_bot] at hspan
  exact hne hspan

end OsdBasis.Sound

section Exact
variable {K : Type} [Field K] [LinearOrder K] (tanh atanh : K → K) (infinity : K) (toI32 : K → Int) {P : LdpcParams}
  {b : OsdBasis} (llr : List K)

/-- The reliability of a column. -/
def OsdBasis.reliability (b : OsdBasis) (llr : List K) (c : Nat) : K := |llr.getD (b.perm.getD c 0) 0|

theorem getD_absrxPerm {c : Nat} (hc : c < P.N) (d : K) :
    letI := fieldF32 K tanh atanh infinity toI32
    (b.setup P llr).absrxPerm.getD c d = b.reliability llr c := by
  let _ := fieldF32 K tanh atanh infinity toI32
  exact (getD_map_range _ d hc).trans (absrxPerm_eq tanh atanh infinity toI32 b llr c)

/-- Whether a word differs from the hard decision in a column. -/
def OsdBasis.differs {F : Type} [F32 F] (b : OsdBasis) (llr : List F) (cp : List Bool) (c : Nat) : Bool :=
  cp.getD c false ^^ b.hdecPerm llr c

theorem parityErrors_setup {F : Type} [F32 F] (llr : List F) (cp : List Bool) {j : Nat} (hj : P.K + j < P.N) :
    (b.setup P llr).parityErrors P cp j = b.differs llr cp (P.K + j) := by
  rw [OsdBits.parityErrors,OsdBasis.differs]
  exact congrArg (cp.getD (P.K + j) false ^^ ·) (getD_map_range _ _ hj)

theorem parityWd_eq (errors : Nat → Bool) :
    letI := fieldF32 K tanh atanh infinity toI32
    (b.setup P llr).parityWd P errors =
      ∑ j ∈ Finset.range (P.N - P.K), if errors j then b.reliability llr (P.K + j) else 0 := by
  let _ := fieldF32 K tanh atanh infinity toI32
  have hfold : (b.setup P llr).parityWd P errors = (List.range (P.N - P.K)).foldl
      (fun wd j => if errors j = true then wd + (b.setup P llr).absrxPerm.getD (P.K + j) 0 else wd) 0 := by
    show (List.range (P.N - P.K)).foldl _ (0.0 : K) = _
    rw [zero_literal]
  rw [hfold,foldl_add_if_range,zero_add]
  refine Finset.sum_congr rfl fun j hj => ?_
  have hlt : P.K + j < P.N := by
    have := Finset.mem_range.mp hj
    omega
  rw [getD_absrxPerm tanh atanh infinity toI32 llr hlt]

/-- The distance of a candidate, column by column. -/
theorem distance_unpermute (h : b.Sound P) (cp : List Bool) :
    letI := fieldF32 K tanh atanh infinity toI32
    distance P.N llr ((b.setup P llr).unpermute P cp) =
      ∑ c ∈ Finset.range P.N, if b.differs llr cp c then b.reliability llr c else 0 := by
  let _ := fieldF32 K tanh atanh infinity toI32
  have hcell (c : Nat) (hc : c < P.N) :
      ((b.setup P llr).unpermute P cp).getD (b.perm.getD c 0) 0 = (cp.getD c false).toUInt8 := by
    have hget := getElem?_scatterTo (fun col => b.perm.getD col 0) (fun col => (cp.getD col false).toUInt8)
      (List.replicate P.N (0 : UInt8)) h.injective hc (by simpa using h.getD_lt hc)
    rw [List.getD_eq_getElem?_getD]
    exact congrArg (Option.getD · 0) hget
  rw [← weightedDistance_eq_distance tanh atanh infinity toI32 h llr hcell,
    weightedDistance_eq_sum tanh atanh infinity toI32]
  refine Finset.sum_congr rfl fun c _ => ?_
  rw [absrxPerm_eq tanh atanh infinity toI32,OsdBasis.differs]
  exact if_congr bne_iff_ne.symm rfl rfl

/-- The candidate with the given rows flipped. -/
def OsdBasis.candidate {F : Type} [F32 F] (P : LdpcParams) (b : OsdBasis) (llr : List F) (S : List Nat) : List Bool :=
  flipRows P b.g (b.setup P llr).cPerm S

/-- A score adds the reliabilities of the flipped rows' numbers to the last columns. It is the distance exactly when they
stand for the first columns. -/
theorem dd_eq_distance_iff (h : b.Sound P) (hK : P.K ≤ P.N) (S : List Nat) :
    letI := fieldF32 K tanh atanh infinity toI32
    (S.map (b.reliability llr)).sum +
        (b.setup P llr).parityWd P ((b.setup P llr).parityErrors P (b.candidate P llr S)) =
      distance P.N llr ((b.setup P llr).unpermute P (b.candidate P llr S)) ↔
    (S.map (b.reliability llr)).sum =
      ∑ c ∈ Finset.range P.K, if b.differs llr (b.candidate P llr S) c then b.reliability llr c else 0 := by
  let _ := fieldF32 K tanh atanh infinity toI32
  have hlast : (b.setup P llr).parityWd P ((b.setup P llr).parityErrors P (b.candidate P llr S)) =
      ∑ j ∈ Finset.range (P.N - P.K),
        if b.differs llr (b.candidate P llr S) (P.K + j) then b.reliability llr (P.K + j) else 0 := by
    rw [parityWd_eq tanh atanh infinity toI32]
    refine Finset.sum_congr rfl fun j hj => ?_
    have hlt : P.K + j < P.N := by
      have := Finset.mem_range.mp hj
      omega
    rw [parityErrors_setup llr _ hlt]
  have hsplit := Finset.sum_range_add
    (fun c => if b.differs llr (b.candidate P llr S) c then b.reliability llr c else 0) P.K (P.N - P.K)
  rw [Nat.add_sub_cancel' hK] at hsplit
  rw [distance_unpermute tanh atanh infinity toI32 llr h,hsplit,hlast,add_left_inj]

theorem parityWd_congr {F : Type} [F32 F] (s : OsdBits F) {e e' : Nat → Bool} (he : ∀ j < P.N - P.K, e j = e' j) :
    s.parityWd P e = s.parityWd P e' := by
  rw [OsdBits.parityWd,OsdBits.parityWd]
  refine List.foldl_ext _ _ _ fun wd j hj => ?_
  rw [he j (List.mem_range.mp hj)]

/-- The errors of a pair come from those of its first row. -/
theorem parityErrors_pair {F : Type} [F32 F] (llr : List F) (cp : List Bool) (r : Nat) {j : Nat} (hj : P.K + j < P.N) :
    ((b.setup P llr).parityErrors P cp j ^^ b.g.getD (r * P.N + (P.K + j)) false) =
      (b.setup P llr).parityErrors P (xorRow P b.g cp r) j := by
  rw [OsdBits.parityErrors,OsdBits.parityErrors,getD_xorRow b.g cp r hj,Bool.xor_right_comm]

/-- Every scored candidate has some rows flipped, and the score adds the reliabilities of their numbers. -/
theorem mem_npre1Scored (hK : P.K ≤ P.N) {ntheta : Nat} :
    letI := fieldF32 K tanh atanh infinity toI32
    ∀ c ∈ (b.setup P llr).npre1Scored P ntheta, ∃ S : List Nat, S.Nodup ∧ (∀ r ∈ S, r < P.K) ∧
      c.cp = b.candidate P llr S ∧ c.dd = (S.map (b.reliability llr)).sum +
        (b.setup P llr).parityWd P ((b.setup P llr).parityErrors P (b.candidate P llr S)) := by
  let _ := fieldF32 K tanh atanh infinity toI32
  intro c hc
  have hrel {r : Nat} (hr : r < P.K) : (b.setup P llr).absrxPerm.getD r (0.0 : K) = b.reliability llr r :=
    getD_absrxPerm tanh atanh infinity toI32 llr (hr.trans_le hK) _
  simp only [OsdBits.npre1Scored,List.mem_cons,List.mem_flatMap,List.mem_reverse,List.mem_range,List.mem_append] at hc
  rcases hc with rfl | ⟨iflag,hi,hone | ⟨n1,hn1,htwo⟩⟩
  · exact ⟨[],List.nodup_nil,by simp,rfl,(zero_add _).symm⟩
  · obtain rfl := List.mem_singleton.mp (List.mem_ite_nil_right.mp hone).2
    refine ⟨[iflag],List.nodup_singleton _,by simpa using hi,rfl,?_⟩
    simp only [hrel hi,List.map_singleton,List.sum_singleton]
    rfl
  · obtain rfl := List.mem_singleton.mp (List.mem_ite_nil_left.mp htwo).2
    have hn : n1 < P.K := hn1.trans hi
    refine ⟨[iflag,n1],by simpa using hn1.ne',by simp [hi,hn],rfl,?_⟩
    simp only [hrel hi,hrel hn,List.map_cons,List.map_nil,List.sum_cons,List.sum_nil,add_zero]
    refine congrArg (_ + ·) (parityWd_congr _ fun j hj => ?_)
    exact parityErrors_pair llr _ n1 (by omega)

theorem mem_npre1Scored_zero {F : Type} [F32 F] (s : OsdBits F) (ntheta : Nat) :
    ⟨s.cPerm,s.parityWd P (s.parityErrors P s.cPerm)⟩ ∈ s.npre1Scored P ntheta := List.mem_cons_self

/-- Past the window of the gate, every single flip is scored. -/
theorem mem_npre1Scored_one {F : Type} [F32 F] (s : OsdBits F) {r : Nat} (hr : r < P.K) :
    (⟨xorRow P s.g s.cPerm r,
      s.absrxPerm.getD r 0.0 + s.parityWd P (s.parityErrors P (xorRow P s.g s.cPerm r))⟩ : Scored F) ∈
      s.npre1Scored P (NPRE1_PARITY_WINDOW + 1) := by
  have hgate : parityErr P (s.parityErrors P (xorRow P s.g s.cPerm r)) < NPRE1_PARITY_WINDOW + 1 := by
    have hcount := List.countP_le_length (p := s.parityErrors P (xorRow P s.g s.cPerm r))
      (l := List.range (min NPRE1_PARITY_WINDOW (P.N - P.K)))
    rw [List.length_range] at hcount
    exact Nat.lt_succ_of_le (hcount.trans (min_le_left _ _))
  refine List.mem_cons_of_mem _ (List.mem_flatMap.mpr ⟨r,by simpa using hr,List.mem_append_left _ ?_⟩)
  exact List.mem_ite_nil_right.mpr ⟨hgate,List.mem_singleton_self _⟩

section Ordered
variable [IsStrictOrderedRing K]

theorem reliability_nonneg (b : OsdBasis) (llr : List K) (c : Nat) : 0 ≤ b.reliability llr c := abs_nonneg _

variable {llr} (hsorted : ∀ c d, c ≤ d → d < P.N → b.reliability llr d ≤ b.reliability llr c)
include hsorted

/-- When the dependent columns weigh nothing, the first columns weigh what the flipped rows do. -/
theorem sum_of_independent (h : b.Sound P) (hK : P.K ≤ P.N)
    (hcond : ∀ c < P.K, DependsOnEarlier P b.perm c → b.reliability llr c = 0) {S : List Nat} (hS : S.Nodup)
    (hbelow : ∀ r ∈ S, r < P.K) :
    letI := fieldF32 K tanh atanh infinity toI32
    (S.map (b.reliability llr)).sum =
      ∑ c ∈ Finset.range P.K, if b.differs llr (b.candidate P llr S) c then b.reliability llr c else 0 := by
  let _ := fieldF32 K tanh atanh infinity toI32
  have hterm (c : Nat) (hc : c < P.K) : (if b.differs llr (b.candidate P llr S) c then b.reliability llr c else 0) =
      if c ∈ S then b.reliability llr c else 0 := by
    by_cases hzero : b.reliability llr c = 0
    · rw [hzero,ite_self,ite_self]
    · -- Every column up to this one has a pivot, so that its pivot is in the row of its number.
      have hall : ∀ d < c + 1, d ∈ b.pivotCol := by
        intro d hd
        have hdc : d ≤ c := Nat.lt_succ_iff.mp hd
        refine (h.mem_pivotCol_iff ((hdc.trans_lt hc).trans_le hK)).mpr fun hdep => hzero ?_
        have hle := hsorted d c hdc (hc.trans_le hK)
        rw [hcond d (hdc.trans_lt hc) hdep] at hle
        exact le_antisymm hle (reliability_nonneg b llr c)
      have hpivot := h.echelon.diagonal hall c (Nat.lt_succ_self c)
      have hdiffers := differs_at_pivot_iff h llr hS hbelow hpivot
      exact if_congr (bne_iff_ne.trans hdiffers) rfl rfl
  have hfilter : (Finset.range P.K).filter (· ∈ S) = S.toFinset := by
    ext c
    rw [Finset.mem_filter,Finset.mem_range,List.mem_toFinset]
    exact ⟨fun hc => hc.2,fun hc => ⟨hbelow c hc,hc⟩⟩
  rw [Finset.sum_congr rfl fun c hc => hterm c (Finset.mem_range.mp hc),← Finset.sum_filter,hfilter,
    List.sum_toFinset _ hS]

/-- If no flip and the single flips weigh what the first columns do, the dependent columns weigh nothing. -/
theorem independent_of_sums (h : b.Sound P) (hK : P.K ≤ P.N)
    (hcolumns : ∀ j < P.N, column P.K P.generatorMatrix j ≠ 0)
    (hsums : letI := fieldF32 K tanh atanh infinity toI32
      ∀ S : List Nat, S = [] ∨ (∃ r < P.K, S = [r]) → (S.map (b.reliability llr)).sum =
        ∑ c ∈ Finset.range P.K, if b.differs llr (b.candidate P llr S) c then b.reliability llr c else 0) :
    ∀ c < P.K, DependsOnEarlier P b.perm c → b.reliability llr c = 0 := by
  let _ := fieldF32 K tanh atanh infinity toI32
  intro c hc hdep
  by_contra hne
  have hcN : c < P.N := hc.trans_le hK
  have hexists : ∃ d, d ∉ b.pivotCol := ⟨c,fun hmem => (h.mem_pivotCol_iff hcN).mp hmem hdep⟩
  classical
  obtain ⟨d,hd,hall⟩ : ∃ d, d ∉ b.pivotCol ∧ ∀ e < d, e ∈ b.pivotCol :=
    ⟨Nat.find hexists,Nat.find_spec hexists,fun e he => not_not.mp (Nat.find_min hexists he)⟩
  have hdc : d ≤ c := by
    by_contra hlt
    exact (h.mem_pivotCol_iff hcN).mp (hall c (Nat.not_le.mp hlt)) hdep
  have hdK : d < P.K := hdc.trans_lt hc
  have hdN : d < P.N := hdK.trans_le hK
  have hpositive : 0 < b.reliability llr d :=
    (lt_of_le_of_ne (reliability_nonneg b llr c) (Ne.symm hne)).trans_le (hsorted d c hdc hcN)
  have hnonneg (S : List Nat) (e : Nat) :
      0 ≤ if b.differs llr (b.candidate P llr S) e then b.reliability llr e else 0 := by
    split
    · exact reliability_nonneg b llr e
    · exact le_refl 0
  -- The first candidate agrees with the hard decision in the dependent column.
  have hagrees : b.differs llr (b.candidate P llr []) d = false := by
    have hzero := (Finset.sum_eq_zero_iff_of_nonneg fun e _ => hnonneg [] e).mp (hsums [] (.inl rfl)).symm d
      (Finset.mem_range.mpr hdK)
    by_contra htrue
    rw [Bool.not_eq_false] at htrue
    rw [if_pos htrue] at hzero
    exact hpositive.ne' hzero
  obtain ⟨r,hrd,hrow⟩ := h.exists_row hdN hall hd (hcolumns _ (h.getD_lt hdN))
  have hrK : r < P.K := hrd.trans hdK
  -- Flipping a row with a one there makes it differ, beside the column of the row.
  have hdiffers : b.differs llr (b.candidate P llr [r]) d = true := by
    have hbit := gf2_xorRow b (b.candidate P llr []) r hdN
    refine gf2_injective (Eq.trans ?_ gf2_true.symm)
    show gf2 ((xorRow P b.g (b.candidate P llr []) r).getD d false ^^ b.hdecPerm llr d) = 1
    rw [gf2_xor,hbit,hrow,add_right_comm,← gf2_xor]
    show gf2 (b.differs llr (b.candidate P llr []) d) + 1 = 1
    rw [hagrees,gf2_false,zero_add]
  have hpivot : b.differs llr (b.candidate P llr [r]) r = true := by
    refine bne_iff_ne.mpr ((differs_at_pivot_iff h llr (List.nodup_singleton r) ?_ (h.echelon.diagonal hall r hrd)).mpr
      (List.mem_singleton_self r))
    simpa using hrK
  have hsum := hsums [r] (.inr ⟨r,hrK,rfl⟩)
  have hpair : ({r,d} : Finset Nat) ⊆ Finset.range P.K := by
    intro e he
    rcases Finset.mem_insert.mp he with rfl | he
    · exact Finset.mem_range.mpr hrK
    · exact Finset.mem_range.mpr (Finset.mem_singleton.mp he ▸ hdK)
  have hle := Finset.sum_le_sum_of_subset_of_nonneg hpair fun e _ _ => hnonneg [r] e
  rw [← hsum,Finset.sum_pair hrd.ne,if_pos hpivot,if_pos hdiffers,List.map_singleton,List.sum_singleton] at hle
  exact absurd hle (not_le.mpr (lt_add_of_pos_right _ hpositive))

end Ordered

section Setup

theorem npre2Dd_eq (h : b.Sound P) (cp : List Bool) :
    letI := fieldF32 K tanh atanh infinity toI32
    (b.setup P llr).npre2Dd P cp = distance P.N llr ((b.setup P llr).unpermute P cp) := by
  let _ := fieldF32 K tanh atanh infinity toI32
  rw [distance_unpermute tanh atanh infinity toI32 llr h]
  have hcolumns : (b.setup P llr).npre2Dd P cp = b.weightedDistance P llr fun c => cp.getD c false := by
    rw [OsdBits.npre2Dd,OsdBasis.weightedDistance]
    refine List.foldl_ext _ _ _ fun wd c hc => ?_
    have hlt : c < P.N := List.mem_range.mp hc
    rw [getD_absrxPerm tanh atanh infinity toI32 llr hlt,absrxPerm_eq tanh atanh infinity toI32,
      show (b.setup P llr).hdecPerm.getD c false = b.hdecPerm llr c from getD_map_range _ _ hlt]
    rfl
  rw [hcolumns,weightedDistance_eq_sum tanh atanh infinity toI32]
  refine Finset.sum_congr rfl fun c _ => ?_
  rw [absrxPerm_eq tanh atanh infinity toI32,OsdBasis.differs]
  exact if_congr bne_iff_ne.symm rfl rfl

variable [IsStrictOrderedRing K]

/-- The scores of a setup are the distances exactly when its dependent columns weigh nothing. -/
theorem scores_iff (h : b.Sound P) (hK : P.K ≤ P.N) (hcolumns : ∀ j < P.N, column P.K P.generatorMatrix j ≠ 0)
    (hsorted : ∀ c d, c ≤ d → d < P.N → b.reliability llr d ≤ b.reliability llr c) :
    letI := fieldF32 K tanh atanh infinity toI32
    (∀ ntheta, ∀ c ∈ (b.setup P llr).npre1Scored P ntheta,
      c.dd = distance P.N llr ((b.setup P llr).unpermute P c.cp)) ↔
    ∀ c < P.K, DependsOnEarlier P b.perm c → b.reliability llr c = 0 := by
  let _ := fieldF32 K tanh atanh infinity toI32
  constructor
  · intro hscores
    refine independent_of_sums tanh atanh infinity toI32 hsorted h hK hcolumns fun S hS => ?_
    refine (dd_eq_distance_iff tanh atanh infinity toI32 llr h hK S).mp ?_
    rcases hS with rfl | ⟨r,hr,rfl⟩
    · have hzero := hscores 0 _ (mem_npre1Scored_zero (b.setup P llr) 0)
      exact (zero_add _).trans hzero
    · have hone := hscores _ _ (mem_npre1Scored_one (b.setup P llr) hr)
      simp only [getD_absrxPerm tanh atanh infinity toI32 llr (hr.trans_le hK)] at hone
      rw [List.map_singleton,List.sum_singleton]
      exact hone
  · intro hcond ntheta c hc
    obtain ⟨S,hS,hbelow,hcp,hdd⟩ := mem_npre1Scored tanh atanh infinity toI32 llr hK c hc
    rw [hdd,hcp]
    exact (dd_eq_distance_iff tanh atanh infinity toI32 llr h hK S).mpr
      (sum_of_independent tanh atanh infinity toI32 hsorted h hK hcond hS hbelow)

end Setup

end Exact

theorem column_of_lt {P : LdpcParams} {i : Nat} (hi : i < P.K) :
    column P.K P.generatorMatrix i = fun r => if r.val = i then 1 else 0 := by
  funext r
  rw [column,LdpcParams.generatorMatrix,LdpcParams.generator,if_pos hi,gf2]
  simp only [decide_eq_true_eq]

/-- No column of FT8's generator is zero. -/
theorem generator_column_ne_zero {j : Nat} (hj : j < Ldpc174_91Params.N) :
    column Ldpc174_91Params.K Ldpc174_91Params.generatorMatrix j ≠ 0 := by
  have hentry : ∃ r < Ldpc174_91Params.K, Ldpc174_91Params.generator r j = true := by
    revert j
    decide +kernel
  obtain ⟨r,hr,hone⟩ := hentry
  intro hzero
  have hentry : gf2 (Ldpc174_91Params.generator r j) = 0 := congrFun hzero ⟨r,hr⟩
  rw [hone] at hentry
  exact absurd hentry (by decide)

/-- Every score of the first pass is the distance that the second pass computes, whatever the gate, exactly when those of
the 91 most reliable positions that depend on more reliable ones have no reliability at all. -/
theorem npre1_scores_iff (K : Type) [Field K] [LinearOrder K] [IsStrictOrderedRing K] (tanh atanh : K → K) (infinity : K)
    (toI32 : K → Int) (sorter : SortUnstable) (llr : List K) :
    letI := fieldF32 K tanh atanh infinity toI32
    let P := Ldpc174_91Params
    let order := reliabilityOrder P sorter llr
    ∀ s, osdBitsLdpc174_91 sorter llr = some s →
      (∀ cp, s.npre2Dd P cp = distance P.N llr (s.unpermute P cp)) ∧
      ((∀ ntheta, ∀ c ∈ s.npre1Scored P ntheta, c.dd = distance P.N llr (s.unpermute P c.cp)) ↔
        ∀ col < P.K, DependsOnEarlier P order col → |llr.getD (order.getD col 0) 0| = 0) := by
  let _ := fieldF32 K tanh atanh infinity toI32
  intro P order s hs
  obtain ⟨b,hb,hsound,hperm⟩ := osdSetup_sound P sorter llr rfl
  obtain rfl : b.setup P llr = s := by
    rw [osdBitsLdpc174_91,osdBits_eq,hb] at hs
    exact Option.some.inj hs
  refine ⟨npre2Dd_eq tanh atanh infinity toI32 llr hsound,?_⟩
  have hpairwise := abs_pairwise_reliabilityOrder tanh atanh infinity toI32 P sorter llr
  have hsorted : ∀ c d, c ≤ d → d < P.N → b.reliability llr d ≤ b.reliability llr c := by
    intro c d hcd hd
    rcases Nat.eq_or_lt_of_le hcd with rfl | hlt
    · exact le_refl _
    · have hdl : d < b.perm.length := hsound.length_perm.symm ▸ hd
      have hle := List.pairwise_iff_getElem.mp (hperm ▸ hpairwise) c d (hlt.trans hdl) hdl hlt
      rwa [OsdBasis.reliability,OsdBasis.reliability,List.getD_eq_getElem _ _ (hlt.trans hdl),
        List.getD_eq_getElem b.perm _ hdl]
  rw [← show b.perm = order from hperm]
  exact scores_iff tanh atanh infinity toI32 llr hsound (by decide) (fun j hj => generator_column_ne_zero hj) hsorted

/-- With the same reliability everywhere, the information positions come first. -/
theorem npre1_scores_information : letI := fieldF32 Rat id id 0 Rat.floor
    let P := Ldpc174_91Params
    let llr : List Rat := List.replicate 174 (-1)
    ∃ s, osdBitsLdpc174_91 insertionSort llr = some s ∧
      ∀ c ∈ s.npre1Scored P 10, c.dd = distance P.N llr (s.unpermute P c.cp) := by
  let _ := fieldF32 Rat id id 0 Rat.floor
  intro P llr
  obtain ⟨b,hb,-⟩ := osdSetup_sound P insertionSort llr rfl
  have hsetup : osdBitsLdpc174_91 insertionSort llr = some (b.setup P llr) := by
    rw [osdBitsLdpc174_91,osdBits_eq,hb]
    rfl
  have horder : reliabilityOrder P insertionSort llr = List.range 174 := by decide +kernel
  refine ⟨_,hsetup,(npre1_scores_iff Rat id id 0 Rat.floor insertionSort llr _ hsetup).2.mpr (fun col hcol hdep => ?_) 10⟩
  have hcol174 : col < 174 := lt_trans hcol (by decide)
  rw [DependsOnEarlier,show reliabilityOrder P insertionSort llr = List.range 174 from horder,List.take_range,
    List.getD_eq_getElem _ _ (by simpa using hcol174),List.getElem_range] at hdep
  let entry : (Fin P.K → ZMod 2) →ₗ[ZMod 2] ZMod 2 := LinearMap.proj ⟨col,hcol⟩
  have hker : Submodule.span (ZMod 2) (column P.K P.generatorMatrix '' {j | j ∈ List.range (min col 174)}) ≤
      LinearMap.ker entry := by
    refine Submodule.span_le.mpr ?_
    rintro _ ⟨j,hj,rfl⟩
    have hlt : j < col := (List.mem_range.mp hj).trans_le (min_le_left _ _)
    rw [column_of_lt (hlt.trans hcol)]
    exact if_neg hlt.ne'
  have hzero : column P.K P.generatorMatrix col ⟨col,hcol⟩ = 0 := hker hdep
  rw [column_of_lt hcol] at hzero
  simp only [if_true,one_ne_zero] at hzero

section Dependent

/-- The positions 0 to 89 and then 91 are the most reliable, and the parity bit in 91 does not involve the bit in 90. All
hard decisions are zero, that of 91 excepted. -/
def dependentLlr : List Rat := List.replicate 90 (-3) ++ [-1,2] ++ List.replicate 82 (-1)

private theorem order_dependentLlr : letI := fieldF32 Rat id id 0 Rat.floor
    (reliabilityOrder Ldpc174_91Params insertionSort dependentLlr).take 91 = List.range 90 ++ [91] := by
  decide +kernel

private theorem getD_order_dependentLlr : letI := fieldF32 Rat id id 0 Rat.floor
    (reliabilityOrder Ldpc174_91Params insertionSort dependentLlr).getD 90 0 = 91 := by
  have h := congrArg (fun l => l.getD 90 0) order_dependentLlr
  simp only [List.getD_eq_getElem?_getD,List.getElem?_take] at h ⊢
  exact h

/-- The parity bit in 91 is a sum of bits before the one in 90. -/
private theorem depends_dependentLlr : letI := fieldF32 Rat id id 0 Rat.floor
    DependsOnEarlier Ldpc174_91Params (reliabilityOrder Ldpc174_91Params insertionSort dependentLlr) 90 := by
  let _ := fieldF32 Rat id id 0 Rat.floor
  let P := Ldpc174_91Params
  have htake : (reliabilityOrder P insertionSort dependentLlr).take 90 = List.range 90 := by
    have h := congrArg (List.take 90) order_dependentLlr
    rwa [List.take_take] at h
  rw [DependsOnEarlier,htake,getD_order_dependentLlr,pi_eq_sum_univ (column P.K P.generatorMatrix 91)]
  refine Submodule.sum_mem _ fun i _ => ?_
  by_cases hi : i.val < 90
  · refine Submodule.smul_mem _ _ (Submodule.subset_span ⟨i.val,List.mem_range.mpr hi,?_⟩)
    rw [column_of_lt i.isLt]
    simp only [Fin.ext_iff,eq_comm]
  · have hlt : i.val < 91 := i.isLt
    have hi90 : i = ⟨90,by decide⟩ := Fin.ext (show i.val = 90 by omega)
    have hzero : column P.K P.generatorMatrix 91 ⟨90,by decide⟩ = 0 := by decide
    rw [hi90,hzero,zero_smul]
    exact Submodule.zero_mem _

/-- The first candidate differs from the hard decisions in position 91 alone, among the 91 most reliable ones: its score
is 0, and its distance 2. -/
theorem npre1_score_misses_column : letI := fieldF32 Rat id id 0 Rat.floor
    let P := Ldpc174_91Params
    ∃ s, osdBitsLdpc174_91 insertionSort dependentLlr = some s ∧ ∃ c ∈ s.npre1Scored P 10,
      c.dd = 0 ∧ distance P.N dependentLlr (s.unpermute P c.cp) = 2 := by
  let _ := fieldF32 Rat id id 0 Rat.floor
  intro P
  obtain ⟨b,hb,hsound,hperm⟩ := osdSetup_sound P insertionSort dependentLlr rfl
  have hlast : b.perm.getD 90 0 = 91 := hperm ▸ getD_order_dependentLlr
  have hhard : ∀ j < P.N, hard dependentLlr j = decide (j = 91) := by decide +kernel
  have hdec {c : Nat} (hc : c < P.N) : b.hdecPerm dependentLlr c = decide (c = 90) := by
    rw [OsdBasis.hdecPerm,hhard _ (hsound.getD_lt hc),decide_eq_decide,← hlast]
    exact ⟨fun heq => hsound.injective c hc 90 (by decide) heq,fun heq => by rw [heq]⟩
  have hpivot : 90 ∉ b.pivotCol := by
    rw [hsound.mem_pivotCol_iff (by decide),not_not,hperm]
    exact depends_dependentLlr
  have hmrb (r : Nat) (hr : r < P.K) : b.mrb dependentLlr r = false := by
    have hget : b.pivotCol.getD r 0 ∈ b.pivotCol := by
      rw [List.getD_eq_getElem _ _ (hsound.full.symm ▸ hr)]
      exact List.getElem_mem _
    refine (hdec (hsound.echelon.below _ hget)).trans (decide_eq_false fun heq => hpivot (heq ▸ hget))
  have hword {c : Nat} (hc : c < P.N) : (b.setup P dependentLlr).cPerm.getD c false = false := by
    refine gf2_injective ((gf2_cPerm b dependentLlr hc).trans (Finset.sum_eq_zero fun r hr => ?_))
    rw [hmrb r (Finset.mem_range.mp hr),gf2_false,zero_mul]
  have hdiffers {c : Nat} (hc : c < P.N) :
      b.differs dependentLlr (b.setup P dependentLlr).cPerm c = decide (c = 90) := by
    rw [OsdBasis.differs,hword hc,hdec hc,Bool.false_xor]
  have hsetup : osdBitsLdpc174_91 insertionSort dependentLlr = some (b.setup P dependentLlr) := by
    rw [osdBitsLdpc174_91,osdBits_eq,hb]
    rfl
  have hdd : (b.setup P dependentLlr).parityWd P
      ((b.setup P dependentLlr).parityErrors P (b.setup P dependentLlr).cPerm) = 0 := by
    rw [parityWd_eq id id 0 Rat.floor]
    refine Finset.sum_eq_zero fun j hj => if_neg ?_
    have hlt : P.K + j < P.N := by
      have := Finset.mem_range.mp hj
      omega
    have hK : P.K = 91 := rfl
    rw [parityErrors_setup dependentLlr _ hlt,hdiffers hlt,decide_eq_true_eq]
    omega
  have hdistance : distance P.N dependentLlr
      ((b.setup P dependentLlr).unpermute P (b.setup P dependentLlr).cPerm) = 2 := by
    rw [distance_unpermute id id 0 Rat.floor dependentLlr hsound,Finset.sum_eq_single 90]
    · rw [hdiffers (by decide),decide_eq_true rfl,if_pos rfl,OsdBasis.reliability,hlast]
      decide
    · intro c hc hne
      rw [if_neg]
      rw [hdiffers (Finset.mem_range.mp hc),decide_eq_true_eq]
      exact hne
    · exact fun hnot => absurd (Finset.mem_range.mpr (by decide)) hnot
  have hmem := mem_npre1Scored_zero (P := P) (b.setup P dependentLlr) 10
  refine ⟨b.setup P dependentLlr,hsetup,_,hmem,?_,hdistance⟩
  rw [hdd]

end Dependent

end MfskCore.Fec
