import MfskCore.Library.Checked
import MfskCore.Library.Positional
import MfskCore.Library.RowMajor
import Mathlib.Algebra.BigOperators.Intervals

/-! The joint amplitudes of a group of symbols (`engine/llr.rs`): a table over every choice of tones, built from
the tables of its two halves. Amplitudes are any type with an addition; a slice out of range panics. -/
namespace MfskCore.Engine
open Library

section Definitions
variable {S A : Type*} [Add A]

/-- `out[k] = a + b` for every `a` and every `b`, `k` counting up from zero. -/
def combineHalves (halfHi halfLo out : List A) : Option (List A) :=
  (halfHi.foldlM (fun s a => halfLo.foldlM (fun (s : List A × Nat) b =>
    (checkedSet s.1 s.2 (a + b)).map fun out => (out,s.2 + 1)) s) (out,0)).map Prod.fst

/-- Each half is built in the front of the scratch, with the rest of it as its own scratch. A span of no symbols
splits into two such spans until the scratch runs out. -/
def buildGroupAmplitudesInto (toAmp : S → A) (cs : List S) (ntones : Nat) (grayMap : List UInt8) (ks span : Nat)
    (out scratch : List A) : Option (List A × List A) :=
  if span = 0 then none
  else if span = 1 then
    ((List.range (min ntones out.length)).foldlM (fun out t =>
      (grayMap[t]?).bind fun g => (cs[ks * ntones + g.toNat]?).map fun entry => out.set t (toAmp entry)) out).map
      fun out => (out,scratch)
  else
    let hi := span / 2
    let lo := span - hi
    let nHi := ntones^hi
    let nLo := ntones^lo
    if nHi + nLo ≤ scratch.length then
      let halves := scratch.take (nHi + nLo)
      let rest := scratch.drop (nHi + nLo)
      (buildGroupAmplitudesInto toAmp cs ntones grayMap ks hi (halves.take nHi) rest).bind fun (halfHi,rest) =>
      (buildGroupAmplitudesInto toAmp cs ntones grayMap (ks + hi) lo (halves.drop nHi) rest).bind fun (halfLo,rest) =>
      (combineHalves halfHi halfLo out).map fun out => (out,halfHi ++ halfLo ++ rest)
    else none
termination_by span

def groupScratchLen (span ntones : Nat) : Nat :=
  if span ≤ 1 then 0
  else
    let hi := span / 2
    let lo := span - hi
    ntones^hi + ntones^lo + max (groupScratchLen hi ntones) (groupScratchLen lo ntones)
termination_by span

end Definitions

section Combine
variable {A : Type*} [Add A]

theorem combineHalves_eq (halfHi halfLo : List A) {out : List A} (h : halfHi.length * halfLo.length ≤ out.length) :
    combineHalves halfHi halfLo out = some ((halfHi.flatMap fun a => halfLo.map fun b => a + b) ++
      out.drop (halfHi.length * halfLo.length)) := by
  have hlength : (halfHi.flatMap fun a => halfLo.map fun b => a + b).length = halfHi.length * halfLo.length := by
    rw [List.length_flatMap]
    simp [List.sum_replicate]
  have hwrites := foldlM_checkedSet (halfHi.flatMap fun a => halfLo.map fun b => a + b) out (k := 0)
    (by rwa [Nat.zero_add,hlength])
  rw [foldlM_flatMap] at hwrites
  simp only [List.foldlM_map] at hwrites
  rw [combineHalves,hwrites,Option.map_some,hlength,Nat.zero_add,List.take_zero,List.nil_append]

end Combine

section DirectSum
variable {S A : Type*} [AddCommMonoid A] (toAmp : S → A) (cs : List S) (ntones : Nat) (grayMap : List UInt8)

/-- The amplitude of a symbol at a tone. -/
def toneAmp (k t : Nat) : A := ((cs[k * ntones + (grayMap.getD t 0).toNat]?).map toAmp).getD 0

/-- The sum over the symbols of a group, the first of which has the leading digit. -/
def directSum (ks span i : Nat) : A :=
  ∑ s ∈ Finset.range span, toneAmp toAmp cs ntones grayMap (ks + s) (i / ntones^(span - 1 - s) % ntones)

def groupTable (ks span : Nat) : List A := (List.range (ntones^span)).map (directSum toAmp cs ntones grayMap ks span)

/-- The digits of a number in two parts. -/
theorem directSum_split {lo j : Nat} (hj : j < ntones^lo) (ks hi i : Nat) :
    directSum toAmp cs ntones grayMap ks (hi + lo) (i * ntones^lo + j) =
      directSum toAmp cs ntones grayMap ks hi i + directSum toAmp cs ntones grayMap (ks + hi) lo j := by
  rw [directSum,Finset.sum_range_add]
  refine congrArg₂ (· + ·) (Finset.sum_congr rfl fun s hs => ?_) (Finset.sum_congr rfl fun s hs => ?_)
  · have hs' : s < hi := Finset.mem_range.1 hs
    have hplace : hi + lo - 1 - s = lo + (hi - 1 - s) := by omega
    rw [hplace,Nat.pow_add,← Nat.div_div_eq_div_mul,Nat.mul_comm i,Nat.mul_add_div (Nat.zero_lt_of_lt hj),
      Nat.div_eq_of_lt hj,Nat.add_zero]
  · have hs' : s < lo := Finset.mem_range.1 hs
    have hplace : hi + lo - 1 - (hi + s) = lo - 1 - s := by omega
    have hn : 0 < ntones := Nat.pos_of_ne_zero fun h => by simp [h,Nat.ne_zero_of_lt hs'] at hj
    have hwide : i * ntones^lo = ntones^(lo - 1 - s) * (ntones * (ntones^s * i)) := by
      have hlo : lo = (lo - 1 - s) + 1 + s := by omega
      conv_lhs => rw [hlo,Nat.pow_add,Nat.pow_succ]
      rw [Nat.mul_comm i,Nat.mul_assoc,Nat.mul_assoc]
    rw [hplace,hwide,Nat.mul_add_div (Nat.pow_pos hn),Nat.mul_add_mod,Nat.add_assoc]

theorem groupTable_add (ks hi lo : Nat) : groupTable toAmp cs ntones grayMap ks (hi + lo) =
    (groupTable toAmp cs ntones grayMap ks hi).flatMap fun a =>
      (groupTable toAmp cs ntones grayMap (ks + hi) lo).map fun b => a + b := by
  simp only [groupTable]
  rw [Nat.pow_add,map_range_mul,List.flatMap_map]
  refine List.flatMap_congr fun i _ => ?_
  rw [List.map_map]
  exact List.map_congr_left fun j hj => directSum_split toAmp cs ntones grayMap (List.mem_range.1 hj) ks hi i

variable {ntones} {grayMap}

/-- The indices a group reads are in range. -/
structure InRange (cs : List S) (ntones : Nat) (grayMap : List UInt8) (ks span : Nat) : Prop where
  tones : ntones ≤ grayMap.length
  spectra : ∀ s < span, ∀ t < ntones, (ks + s) * ntones + (grayMap.getD t 0).toNat < cs.length

variable {cs} {ks span : Nat}

theorem InRange.first {hi : Nat} (h : InRange cs ntones grayMap ks span) (hle : hi ≤ span) :
    InRange cs ntones grayMap ks hi := ⟨h.tones,fun s hs => h.spectra s (hs.trans_le hle)⟩

theorem InRange.last {hi lo : Nat} (h : InRange cs ntones grayMap ks span) (hle : hi + lo ≤ span) :
    InRange cs ntones grayMap (ks + hi) lo :=
  ⟨h.tones,fun s hs t ht => Nat.add_assoc ks hi s ▸ h.spectra (hi + s) (by omega) t ht⟩

theorem length_groupTable : (groupTable toAmp cs ntones grayMap ks span).length = ntones^span := by
  rw [groupTable,List.length_map,List.length_range]

/-- One symbol is looked up tone by tone. -/
theorem build_one (h : InRange cs ntones grayMap ks 1) {out : List A} (hout : ntones ≤ out.length) (scratch : List A) :
    buildGroupAmplitudesInto toAmp cs ntones grayMap ks 1 out scratch =
      some (groupTable toAmp cs ntones grayMap ks 1 ++ out.drop ntones,scratch) := by
  have hread : (List.range (min ntones out.length)).foldlM (fun out t =>
      (grayMap[t]?).bind fun g => (cs[ks * ntones + g.toNat]?).map fun entry => out.set t (toAmp entry)) out =
      some (fill ntones (toneAmp toAmp cs ntones grayMap ks) out) := by
    rw [Nat.min_eq_left hout]
    refine (foldlM_eq_some (fun _ => True) (fun t ht out _ => ⟨?_,trivial⟩) trivial).1
    have htn : t < ntones := List.mem_range.1 ht
    have hcs : ks * ntones + (grayMap.getD t 0).toNat < cs.length := h.spectra 0 Nat.one_pos t htn
    rw [getElem?_eq_some_getD (htn.trans_le h.tones) 0,Option.bind_some,toneAmp,List.getElem?_eq_getElem hcs]
    rfl
  have htable : groupTable toAmp cs ntones grayMap ks 1 = (List.range ntones).map (toneAmp toAmp cs ntones grayMap ks) := by
    rw [groupTable,Nat.pow_one]
    refine List.map_congr_left fun t ht => ?_
    simp [directSum,Nat.mod_eq_of_lt (List.mem_range.1 ht)]
  rw [buildGroupAmplitudesInto,if_neg Nat.one_ne_zero,if_pos rfl,hread,htable,fill_eq_append _ hout]
  rfl

/-- The table is built when the scratch is long enough, whatever it holds, and not otherwise. -/
theorem build_run (hspan : 1 ≤ span) (h : InRange cs ntones grayMap ks span) {out : List A}
    (hout : ntones^span ≤ out.length) (scratch : List A) :
    (groupScratchLen span ntones ≤ scratch.length → ∃ scratch', scratch'.length = scratch.length ∧
      buildGroupAmplitudesInto toAmp cs ntones grayMap ks span out scratch =
        some (groupTable toAmp cs ntones grayMap ks span ++ out.drop (ntones^span),scratch')) ∧
    (scratch.length < groupScratchLen span ntones →
      buildGroupAmplitudesInto toAmp cs ntones grayMap ks span out scratch = none) := by
  induction span using Nat.strongRecOn generalizing ks out scratch with
  | ind span ih =>
    obtain rfl | hmany := Nat.eq_or_lt_of_le hspan
    · rw [Nat.pow_one] at hout ⊢
      refine ⟨fun _ => ⟨scratch,rfl,build_one toAmp h hout scratch⟩,fun hshort => ?_⟩
      rw [groupScratchLen,if_pos (Nat.le_refl 1)] at hshort
      exact absurd hshort (Nat.not_lt_zero _)
    · obtain ⟨hi,hhi⟩ : ∃ hi, hi = span / 2 := ⟨_,rfl⟩
      obtain ⟨lo,hlo⟩ : ∃ lo, lo = span - hi := ⟨_,rfl⟩
      have hsum : span = hi + lo := by omega
      have hneed : groupScratchLen span ntones =
          ntones^hi + ntones^lo + max (groupScratchLen hi ntones) (groupScratchLen lo ntones) := by
        rw [groupScratchLen,if_neg (Nat.not_le.2 hmany)]
        simp only [← hhi,← hlo]
      have hHi (out scratch : List A) (hout : ntones^hi ≤ out.length) :=
        ih hi (by omega) (by omega) (h.first (by omega)) hout scratch
      have hLo (out scratch : List A) (hout : ntones^lo ≤ out.length) :=
        ih lo (by omega) (by omega) (h.last hsum.ge) hout scratch
      rw [buildGroupAmplitudesInto,if_neg (by omega),if_neg (by omega)]
      simp only [← hhi,← hlo]
      by_cases hsplit : ntones^hi + ntones^lo ≤ scratch.length
      · rw [if_pos hsplit]
        have hrest : (scratch.drop (ntones^hi + ntones^lo)).length = scratch.length - (ntones^hi + ntones^lo) :=
          List.length_drop
        have hhalves : (scratch.take (ntones^hi + ntones^lo)).length = ntones^hi + ntones^lo :=
          List.length_take_of_le hsplit
        have hroom : groupScratchLen span ntones ≤ scratch.length ↔
            groupScratchLen hi ntones ≤ (scratch.drop (ntones^hi + ntones^lo)).length ∧
            groupScratchLen lo ntones ≤ (scratch.drop (ntones^hi + ntones^lo)).length := by
          rw [hneed,hrest]
          omega
        have hfirst := hHi ((scratch.take (ntones^hi + ntones^lo)).take (ntones^hi)) (scratch.drop (ntones^hi + ntones^lo))
          (by rw [List.length_take_of_le (by omega)])
        by_cases hroomHi : groupScratchLen hi ntones ≤ (scratch.drop (ntones^hi + ntones^lo)).length
        · obtain ⟨rest,hlenHi,hrunHi⟩ := hfirst.1 hroomHi
          have hsecond := hLo ((scratch.take (ntones^hi + ntones^lo)).drop (ntones^hi)) rest
            (by rw [List.length_drop,hhalves,Nat.add_sub_cancel_left])
          rw [hrunHi,Option.bind_some]
          by_cases hroomLo : groupScratchLen lo ntones ≤ rest.length
          · obtain ⟨rest',hlenLo,hrunLo⟩ := hsecond.1 hroomLo
            have hprod : ntones^hi * ntones^lo = ntones^span := by rw [hsum,Nat.pow_add]
            have hendHi : ((scratch.take (ntones^hi + ntones^lo)).take (ntones^hi)).drop (ntones^hi) = [] :=
              List.drop_take_self
            have hendLo : ((scratch.take (ntones^hi + ntones^lo)).drop (ntones^hi)).drop (ntones^lo) = [] :=
              List.drop_eq_nil_of_le (by rw [List.length_drop,hhalves,Nat.add_sub_cancel_left])
            rw [hrunLo,Option.bind_some,hendHi,hendLo,List.append_nil,List.append_nil,combineHalves_eq _ _ (by
              rwa [length_groupTable,length_groupTable,hprod]),length_groupTable,length_groupTable,hprod,
              ← groupTable_add,← hsum]
            refine ⟨fun _ => ⟨_,?_,rfl⟩,fun hshort => absurd (hroom.2 ⟨hroomHi,hlenHi ▸ hroomLo⟩) (Nat.not_le.2 hshort)⟩
            rw [List.length_append,List.length_append,length_groupTable,length_groupTable,hlenLo,hlenHi,hrest,
              Nat.add_sub_cancel' hsplit]
          · rw [hsecond.2 (Nat.lt_of_not_le hroomLo)]
            exact ⟨fun hlong => absurd (hroom.1 hlong).2 (hlenHi ▸ hroomLo),fun _ => rfl⟩
        · rw [hfirst.2 (Nat.lt_of_not_le hroomHi)]
          exact ⟨fun hlong => absurd (hroom.1 hlong).1 hroomHi,fun _ => rfl⟩
      · rw [if_neg hsplit]
        exact ⟨fun hlong => absurd (hneed ▸ hlong) (by omega),fun _ => rfl⟩

/-- Entry `i` of the table is the sum of the amplitudes of the symbols at the Gray-mapped tones its digits give, the
leading digit for the first symbol. The rest of the buffer stays. The scratch suffices when it has the computed
length, and a shorter one does not. -/
theorem group_amplitudes_direct_sum {S A : Type} [AddCommMonoid A] (toAmp : S → A) (cs : List S) (ntones : Nat)
    (grayMap : List UInt8) (ks span : Nat) (hspan : 1 ≤ span) (hrange : InRange cs ntones grayMap ks span) (out : List A)
    (hout : ntones^span ≤ out.length) (scratch : List A) :
    (groupScratchLen span ntones ≤ scratch.length → ∃ out' scratch',
      buildGroupAmplitudesInto toAmp cs ntones grayMap ks span out scratch = some (out',scratch') ∧
      out'.length = out.length ∧ scratch'.length = scratch.length ∧
      (∀ i < ntones^span, out'[i]? = some (∑ s ∈ Finset.range span,
        toneAmp toAmp cs ntones grayMap (ks + s) (i / ntones^(span - 1 - s) % ntones))) ∧
      ∀ i, ntones^span ≤ i → out'[i]? = out[i]?) ∧
    (scratch.length < groupScratchLen span ntones →
      buildGroupAmplitudesInto toAmp cs ntones grayMap ks span out scratch = none) := by
  obtain ⟨hlong,hshort⟩ := build_run toAmp hspan hrange hout scratch
  refine ⟨fun hroom => ?_,hshort⟩
  obtain ⟨scratch',hlen,hrun⟩ := hlong hroom
  have htable : (groupTable toAmp cs ntones grayMap ks span).length = ntones^span := length_groupTable toAmp
  refine ⟨_,scratch',hrun,?_,hlen,fun i hi => ?_,fun i hi => ?_⟩
  · rw [List.length_append,htable,List.length_drop,Nat.add_sub_cancel' hout]
  · rw [List.getElem?_append_left (htable.symm ▸ hi),groupTable,List.getElem?_map,List.getElem?_range hi]
    rfl
  · rw [List.getElem?_append_right (htable.symm ▸ hi),htable,List.getElem?_drop,Nat.add_sub_cancel' hi]

theorem group_amplitudes_of_three : ∃ out' scratch',
    buildGroupAmplitudesInto id [1,2,10,20,100,200] 2 [1,0] 0 3 (List.replicate 8 0) (List.replicate 10 0) =
      some (out',scratch') ∧ out'[1]? = some (2 + 20 + 100) := by
  have hneed : groupScratchLen 3 2 = 10 := by simp [groupScratchLen]
  have hrange : InRange [1,2,10,20,100,200] 2 [1,0] 0 3 := ⟨by decide,by decide⟩
  obtain ⟨out',scratch',hrun,-,-,htable,-⟩ := (group_amplitudes_direct_sum id [1,2,10,20,100,200] 2 [1,0] 0 3 (by decide)
    hrange (List.replicate 8 0) (by decide) (List.replicate 10 0)).1 (by rw [hneed]; decide)
  exact ⟨out',scratch',hrun,htable 1 (by decide)⟩

end DirectSum

end MfskCore.Engine
