import MfskCore.Embedded.SlotGrid
import Mathlib.Tactic.Linarith
import Mathlib.Tactic.LinearCombination
import Mathlib.Tactic.Ring
import Mathlib.Algebra.Ring.Parity

/-! A single clock step seen by the slot grid: the stream may be cut anywhere and the clock
asked at any point. -/
namespace MfskCore.Embedded
open Rust Library

/-- The representative of `k` modulo an even period in `(-p/2, p/2]`. -/
def centered (p : Nat) (k : Int) : Int :=
  if 2 * (k % p) ≤ p then k % p else k % p - p

theorem centered_add_mul (p : Nat) (k c : Int) : centered p (k + p * c) = centered p k := by
  simp [centered]

theorem centered_bounds {p : Nat} (hp : 0 < p) (k : Int) :
    -(p : Int) < 2 * centered p k ∧ 2 * centered p k ≤ p := by
  have h0 := Int.emod_nonneg k (show (p : Int) ≠ 0 by omega)
  have h1 := Int.emod_lt_of_pos k (show (0 : Int) < p by omega)
  unfold centered
  split <;> omega

theorem centered_eq_self {p : Nat} {k : Int} (hlo : -(p : Int) < 2 * k) (hhi : 2 * k ≤ p) :
    centered p k = k := by
  unfold centered
  rcases Int.lt_or_le k 0 with h | h
  · have he : k % p = k + p := by
      rw [← Int.add_mul_emod_self_left k p 1,mul_one]
      exact Int.emod_eq_of_lt (by omega) (by omega)
    rw [he]
    split <;> omega
  · have he : k % p = k := Int.emod_eq_of_lt h (by omega)
    rw [he]
    split <;> omega

/-- The offset that remains after part of it is taken away. -/
theorem centered_sub {p : Nat} (k a : Int)
    (hlo : -(p : Int) < 2 * (centered p k - a)) (hhi : 2 * (centered p k - a) ≤ p) :
    centered p (k - a) = centered p k - a := by
  obtain ⟨c,hc⟩ : ∃ c, k = centered p k + p * c := by
    have hk := Int.emod_add_mul_ediv k p
    unfold centered
    split
    · exact ⟨k / p,hk.symm⟩
    · exact ⟨k / p + 1,by rw [mul_add,mul_one]; omega⟩
  have he : k - a = centered p k - a + p * c := by omega
  rw [he,centered_add_mul,centered_eq_self hlo hhi]

/-- The calls a receiver makes: discard up to `avail`, fill `n`, ask the clock. -/
inductive GridOp where
  | takeSkip (avail : Nat)
  | fill (n : Nat)
  | anchor (samplesToBoundaryFromHere : Nat)

/-- A grid with its place in the stream and the account of its corrections since the clock
stepped. Closes are counted from the first time the clock is asked. -/
structure GridTrace where
  grid : SlotGrid
  pos : Nat
  asked : Bool
  closes : Nat
  applied : Int
  queued : Int

namespace GridTrace

def start (g : SlotGrid) : GridTrace := ⟨g,0,false,0,0,0⟩

def nominalGap (w : GridTrace) : Int := (w.grid.period - w.grid.window : Nat)

def track (w : GridTrace) : GridOp → GridTrace
  | .takeSkip avail =>
    { w with grid := (w.grid.takeSkip avail).1, pos := w.pos + (w.grid.takeSkip avail).2 }
  | .fill n =>
    let out := w.grid.fill n
    if out.2 then
      { w with
        grid := out.1
        pos := w.pos + n
        closes := if w.asked then w.closes + 1 else w.closes
        applied := w.applied + (out.1.skip - w.nominalGap) }
    else { w with grid := out.1, pos := w.pos + n }
  | .anchor s =>
    { w with
      grid := (w.grid.anchorOrReanchor s).1
      asked := true
      queued := w.queued + (w.grid.phaseError s).getD 0 }

/-- `s` is the true distance from the accumulator to a boundary of the clock at `b`. -/
def TrueDistance (b : Nat) (w : GridTrace) (s : Nat) : Prop :=
  (w.pos + s) % w.grid.period = b % w.grid.period

/-- Samples are skipped before they are filled, a fill stays inside the window, and the clock
is passed truthfully. -/
def Legal (b : Nat) (w : GridTrace) : GridOp → Prop
  | .takeSkip _ => True
  | .fill n => w.grid.skip = 0 ∧ n ≤ w.grid.room
  | .anchor s => w.TrueDistance b s

/-- Distance to the next opening as an integer. -/
def toOpen (g : SlotGrid) : Int :=
  if 0 < g.skip then g.skip else (g.window - g.filled : Nat) + (g.period - g.window : Nat)

/-- How far the clock's boundary is from the grid's next opening. -/
def offset (b : Nat) (w : GridTrace) : Int := centered w.grid.period (b - w.pos - toOpen w.grid)

/-- An anchored grid of at least one sample per window, at rest or under way. -/
structure Sound (g : SlotGrid) : Prop where
  aligned : g.aligned = true
  window_pos : 0 < g.window
  window_lt : g.window < g.period
  even : Even g.period
  period_lt : g.period < 2^31
  thresh : 0 ≤ g.reanchorThresh
  filled : g.filled < g.window
  skip_le : g.skip ≤ g.period
  skip_filled : 0 < g.skip → g.filled = 0

/-- The first anchor puts a new grid, wherever its window stands, on the clock and at rest. -/
theorem sound_first_anchor {g : SlotGrid} (hnew : g.aligned = false) (hwindow : 0 < g.window)
    (hlt : g.window < g.period) (heven : Even g.period) (hperiod : g.period < 2^31) (hthresh : 0 ≤ g.reanchorThresh)
    (s : Nat) :
    Sound (g.anchorOrReanchor s).1 ∧ (g.anchorOrReanchor s).1.pendingShift = 0 ∧
      (g.anchorOrReanchor s).1.clockTrim = 0 := by
  rw [SlotGrid.anchorOrReanchor,hnew,Bool.not_false,if_pos rfl]
  have hskip : s % g.period ≤ g.period := (Nat.mod_lt s (hwindow.trans hlt)).le
  exact ⟨⟨rfl,hwindow,hlt,heven,hperiod,hthresh,hwindow,hskip,fun _ => rfl⟩,rfl,rfl⟩

theorem toOpen_bounds {g : SlotGrid} (h : Sound g) : 1 ≤ toOpen g ∧ toOpen g ≤ g.period := by
  have := h.skip_le
  have := h.window_lt
  have := h.filled
  unfold toOpen
  split <;> omega

theorem samplesToNextWindowOpen_eq {g : SlotGrid} (h : Sound g) :
    g.samplesToNextWindowOpen = toOpen g := by
  have hb := toOpen_bounds h
  have hp := h.period_lt
  have hw := h.window_lt
  have hs := h.skip_le
  unfold SlotGrid.samplesToNextWindowOpen
  unfold toOpen at hb ⊢
  split
  · exact asI32_eq (by omega)
  · rename_i hskip
    rw [if_neg hskip] at hb
    rw [asI32_eq (by omega),asI32_eq (by omega)]
    exact wrapI32_eq (by omega) (by omega)

/-- The signed remainder and its two corrections are the centred offset. -/
private theorem delta_eq {p : Nat} (want : Int) {have_ : Int} (he : Even p) (hp : p < 2^31)
    (hw0 : 0 ≤ want) (hw1 : want < p) (hh0 : 1 ≤ have_) (hh1 : have_ ≤ p) :
    (let delta := (wrapI32 (want - have_)).tmod p
      if delta > (p : Int).tdiv 2 then wrapI32 (delta - p)
      else if delta ≤ (wrapI32 (-p)).tdiv 2 then wrapI32 (delta + p)
      else delta) = centered p (want - have_) := by
  obtain ⟨m,rfl⟩ := he
  have hhalf : ((m + m : Nat) : Int).tdiv 2 = m := by
    rw [Int.tdiv_eq_ediv_of_nonneg (by omega)]
    omega
  have hneg : (wrapI32 (-((m + m : Nat) : Int))).tdiv 2 = -m := by
    rw [wrapI32_eq (by omega) (by omega),Int.neg_tdiv,hhalf]
  dsimp only
  rw [hhalf,hneg,wrapI32_eq (show -2^31 ≤ want - have_ by omega) (by omega)]
  rcases Int.lt_or_le (want - have_) 0 with h | h
  · have ht : (want - have_).tmod ((m + m : Nat) : Int) =
        if want - have_ = -((m + m : Nat) : Int) then 0 else want - have_ := by
      obtain ⟨d,hd⟩ : ∃ d : Int, want - have_ = -d := ⟨have_ - want,by omega⟩
      rw [hd,Int.neg_tmod,Int.tmod_eq_emod_of_nonneg (by omega)]
      split
      · rename_i heq
        have : d = ((m + m : Nat) : Int) := by omega
        rw [this]
        simp
      · rw [Int.emod_eq_of_lt (by omega) (by omega)]
    rw [ht]
    split
    · rename_i heq
      have hc : centered (m + m) (want - have_) = 0 := by
        rw [← centered_add_mul (m + m) (want - have_) 1,heq,mul_one,neg_add_cancel]
        exact centered_eq_self (by omega) (by omega)
      rw [hc,if_neg (by omega),if_neg (by omega)]
    · by_cases hlow : want - have_ ≤ -(m : Int)
      · rw [if_neg (by omega),if_pos hlow,wrapI32_eq (by omega) (by omega)]
        rw [← centered_add_mul (m + m) (want - have_) 1,mul_one]
        exact (centered_eq_self (by omega) (by omega)).symm
      · rw [if_neg (by omega),if_neg hlow]
        exact (centered_eq_self (by omega) (by omega)).symm
  · have ht : (want - have_).tmod ((m + m : Nat) : Int) = want - have_ := by
      rw [Int.tmod_eq_emod_of_nonneg h,Int.emod_eq_of_lt h (by omega)]
    rw [ht]
    by_cases hhigh : want - have_ > (m : Int)
    · rw [if_pos hhigh,wrapI32_eq (by omega) (by omega)]
      rw [← centered_add_mul (m + m) (want - have_) (-1)]
      rw [show want - have_ + ((m + m : Nat) : Int) * -1 = want - have_ - ((m + m : Nat) : Int) by
        ring]
      exact (centered_eq_self (by omega) (by omega)).symm
    · rw [if_neg hhigh,if_neg (by omega)]
      exact (centered_eq_self (by omega) (by omega)).symm

/-- The true distance reads as the offset, net of what the clock has queued. -/
theorem phaseError_eq {b : Nat} {w : GridTrace} {s : Nat} (h : Sound w.grid)
    (hs : w.TrueDistance b s) (hlo : -(w.grid.period : Int) ≤ 2 * w.grid.clockTrim)
    (hhi : 2 * w.grid.clockTrim ≤ w.grid.period) :
    w.grid.phaseError s =
      let r := w.offset b - w.grid.clockTrim
      if (r.natAbs : Int) > w.grid.reanchorThresh then some r else none := by
  have hp := h.period_lt
  have hpos : 0 < w.grid.period := by have := h.window_lt; omega
  have hmod : s % w.grid.period < w.grid.period := Nat.mod_lt _ hpos
  have hopen := toOpen_bounds h
  have hdelta := delta_eq (s % w.grid.period : Nat) h.even hp (by omega) (by omega)
    hopen.1 hopen.2
  have hoff : centered w.grid.period ((s % w.grid.period : Nat) - toOpen w.grid) =
      w.offset b := by
    have hcong : ((w.pos + s : Nat) : Int) % w.grid.period = (b : Int) % w.grid.period := by
      exact_mod_cast hs
    obtain ⟨c,hc⟩ : ∃ c : Int, ((s % w.grid.period : Nat) : Int) = b - w.pos + w.grid.period * c := by
      have h1 := Int.emod_add_mul_ediv ((w.pos + s : Nat) : Int) w.grid.period
      have h2 := Int.emod_add_mul_ediv (b : Int) w.grid.period
      have h3 := Int.emod_add_mul_ediv (s : Int) w.grid.period
      refine ⟨((w.pos + s : Nat) : Int) / w.grid.period - (b : Int) / w.grid.period -
        (s : Int) / w.grid.period,?_⟩
      push_cast at h1 h2 h3 hcong ⊢
      linear_combination h3 + h2 - h1 + hcong
    rw [offset,hc,show (b : Int) - w.pos + w.grid.period * c - toOpen w.grid =
      b - w.pos - toOpen w.grid + w.grid.period * c by ring,centered_add_mul]
  have hob := centered_bounds hpos (b - w.pos - toOpen w.grid)
  unfold SlotGrid.phaseError
  rw [samplesToNextWindowOpen_eq h,asI32_eq hp,asI32_eq (by omega)]
  dsimp only at hdelta ⊢
  rw [hdelta,hoff,wrapI32_eq (by unfold offset; omega) (by unfold offset; omega)]

private theorem offset_takeSkip (b : Nat) {w : GridTrace} (h : Sound w.grid) (avail : Nat) :
    (w.track (.takeSkip avail)).offset b = w.offset b := by
  have hw := h.window_lt
  have hf := h.skip_filled
  by_cases hs : 0 < w.grid.skip
  · by_cases hlt : avail < w.grid.skip
    · have hmin : min w.grid.skip avail = avail := by omega
      simp only [offset,track,SlotGrid.takeSkip,toOpen,hmin,if_pos hs,
        if_pos (show 0 < w.grid.skip - avail by omega)]
      congr 1
      omega
    · have hmin : min w.grid.skip avail = w.grid.skip := by omega
      simp only [offset,track,SlotGrid.takeSkip,toOpen,hmin,if_pos hs,Nat.sub_self,lt_irrefl,
        if_false,hf hs]
      rw [← centered_add_mul w.grid.period (b - w.pos - w.grid.skip) (-1)]
      congr 1
      omega
  · have hz : w.grid.skip = 0 := by omega
    simp [offset,track,SlotGrid.takeSkip,toOpen,hz]

private theorem sound_takeSkip {g : SlotGrid} (h : Sound g) (avail : Nat) :
    Sound (g.takeSkip avail).1 :=
  { h with
    skip_le := (Nat.sub_le _ _).trans h.skip_le
    skip_filled := fun hs => h.skip_filled (by
      have : 0 < g.skip - min g.skip avail := hs
      omega) }

/-- What a close does to the account: the gap is clamped and the rest is carried. -/
private theorem fill_close {g : SlotGrid} {n : Nat} (h : Sound g)
    (hclose : ¬ g.filled + n < g.window) (hlo : -(g.period : Int) ≤ 2 * g.pendingShift)
    (hfit : ((g.period - g.window : Nat) : Int) + g.pendingShift < 2^31) :
    ∃ skip : Nat, (skip : Int) =
        max 0 (min (((g.period - g.window : Nat) : Int) + g.pendingShift) g.period) ∧
      g.fill n = ({ g with
        filled := 0
        skip := skip
        pendingShift := ((g.period - g.window : Nat) : Int) + g.pendingShift - skip
        clockTrim := ((g.period - g.window : Nat) : Int) + g.pendingShift - skip },true) := by
  have hp := h.period_lt
  have hw := h.window_lt
  have hwant : g.wantSkip = ((g.period - g.window : Nat) : Int) + g.pendingShift := by
    rw [SlotGrid.wantSkip,asI32_eq (by omega)]
    exact wrapI32_eq (by omega) hfit
  have hperiod : asI32 g.period = g.period := asI32_eq hp
  refine ⟨(max 0 (min g.wantSkip (asI32 g.period))).toNat,?_,?_⟩
  · rw [hwant,hperiod]
    omega
  · have hskip : asI32 (max 0 (min g.wantSkip (asI32 g.period))).toNat =
        ((max 0 (min g.wantSkip (asI32 g.period))).toNat : Int) :=
      asI32_eq (by rw [hwant,hperiod]; omega)
    rw [SlotGrid.fill,if_neg hclose]
    dsimp only
    rw [hskip,wrapI32_eq (by rw [hwant,hperiod]; omega) (by rw [hwant,hperiod]; omega),hwant]

private theorem sound_fill_close {g : SlotGrid} (h : Sound g) {skip : Nat} {pending : Int}
    (hs : skip ≤ g.period) :
    Sound { g with filled := 0, skip := skip, pendingShift := pending, clockTrim := pending } :=
  { h with filled := h.window_pos, skip_le := hs, skip_filled := fun _ => rfl }

private theorem offset_fill_close (b : Nat) {w : GridTrace} (g' : SlotGrid) {n : Nat}
    (h : Sound w.grid) (hskip : w.grid.skip = 0) (hn : n = w.grid.room)
    (hp : g'.period = w.grid.period) (hw : g'.window = w.grid.window) (hf : g'.filled = 0) :
    centered g'.period (b - (w.pos + n : Nat) - toOpen g') =
      centered w.grid.period (b - w.pos - toOpen w.grid - (g'.skip - w.nominalGap)) := by
  have hfill := h.filled
  have hlt := h.window_lt
  subst hn
  have hroom : w.grid.room = w.grid.window - w.grid.filled := rfl
  rw [hp]
  simp only [toOpen,hskip,lt_irrefl,if_false,hp,hw,hf,nominalGap,hroom]
  by_cases hs : 0 < g'.skip
  · rw [if_pos hs]
    congr 1
    omega
  · have hz : g'.skip = 0 := by omega
    rw [if_neg hs,hz,← centered_add_mul w.grid.period
      (b - (w.pos + (w.grid.window - w.grid.filled) : Nat) -
        (((w.grid.window - 0 : Nat) : Int) + (w.grid.period - w.grid.window : Nat))) 1]
    congr 1
    omega

/-- The account of one clock step of size `D`: before the clock is asked, or when the step is
inside the threshold, nothing is owed; afterwards what is owed is exactly what is pending. -/
structure Account (b : Nat) (g₀ : SlotGrid) (D : Int) (w : GridTrace) : Prop where
  sound : Sound w.grid
  period : w.grid.period = g₀.period
  window : w.grid.window = g₀.window
  thresh : w.grid.reanchorThresh = g₀.reanchorThresh
  trim : w.grid.clockTrim = w.grid.pendingShift
  balance : w.applied + w.grid.pendingShift = w.queued
  unasked : w.asked = false → w.closes = 0
  phase : (¬ (w.asked = true ∧ g₀.reanchorThresh < D.natAbs) ∧ w.queued = 0 ∧
      w.grid.pendingShift = 0 ∧ w.offset b = D) ∨
    (w.asked = true ∧ g₀.reanchorThresh < D.natAbs ∧ w.queued = D ∧
      w.offset b = w.grid.pendingShift ∧
      (0 ≤ w.grid.pendingShift ∧ w.grid.pendingShift ≤ D ∨
        D ≤ w.grid.pendingShift ∧ w.grid.pendingShift ≤ 0) ∧
      (w.grid.pendingShift = 0 ∨ w.grid.pendingShift.natAbs + w.closes ≤ D.natAbs))

section OneStep
variable {b : Nat} {g₀ : SlotGrid} {D : Int}

private theorem Account.pending_bounds {w : GridTrace} (h : Account b g₀ D w)
    (hlo : -(g₀.period : Int) < 2 * D) (hhi : 2 * D ≤ g₀.period) :
    -(g₀.period : Int) < 2 * w.grid.pendingShift ∧ 2 * w.grid.pendingShift ≤ g₀.period ∧
      (w.grid.pendingShift ≤ D ∨ w.grid.pendingShift ≤ 0) := by
  have hpos := h.sound.window_lt
  rw [h.period] at hpos
  rcases h.phase with ⟨_,_,hz,_⟩ | ⟨_,_,_,_,hb,_⟩
  · rw [hz]
    omega
  · omega

/-- A truthful answer of the clock finds what is still unqueued, if that is past the threshold. -/
theorem Account.phaseError {w : GridTrace} (h : Account b g₀ D w)
    (hlo : -(g₀.period : Int) < 2 * D) (hhi : 2 * D ≤ g₀.period) {s : Nat}
    (hs : w.TrueDistance b s) :
    w.grid.phaseError s =
      if w.asked = false ∧ g₀.reanchorThresh < D.natAbs then some D else none := by
  obtain ⟨hb1,hb2,_⟩ := h.pending_bounds hlo hhi
  rw [phaseError_eq h.sound hs (by rw [h.trim,h.period]; omega) (by rw [h.trim,h.period]; omega)]
  dsimp only
  rw [h.trim,h.thresh]
  have hthr := h.sound.thresh
  rw [h.thresh] at hthr
  rcases h.phase with ⟨hn,_,hz,ho⟩ | ⟨ha,ht,_,ho,_,_⟩
  · rw [ho,hz,sub_zero]
    by_cases ht : g₀.reanchorThresh < D.natAbs
    · have ha : w.asked = false := by
        cases ha : w.asked with
        | false => rfl
        | true => exact absurd ⟨ha,ht⟩ hn
      rw [if_pos ht,if_pos ⟨ha,ht⟩]
    · rw [if_neg ht,if_neg (fun hc => ht hc.2)]
  · rw [ho,sub_self,if_neg (by simpa using hthr),if_neg (by simp [ha])]

private theorem Account.takeSkip {w : GridTrace} (h : Account b g₀ D w) (avail : Nat) :
    Account b g₀ D (w.track (.takeSkip avail)) :=
  { h with
    sound := sound_takeSkip h.sound avail
    phase := by rw [offset_takeSkip b h.sound]; exact h.phase }

private theorem Account.anchor {w : GridTrace} (h : Account b g₀ D w)
    (hlo : -(g₀.period : Int) < 2 * D) (hhi : 2 * D ≤ g₀.period) {s : Nat}
    (hs : w.TrueDistance b s) : Account b g₀ D (w.track (.anchor s)) := by
  have he := h.phaseError hlo hhi hs
  have hp := h.sound.period_lt
  rw [h.period] at hp
  have hal : (!w.grid.aligned) = false := by simp [h.sound.aligned]
  by_cases hq : w.asked = false ∧ g₀.reanchorThresh < D.natAbs
  · rw [if_pos hq] at he
    have hz : w.queued = 0 ∧ w.grid.pendingShift = 0 ∧ w.offset b = D := by
      rcases h.phase with ⟨_,h0,hz,ho⟩ | ⟨ha,_⟩
      · exact ⟨h0,hz,ho⟩
      · rw [ha] at hq
        exact absurd hq.1 (by simp)
    have hwrap : wrapI32 D = D := wrapI32_eq (by omega) (by omega)
    have ht : w.track (.anchor s) = { w with
        grid := { w.grid with pendingShift := D, clockTrim := D }
        asked := true
        queued := D } := by
      simp [track,SlotGrid.anchorOrReanchor,hal,he,h.trim,hz,hwrap]
    rw [ht]
    have hb := h.balance
    rw [hz.1,hz.2.1] at hb
    exact
      { sound := { h.sound with }
        period := h.period
        window := h.window
        thresh := h.thresh
        trim := rfl
        balance := by simp only; omega
        unasked := by simp
        phase := .inr ⟨rfl,hq.2,rfl,hz.2.2,by simp only; omega,
          .inr (by simp [h.unasked hq.1])⟩ }
  · rw [if_neg hq] at he
    have ht : w.track (.anchor s) = { w with asked := true } := by
      simp [track,SlotGrid.anchorOrReanchor,hal,he]
    rw [ht]
    refine { h with unasked := by simp, phase := ?_ }
    rcases h.phase with ⟨hn,h0,hz,ho⟩ | ⟨_,hr⟩
    · refine .inl ⟨?_,h0,hz,ho⟩
      rintro ⟨_,ht'⟩
      cases ha : w.asked with
      | false => exact hq ⟨ha,ht'⟩
      | true => exact hn ⟨ha,ht'⟩
    · exact .inr ⟨rfl,hr⟩

private theorem Account.fillPart {w : GridTrace} (h : Account b g₀ D w) {n : Nat}
    (hskip : w.grid.skip = 0) (hpart : w.grid.filled + n < w.grid.window) :
    Account b g₀ D (w.track (.fill n)) := by
  have ht : w.track (.fill n) =
      { w with grid := { w.grid with filled := w.grid.filled + n }, pos := w.pos + n } := by
    simp [track,SlotGrid.fill,hpart]
  have ho : (w.track (.fill n)).offset b = w.offset b := by
    have hw := h.sound.window_lt
    rw [ht]
    simp only [offset,toOpen,hskip,lt_irrefl,if_false]
    congr 1
    omega
  have hphase := h.phase
  rw [← ho,ht] at hphase
  rw [ht]
  exact { h with
    sound := { h.sound with
      filled := hpart
      skip_filled := fun hs => by rw [hskip] at hs; cases hs }
    phase := hphase }

/-- What a close carries over: nothing changes sides, and a rest that is not zero gets smaller. -/
private theorem carried_rest {period window skip : Nat} {pending : Int} (hpos : 0 < window) (hlt : window < period)
    (hs : (skip : Int) = max 0 (min (((period - window : Nat) : Int) + pending) period)) {rest : Int}
    (hrest : rest = ((period - window : Nat) : Int) + pending - skip) :
    (0 ≤ pending → 0 ≤ rest ∧ rest ≤ pending) ∧ (pending ≤ 0 → pending ≤ rest ∧ rest ≤ 0) ∧
      (pending = 0 ∨ rest.natAbs + 1 ≤ pending.natAbs) := by
  obtain ⟨gap,hgap⟩ : ∃ gap : Nat, period = window + gap := ⟨period - window,by omega⟩
  have hsub : period - window = gap := by omega
  rw [hsub] at hs hrest
  rcases Int.le_total 0 pending with hp | hp
  · have hskip : (skip : Int) = min (gap + pending) period := by rw [hs,max_eq_right (by omega)]
    rcases Int.le_total (gap + pending) period with h | h
    · rw [min_eq_left h] at hskip
      omega
    · rw [min_eq_right h] at hskip
      omega
  · rw [min_eq_left (by omega)] at hs
    rcases Int.le_total 0 (gap + pending) with h | h
    · rw [max_eq_right h] at hs
      omega
    · rw [max_eq_left h] at hs
      omega

private theorem Account.fillClose {w : GridTrace} (h : Account b g₀ D w)
    (hlo : -(g₀.period : Int) < 2 * D) (hhi : 2 * D ≤ g₀.period)
    (hfit : ((g₀.period - g₀.window : Nat) : Int) + D < 2^31) {n : Nat}
    (hskip : w.grid.skip = 0) (hn : n ≤ w.grid.room)
    (hclose : ¬ w.grid.filled + n < w.grid.window) : Account b g₀ D (w.track (.fill n)) := by
  obtain ⟨hb1,hb2,hb3⟩ := h.pending_bounds hlo hhi
  have hroom : n = w.grid.room := by unfold SlotGrid.room at hn ⊢; omega
  obtain ⟨skip,hs,he⟩ := fill_close h.sound hclose (by rw [h.period]; omega) (by
    have hpl := h.sound.period_lt
    rw [h.period] at hpl
    rw [h.period,h.window]
    omega)
  have hrest := carried_rest h.sound.window_pos h.sound.window_lt hs rfl
  have hgap : w.nominalGap = ((w.grid.period - w.grid.window : Nat) : Int) := rfl
  have hmoved : w.grid.pendingShift - (skip - w.nominalGap) =
      ((w.grid.period - w.grid.window : Nat) : Int) + w.grid.pendingShift - skip := by
    rw [hgap]
    ring
  have hs' : skip ≤ w.grid.period := by
    rw [← Int.ofNat_le,hs]
    exact max_le (Int.natCast_nonneg _) (min_le_right _ _)
  generalize ((w.grid.period - w.grid.window : Nat) : Int) + w.grid.pendingShift - skip = rest at he hrest hmoved
  obtain ⟨hup,hdown,hless⟩ := hrest
  have hoff := offset_fill_close b (w.grid.fill n).1 h.sound hskip hroom
    (by rw [he]) (by rw [he]) (by rw [he])
  have ht : w.track (.fill n) = { w with
      grid := (w.grid.fill n).1
      pos := w.pos + n
      closes := if w.asked then w.closes + 1 else w.closes
      applied := w.applied + (skip - w.nominalGap) } := by
    simp [track,he]
  have ho : (w.track (.fill n)).offset b =
      centered w.grid.period (b - w.pos - toOpen w.grid - (skip - w.nominalGap)) := by
    rw [ht]
    simp only [offset]
    rw [hoff,he]
  have hsub := centered_sub (p := w.grid.period) (b - w.pos - toOpen w.grid) (skip - w.nominalGap)
  rw [ht] at ho ⊢
  refine
    { sound := by rw [he]; exact sound_fill_close h.sound hs'
      period := by rw [he]; exact h.period
      window := by rw [he]; exact h.window
      thresh := by rw [he]; exact h.thresh
      trim := by rw [he]
      balance := by
        have hbalance := h.balance
        rw [he]
        simp only
        linarith only [hbalance,hmoved]
      unasked := fun ha => by
        have ha' : w.asked = false := ha
        simp [ha',h.unasked ha']
      phase := ?_ }
  rw [ho]
  rcases h.phase with ⟨hq,h0,hz,hD⟩ | ⟨ha,hthr,hqD,hD,hbet,hcl⟩
  · have hr : rest = 0 := le_antisymm (hdown hz.le).2 (hup hz.ge).1
    have hsk : (skip : Int) - w.nominalGap = 0 := by linarith only [hmoved,hz,hr]
    refine .inl ⟨hq,h0,?_,?_⟩
    · rw [he]
      exact hr
    · rw [hsk,sub_zero]
      exact hD
  · have hD' : centered w.grid.period (b - w.pos - toOpen w.grid) = w.grid.pendingShift := hD
    have hbounds : -(w.grid.period : Int) < 2 * rest ∧ 2 * rest ≤ w.grid.period := by
      rw [h.period]
      rcases Int.le_total 0 w.grid.pendingShift with hp | hp
      · obtain ⟨hr0,hr⟩ := hup hp
        exact ⟨by linarith only [hb1,hb2,hr0,hp],by linarith only [hb2,hr]⟩
      · obtain ⟨hr,hr0⟩ := hdown hp
        exact ⟨by linarith only [hb1,hr],by linarith only [hb1,hb2,hr0,hp]⟩
    refine .inr ⟨ha,hthr,hqD,?_,?_,?_⟩
    · rw [hsub (by rw [hD',hmoved]; exact hbounds.1) (by rw [hD',hmoved]; exact hbounds.2),hD',hmoved,he]
    · rw [he]
      rcases hbet with ⟨hp,hle⟩ | ⟨hle,hp⟩
      · exact .inl ⟨(hup hp).1,(hup hp).2.trans hle⟩
      · exact .inr ⟨hle.trans (hdown hp).1,(hdown hp).2⟩
    · rw [he]
      simp only [ha,if_true]
      rcases hless with hz | hless
      · exact .inl (le_antisymm (hdown hz.le).2 (hup hz.ge).1)
      · rcases hcl with hz | hcl
        · exact .inl (le_antisymm (hdown hz.le).2 (hup hz.ge).1)
        · exact .inr (by clear * - hless hcl; omega)

/-- Every legal call keeps the account. -/
theorem Account.step {w : GridTrace} (h : Account b g₀ D w) (hlo : -(g₀.period : Int) < 2 * D)
    (hhi : 2 * D ≤ g₀.period) (hfit : ((g₀.period - g₀.window : Nat) : Int) + D < 2^31)
    (op : GridOp) (hop : Legal b w op) : Account b g₀ D (w.track op) := by
  cases op with
  | takeSkip avail => exact h.takeSkip avail
  | anchor s => exact h.anchor hlo hhi hop
  | fill n =>
    by_cases hpart : w.grid.filled + n < w.grid.window
    · exact h.fillPart hop.1 hpart
    · exact h.fillClose hlo hhi hfit hop.1 hop.2 hpart

end OneStep

/-- The size of the step as the grid sees it: the clock's boundary at `b` against the next
opening. -/
def stepSize (b : Nat) (g : SlotGrid) : Int := (start g).offset b

/-- An anchored grid with nothing pending takes a single clock step exactly once, however the
stream is cut and whenever the clock is asked. What is queued is the one phase error; applied and
pending always add up to it; as many closes as it has samples apply all of it; and once the clock
has been asked no later truthful reading finds an error. -/
theorem clock_step_applied_once (g : SlotGrid) (b : Nat) (ops : List GridOp)
    (hg : Sound g) (hp : g.pendingShift = 0) (ht : g.clockTrim = 0)
    (hfit : ((g.period - g.window : Nat) : Int) + stepSize b g < 2^31)
    (hops : AllSteps (Legal b) track (start g) ops) :
    let w := run track (start g) ops
    w.queued = (if w.asked = true ∧ g.reanchorThresh < (stepSize b g).natAbs
      then stepSize b g else 0) ∧
    w.applied + w.grid.pendingShift = w.queued ∧
    ((stepSize b g).natAbs ≤ w.closes → w.applied = w.queued) ∧
    (w.asked = true ∨ ((stepSize b g).natAbs : Int) ≤ g.reanchorThresh →
      ∀ s, w.TrueDistance b s → w.grid.phaseError s = none) := by
  have hpos : 0 < g.period := by have := hg.window_lt; omega
  obtain ⟨hlo,hhi⟩ := centered_bounds hpos (b - 0 - toOpen g)
  have hD : stepSize b g = centered g.period (b - 0 - toOpen g) := rfl
  rw [← hD] at hlo hhi
  have h0 : Account b g (stepSize b g) (start g) :=
    { sound := hg
      period := rfl
      window := rfl
      thresh := rfl
      trim := ht.trans hp.symm
      balance := by simp [start,hp]
      unasked := fun _ => rfl
      phase := .inl ⟨by simp [start],rfl,hp,rfl⟩ }
  have h := (always_of_allSteps (P := Account b g (stepSize b g))
    (fun w op hw hop => hw.step hlo hhi hfit op hop) h0 hops).last
  dsimp only
  refine ⟨?_,h.balance,?_,?_⟩
  · rcases h.phase with ⟨hn,hq,_,_⟩ | ⟨ha,hthr,hq,_⟩
    · rw [if_neg hn,hq]
    · rw [if_pos ⟨ha,hthr⟩,hq]
  · intro hc
    have hb := h.balance
    rcases h.phase with ⟨_,_,hz,_⟩ | ⟨_,_,_,_,_,hcl⟩
    · omega
    · omega
  · intro hcase s hs
    rw [h.phaseError hlo hhi hs]
    refine if_neg ?_
    rintro ⟨ha,hthr⟩
    rcases hcase with hcase | hcase
    · rw [hcase] at ha
      cases ha
    · omega

/-- A step of −300 on a 800/1000 grid, asked before and after each close. -/
theorem clock_step_minus_300 :
    let g : SlotGrid := ⟨800,1000,20,0,0,0,0,true⟩
    let ops : List GridOp := [.anchor 700,.fill 300,.anchor 400,.fill 500,.anchor 900,.fill 800,
      .takeSkip 40,.takeSkip 100,.anchor 1000]
    let w := run track (start g) ops
    stepSize 700 g = -300 ∧ w.queued = -300 ∧ w.applied + w.grid.pendingShift = -300 ∧
      ∀ s, w.TrueDistance 700 s → w.grid.phaseError s = none := by
  have hops : AllSteps (Legal 700) track (start ⟨800,1000,20,0,0,0,0,true⟩)
      [.anchor 700,.fill 300,.anchor 400,.fill 500,.anchor 900,.fill 800,
        .takeSkip 40,.takeSkip 100,.anchor 1000] := by
    simp only [AllSteps,Legal,TrueDistance]
    decide
  have h := clock_step_applied_once ⟨800,1000,20,0,0,0,0,true⟩ 700 _
    ⟨rfl,by decide,by decide,by decide,by decide,by decide,by decide,by decide,by decide⟩
    rfl rfl (by decide) hops
  refine ⟨by decide,h.1.trans (by decide),
    h.2.1.trans (h.1.trans (by decide)),h.2.2.2 (.inl (by decide))⟩

private theorem empty_window_cycle (n : Nat) (w : GridTrace)
    (hg : w.grid = ⟨0,10,0,0,0,3,3,true⟩) (ha : w.asked = true) :
    let ops := (List.replicate n [GridOp.fill 0,GridOp.takeSkip 10]).flatten
    AllSteps (Legal 3) track w ops ∧ (run track w ops).closes = w.closes + n ∧
      (run track w ops).applied = w.applied ∧ (run track w ops).queued = w.queued := by
  induction n generalizing w with
  | zero => simp [AllSteps]
  | succ n ih =>
    have hfill : w.grid.fill 0 = (⟨0,10,0,0,10,3,3,true⟩,true) := by rw [hg]; decide
    have h1 : w.track (.fill 0) =
        { w with grid := ⟨0,10,0,0,10,3,3,true⟩, closes := w.closes + 1 } := by
      have hgap : w.nominalGap = 10 := by rw [nominalGap,hg]; rfl
      simp [track,hfill,ha,hgap]
    have h2 : (w.track (.fill 0)).track (.takeSkip 10) =
        { w with grid := ⟨0,10,0,0,0,3,3,true⟩, pos := w.pos + 10, closes := w.closes + 1 } := by
      rw [h1]
      rfl
    obtain ⟨hs,hc,hap,hq⟩ := ih ((w.track (.fill 0)).track (.takeSkip 10)) (by rw [h2])
      (by rw [h2]; exact ha)
    refine ⟨⟨by simp [Legal,hg],trivial,hs⟩,hc.trans ?_,hap.trans ?_,hq.trans ?_⟩
    · rw [h2]
      simp only
      omega
    · rw [h2]
    · rw [h2]

/-- Outside that domain the step is lost. With an empty window every gap is already a whole
period, so a late clock's correction is carried for ever; and where gap and correction together
overflow an `i32` the sum wraps and the account no longer balances. -/
theorem clock_step_not_applied :
    (∀ n : Nat,
      let g : SlotGrid := ⟨0,10,0,0,0,0,0,true⟩
      let ops := GridOp.anchor 3 :: (List.replicate n [GridOp.fill 0,GridOp.takeSkip 10]).flatten
      AllSteps (Legal 3) track (start g) ops ∧ (run track (start g) ops).closes = n ∧
        (run track (start g) ops).queued = 3 ∧ (run track (start g) ops).applied = 0) ∧
    (let g : SlotGrid := ⟨1,2^31 - 2,0,0,0,0,0,true⟩
      let ops := [GridOp.anchor (2^30 - 1),GridOp.fill 1]
      AllSteps (Legal (2^30 - 1)) track (start g) ops ∧
        (run track (start g) ops).queued = 2^30 - 1 ∧
        (run track (start g) ops).applied + (run track (start g) ops).grid.pendingShift ≠
          2^30 - 1) := by
  constructor
  · intro n
    have ht : (start ⟨0,10,0,0,0,0,0,true⟩).track (.anchor 3) =
        ⟨⟨0,10,0,0,0,3,3,true⟩,0,true,0,0,3⟩ := by
      simp only [track,start]
      rw [show SlotGrid.phaseError ⟨0,10,0,0,0,0,0,true⟩ 3 = some 3 by decide,
        show (SlotGrid.anchorOrReanchor ⟨0,10,0,0,0,0,0,true⟩ 3).1 = ⟨0,10,0,0,0,3,3,true⟩ by
          decide]
      rfl
    obtain ⟨hs,hc,ha,hq⟩ := empty_window_cycle n ⟨⟨0,10,0,0,0,3,3,true⟩,0,true,0,0,3⟩ rfl rfl
    dsimp only at hs hc ha hq ⊢
    rw [run_cons,ht]
    refine ⟨⟨by simp [Legal,TrueDistance,start],by rw [ht]; exact hs⟩,hc.trans (by simp),hq,ha⟩
  · refine ⟨?_,by decide,by decide⟩
    simp only [AllSteps,Legal,TrueDistance]
    decide

end GridTrace
end MfskCore.Embedded
