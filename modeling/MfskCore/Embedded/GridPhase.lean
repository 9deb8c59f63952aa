import MfskCore.Library.Machine
import MfskCore.Rust.Int64
import Mathlib.Algebra.Order.Group.MinMax
import Mathlib.Data.List.Forall2
import Mathlib.Data.List.Induction

/-! The phase of a slot grid against UTC (`GridPhase` of `time_sync.rs`). Each block is read some delay late, so
the smallest reading of a window is the error of the grid plus the smallest delay. Arithmetic wraps as a release
build's does; a remainder by zero, or one that overflows, panics. -/
namespace MfskCore.Embedded
open Rust Library

/-- The arguments of one `observe`. -/
structure PhaseBlock where
  epoch : Nat
  gridRemain : Int
  clockRemain : Int
  slotLen : Int
  isI64 : IsI64 gridRemain ∧ IsI64 clockRemain ∧ IsI64 slotLen

namespace PhaseBlock

/-- `grid_remain - clock_remain`. -/
def timing (b : PhaseBlock) : Int := wrapI64 (b.gridRemain - b.clockRemain)

/-- The timing modulo the slot, in the half-open interval around zero. -/
def phase (b : PhaseBlock) : Option Int :=
  if b.slotLen = 0 ∨ (b.slotLen = -1 ∧ b.timing = -2^63) then none
  else
    let d := b.timing % b.slotLen
    some (if d > b.slotLen.tdiv 2 then wrapI64 (d - b.slotLen) else d)

end PhaseBlock

structure GridPhase where
  min : Option Int
  n : Nat
  epoch : Option Nat
  deriving DecidableEq

inductive PhaseCall where
  | observe (b : PhaseBlock)
  | take

namespace GridPhase

def MIN_BLOCKS : Nat := 32

def new : GridPhase := ⟨none,0,none⟩

/-- A block on a new epoch restarts the window. -/
def onEpoch (g : GridPhase) (epoch : Nat) : GridPhase :=
  if g.epoch ≠ some epoch then { new with epoch := some epoch } else g

def observe (g : GridPhase) (b : PhaseBlock) : Option GridPhase := do
  let g := g.onEpoch b.epoch
  let d ← b.phase
  return { g with min := some (g.min.elim d fun m => Min.min m d),n := (g.n + 1) % 2^32 }

def take (g : GridPhase) : Option Int × GridPhase := (if g.n ≥ MIN_BLOCKS then g.min else none,new)

def call (g : GridPhase) : PhaseCall → Option GridPhase
  | .observe b => g.observe b
  | .take => some g.take.2

/-- The calls one after the other, as long as none of them panics. -/
def calls (g : GridPhase) (cs : List PhaseCall) : Option GridPhase := cs.foldlM call g

end GridPhase

section Window

/-- The blocks since the last `take` or change of epoch, after one more call. -/
def nextWindow (w : List PhaseBlock) : PhaseCall → List PhaseBlock
  | .observe b => if w.getLast?.map (·.epoch) = some b.epoch then w ++ [b] else [b]
  | .take => []

def window (cs : List PhaseCall) : List PhaseBlock := run nextWindow [] cs

/-- The state, from the blocks of its window. -/
structure GridPhase.Holds (g : GridPhase) (w : List PhaseBlock) : Prop where
  phases : ∃ ds, w.mapM PhaseBlock.phase = some ds ∧ g.min = ds.min?
  n : g.n = w.length % 2^32
  epoch : g.epoch = w.getLast?.map (·.epoch)

private theorem min?_concat (ds : List Int) (d : Int) :
    (ds ++ [d]).min? = some (ds.min?.elim d fun m => min m d) := by
  cases ds with
  | nil => rfl
  | cons a ds => simp only [List.cons_append,List.min?_cons',List.foldl_append,List.foldl_cons,List.foldl_nil,Option.elim]

theorem GridPhase.holds_new : GridPhase.new.Holds [] := ⟨⟨[],rfl,rfl⟩,rfl,rfl⟩

theorem GridPhase.Holds.call {g g' : GridPhase} {w : List PhaseBlock} (h : g.Holds w) {c : PhaseCall}
    (hc : g.call c = some g') : g'.Holds (nextWindow w c) := by
  cases c with
  | take =>
    obtain rfl := Option.some.inj hc
    exact GridPhase.holds_new
  | observe b =>
    obtain ⟨d,hd,hg⟩ := Option.bind_eq_some_iff.1 hc
    obtain rfl := Option.some.inj hg
    obtain ⟨ds,hds,hmin⟩ := h.phases
    by_cases hepoch : w.getLast?.map (·.epoch) = some b.epoch
    · have hsame : g.onEpoch b.epoch = g := if_neg (not_not.2 (h.epoch.trans hepoch))
      have hnext : nextWindow w (.observe b) = w ++ [b] := if_pos hepoch
      rw [hsame,hnext]
      refine ⟨⟨ds ++ [d],?_,?_⟩,?_,?_⟩
      · rw [List.mapM_append,hds,List.mapM_cons,hd]
        rfl
      · rw [min?_concat,hmin]
      · rw [List.length_append,List.length_singleton,h.n,Nat.mod_add_mod]
      · rw [List.getLast?_concat]
        exact h.epoch.trans hepoch
    · have hfresh : g.onEpoch b.epoch = ⟨none,0,some b.epoch⟩ := if_pos fun heq => hepoch (h.epoch.symm.trans heq)
      have hnext : nextWindow w (.observe b) = [b] := if_neg hepoch
      rw [hfresh,hnext]
      refine ⟨⟨[d],?_,rfl⟩,rfl,rfl⟩
      rw [List.mapM_cons,hd]
      rfl

theorem GridPhase.Holds.calls {g g' : GridPhase} {w : List PhaseBlock} (h : g.Holds w) {cs : List PhaseCall}
    (hcs : g.calls cs = some g') : g'.Holds (run nextWindow w cs) := by
  induction cs generalizing g w with
  | nil =>
    obtain rfl := Option.some.inj hcs
    exact h
  | cons c cs ih =>
    obtain ⟨g1,hg1,hrest⟩ := Option.bind_eq_some_iff.1 hcs
    exact ih (h.call hg1) hrest

end Window

section LeastDelay

/-- The timing of a block is the error `e` of a grid of slots `L` and a delay `d`, in the half-open interval
around zero. -/
structure PhaseBlock.DelayedBy (L e : Int) (b : PhaseBlock) (d : Int) : Prop where
  slotLen : b.slotLen = L
  delay : 0 ≤ d
  above : -L < 2 * (e + d)
  below : 2 * (e + d) ≤ L
  timing : b.timing % L = (e + d) % L

theorem PhaseBlock.DelayedBy.phase {L e d : Int} {b : PhaseBlock} (h : b.DelayedBy L e d) :
    b.phase = some (e + d) := by
  have habove := h.above
  have hbelow := h.below
  have hL : 0 < L := by omega
  have hI64 : IsI64 L := h.slotLen ▸ b.isI64.2.2
  rw [PhaseBlock.phase,h.slotLen,if_neg (by omega),h.timing,Int.tdiv_eq_ediv_of_nonneg hL.le]
  refine congrArg some ?_
  rcases Int.lt_or_le (e + d) 0 with hneg | hpos
  · have hwrap : (e + d) % L = e + d + L := by
      rw [← Int.add_emod_right,Int.emod_eq_of_lt (by omega) (by omega)]
    rw [hwrap,if_pos (by omega),Int.add_sub_cancel]
    exact wrapI64_eq ⟨by unfold IsI64 at hI64; omega,by unfold IsI64 at hI64; omega⟩
  · rw [Int.emod_eq_of_lt hpos (by omega),if_neg (by omega)]

private theorem phases_of_delayed {L e : Int} {w : List PhaseBlock} {ds : List Int}
    (h : List.Forall₂ (fun b d => b.DelayedBy L e d) w ds) : w.mapM PhaseBlock.phase = some (ds.map (e + ·)) := by
  induction h with
  | nil => rfl
  | cons hb _ ih =>
    rw [List.mapM_cons,hb.phase,ih]
    rfl

private theorem min?_shift (e : Int) (ds : List Int) : (ds.map (e + ·)).min? = ds.min?.map (e + ·) := by
  induction ds using List.reverseRecOn with
  | nil => rfl
  | append_singleton ds d ih =>
    rw [List.map_append,List.map_singleton,min?_concat,min?_concat,ih]
    cases ds.min? with
    | none => rfl
    | some m => exact congrArg some (min_add_add_left e m d)

/-- Where every block of the window comes with a delay of its own on top of one error, what is read is that error with the
least of the delays, and nothing is read before there are 32 blocks. -/
def ReadsLeastDelay (cs : List PhaseCall) (g : GridPhase) : Prop :=
  ∀ L e ds, List.Forall₂ (fun b d => b.DelayedBy L e d) (window cs) ds →
    g.take.1 = if 32 ≤ (window cs).length then ds.min?.map (e + ·) else none

/-- The least delay is read off a window of fewer than `2^32` blocks, and a new epoch discards what came before. -/
theorem grid_phase_least_delay {cs : List PhaseCall} {g : GridPhase} (h : GridPhase.new.calls cs = some g)
    (hcount : (window cs).length < 2^32) :
    ReadsLeastDelay cs g ∧ ∀ b, g.epoch ≠ some b.epoch → g.observe b = GridPhase.new.observe b := by
  have hholds : g.Holds (window cs) := GridPhase.holds_new.calls h
  refine ⟨fun L e ds hds => ?_,fun b hb => ?_⟩
  · obtain ⟨phases,hphases,hmin⟩ := hholds.phases
    obtain rfl := Option.some.inj ((phases_of_delayed hds).symm.trans hphases)
    rw [GridPhase.take,hholds.n,Nat.mod_eq_of_lt hcount,hmin,min?_shift]
    rfl
  · have hfresh : g.onEpoch b.epoch = GridPhase.new.onEpoch b.epoch :=
      (if_pos hb).trans (if_pos (fun hnone => by cases hnone)).symm
    rw [GridPhase.observe,GridPhase.observe,hfresh]

/-- A block without error and without delay, on a grid of slots of two samples. -/
def stillBlock : PhaseBlock := ⟨0,0,0,2,by decide⟩

theorem stillBlock_delayed : stillBlock.DelayedBy 2 0 0 := ⟨rfl,by decide,by decide,by decide,by decide⟩

/-- One block, over and over. -/
private theorem calls_replicate {b : PhaseBlock} {d : Int} (hb : b.phase = some d) (k : Nat) :
    GridPhase.new.calls (List.replicate (k + 1) (.observe b)) = some ⟨some d,(k + 1) % 2^32,some b.epoch⟩ := by
  induction k with
  | zero =>
    rw [List.replicate_one,GridPhase.calls,List.foldlM_cons,GridPhase.call,GridPhase.observe,hb]
    rfl
  | succ k ih =>
    have hsame : GridPhase.onEpoch ⟨some d,(k + 1) % 2^32,some b.epoch⟩ b.epoch =
        ⟨some d,(k + 1) % 2^32,some b.epoch⟩ := if_neg (not_not.2 rfl)
    rw [List.replicate_succ',GridPhase.calls,List.foldlM_append,← GridPhase.calls,ih,Option.bind_eq_bind,
      Option.bind_some,List.foldlM_cons,GridPhase.call,GridPhase.observe,hsame,hb]
    simp only [List.foldlM_nil,Option.bind_eq_bind,Option.bind_some,Option.pure_def,Option.elim_some,min_self,
      Nat.mod_add_mod]

private theorem window_replicate (b : PhaseBlock) (k : Nat) :
    window (List.replicate (k + 1) (.observe b)) = List.replicate (k + 1) b := by
  induction k with
  | zero => rfl
  | succ k ih =>
    rw [List.replicate_succ',window,run_append,← window,ih,run_cons,run_nil]
    refine (if_pos ?_).trans List.replicate_succ'.symm
    rw [List.getLast?_replicate,if_neg (Nat.succ_ne_zero k)]
    rfl

/-- After `2^32` blocks the count is back at zero, and a window of them gives no reading. -/
theorem grid_phase_count_wraps :
    ¬∀ cs g, GridPhase.new.calls cs = some g → ReadsLeastDelay cs g := by
  intro hall
  obtain ⟨k,hk⟩ : ∃ k, k + 1 = 2^32 := ⟨2^32 - 1,by decide⟩
  have hread := hall _ _ (calls_replicate stillBlock_delayed.phase k) 2 0 (List.replicate (k + 1) 0)
  rw [window_replicate,List.length_replicate,hk,Nat.mod_self,if_pos (by decide),← hk,
    List.min?_replicate_of_pos (Nat.succ_pos k)] at hread
  refine absurd (hread ?_) (by simp [GridPhase.take,GridPhase.MIN_BLOCKS])
  refine List.forall₂_iff_zip.2 ⟨by simp,fun hmem => ?_⟩
  obtain ⟨hb,hd⟩ := List.of_mem_zip hmem
  rw [List.eq_of_mem_replicate hb,List.eq_of_mem_replicate hd]
  exact stillBlock_delayed

theorem grid_phase_least_delay_early :
    let cs : List PhaseCall := List.replicate 32 (.observe ⟨0,-108,0,180000,by decide⟩)
    ∃ g, GridPhase.new.calls cs = some g ∧ ReadsLeastDelay cs g ∧ g.take.1 = some (-108) := by
  intro cs
  have hcs : GridPhase.new.calls cs = some ⟨some (-108),32,some 0⟩ := calls_replicate (by decide) 31
  have hcount : (window cs).length < 2^32 := by
    rw [window_replicate _ 31,List.length_replicate]
    decide
  exact ⟨_,hcs,(grid_phase_least_delay hcs hcount).1,rfl⟩

end LeastDelay

end MfskCore.Embedded
