import MfskCore.Library.Machine
import MfskCore.Rust.Int32

/-! The FT4 capture window's place on the slot grid (`apps/ft4_grid.rs`). Sample counts are
naturals, phase figures are `i32`. -/
namespace MfskCore.Embedded
open Rust Library

structure SlotGrid where
  window : Nat
  period : Nat
  reanchorThresh : Int
  filled : Nat
  skip : Nat
  pendingShift : Int
  clockTrim : Int
  aligned : Bool
  deriving DecidableEq

inductive Anchor where
  | kept
  | discardPartial
  deriving DecidableEq

namespace SlotGrid

def new (window period : Nat) (reanchorThresh : Int) : SlotGrid :=
  ⟨window,period,reanchorThresh,0,0,0,0,false⟩

def isAligned (g : SlotGrid) : Bool := g.aligned

/-- Samples from the accumulator to the next opening; mid-window the nominal gap is assumed. -/
def samplesToNextWindowOpen (g : SlotGrid) : Int :=
  if 0 < g.skip then asI32 g.skip
  else wrapI32 (asI32 (g.window - g.filled) + asI32 (g.period - g.window))

/-- The clock's disagreement with the grid, net of what the clock has already queued. -/
def phaseError (g : SlotGrid) (samplesToBoundaryFromHere : Nat) : Option Int :=
  let period := asI32 g.period
  let want := asI32 (samplesToBoundaryFromHere % g.period)
  let have_ := g.samplesToNextWindowOpen
  let delta := (wrapI32 (want - have_)).tmod period
  let delta :=
    if delta > period.tdiv 2 then wrapI32 (delta - period)
    else if delta ≤ (wrapI32 (-period)).tdiv 2 then wrapI32 (delta + period)
    else delta
  let residual := wrapI32 (delta - g.clockTrim)
  if (residual.natAbs : Int) > g.reanchorThresh then some residual else none

def anchorOrReanchor (g : SlotGrid) (samplesToBoundaryFromHere : Nat) : SlotGrid × Anchor :=
  if !g.aligned then
    ({ g with
      skip := samplesToBoundaryFromHere % g.period
      filled := 0
      pendingShift := 0
      clockTrim := 0
      aligned := true },
      if 0 < g.filled then .discardPartial else .kept)
  else match g.phaseError samplesToBoundaryFromHere with
    | some delta =>
      ({ g with
        pendingShift := wrapI32 (g.pendingShift + delta)
        clockTrim := wrapI32 (g.clockTrim + delta) },.kept)
    | none => (g,.kept)

/-- The DT-median trim. -/
def shiftNextWindow (g : SlotGrid) (deltaSamples : Int) : SlotGrid :=
  { g with pendingShift := wrapI32 (g.pendingShift + deltaSamples) }

def takeSkip (g : SlotGrid) (avail : Nat) : SlotGrid × Nat :=
  ({ g with skip := g.skip - min g.skip avail },min g.skip avail)

def room (g : SlotGrid) : Nat := g.window - g.filled

/-- The gap a closing window asks for, before it is clamped to `[0, period]`. -/
def wantSkip (g : SlotGrid) : Int := wrapI32 (asI32 (g.period - g.window) + g.pendingShift)

def fill (g : SlotGrid) (n : Nat) : SlotGrid × Bool :=
  if g.filled + n < g.window then ({ g with filled := g.filled + n },false)
  else
    let skip := (max 0 (min g.wantSkip (asI32 g.period))).toNat
    let pending := wrapI32 (g.wantSkip - asI32 skip)
    ({ g with filled := 0, skip := skip, pendingShift := pending, clockTrim := pending },true)

end SlotGrid
end MfskCore.Embedded
