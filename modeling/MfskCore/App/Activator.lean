import MfskCore.Library.Machine
import MfskCore.Rust.Text
import Mathlib.Data.Prod.Lex

/-! The CQ-side state machine of an unattended activation (`activator.rs`). Periods are
naturals, so `saturating_sub` is their subtraction; the two `u16` counters saturate. -/
namespace MfskCore.App
open Rust Library

/-- `Iterator::max_by_key`: of several greatest elements the last one. -/
def maxByKey {α κ : Type} [LE κ] [DecidableLE κ] (key : α → κ) : List α → Option α
  | [] => none
  | a :: l => some (l.foldl (fun best x => if key best ≤ key x then x else best) a)

/-- `Iterator::min_by_key` as a position: of several least elements the first one. -/
def minPosByKey {α κ : Type} [LT κ] [DecidableLT κ] (key : α → κ) (l : List α) : Option Nat :=
  match l with
  | [] => none
  | a :: rest => some (rest.zipIdx.foldl
      (fun (best : α × Nat) x => if key x.1 < key best.1 then (x.1,x.2 + 1) else best) (a,0)).2

/-- `Vec::push` on a heapless vector, the result ignored. -/
def pushCap {α : Type} (cap : Nat) (l : List α) (x : α) : List α :=
  if l.length < cap then l ++ [x] else l

/-- Room is made by removing the oldest element of a full vector. -/
def pushEvict {α : Type} (cap : Nat) (l : List α) (x : α) : List α :=
  pushCap cap (if l.length = cap then l.eraseIdx 0 else l) x

/-- `u16::saturating_add(1)`. -/
def succU16 (n : Nat) : Nat := min (n + 1) 65535

abbrev Call := HString 13

structure Config where
  targetQsos : Nat
  giveUpPeriods : Nat
  gracePeriods : Nat
  idleStopPeriods : Nat
  deriving DecidableEq

inductive Exchange where
  | none
  | grid (g : HString 6)
  | report (r : Int)
  | rReport (r : Int)
  | rrr
  | rr73
  | s73
  deriving DecidableEq

def Exchange.stage : Exchange → Nat
  | .none | .grid _ => 0
  | .report _ => 1
  | .rReport _ | .rrr | .rr73 => 2
  | .s73 => 3

structure Heard where
  sender : Call
  exchange : Exchange
  snr : Int
  deriving DecidableEq

def Heard.rank (h : Heard) : Nat ×ₗ Int := toLex (h.exchange.stage,h.snr)

inductive TxMsg where
  | cq
  | std (dest : Call) (exchange : HString 6)
  deriving DecidableEq

structure QsoRecord where
  call : Call
  grid : HString 6
  rstSent : Int
  rstRcvd : Option Int
  onPeriod : Nat
  offPeriod : Nat
  deriving DecidableEq

inductive Phase where
  | stopped
  | cq
  | working
  | done
  deriving DecidableEq

structure Decision where
  tx : Option TxMsg
  logged : Option QsoRecord
  phase : Phase
  loggedTotal : Nat
  deriving DecidableEq

structure Partner where
  call : Call
  grid : HString 6
  rstSent : Int
  rstRcvd : Option Int
  firstPeriod : Nat
  lastHeard : Nat
  lastTx : TxMsg
  deriving DecidableEq

structure Recent where
  call : Call
  period : Nat
  deriving DecidableEq

def PENDING_MAX : Nat := 8
def PENDING_TTL : Nat := 2
def RECENT_TTL : Nat := 4
def RECENT_MAX : Nat := 16
def DROPPED_MAX : Nat := 4
def POOL_MAX : Nat := 24

structure Activator where
  cfg : Config
  phase : Phase
  partner : Option Partner
  pending : List (Heard × Nat)
  recent : List Recent
  dropped : List Partner
  logged : Nat
  idle : Nat
  doneAt : Nat
  deriving DecidableEq

def clampReport (snr : Int) : Int := max (-50) (min snr 49)

/-- `-07`, `+03`, or with `R` in front. -/
def report (snr : Int) (roger : Bool) : HString 6 :=
  let s : HString 6 := if roger then (HString.empty.push 'R').getD HString.empty else HString.empty
  let v := clampReport snr
  (s.pushStr [if v ≥ 0 then '+' else '-']).pushStr (zeroPadded 2 v.natAbs)

def stdMsg (dest exchange : Str) : Option TxMsg :=
  (HString.ofStr dest).bind fun dest => (HString.ofStr exchange).map fun exchange => .std dest exchange

/-- The most advanced message from `call`. -/
def bestFrom (heard : List Heard) (call : Call) : Option Heard :=
  maxByKey (fun h => h.exchange.stage) (heard.filter (fun h => h.sender = call))

namespace Activator

def new (cfg : Config) : Activator := ⟨cfg,.stopped,none,[],[],[],0,0,0⟩

def start (a : Activator) : Activator :=
  { a with phase := .cq,partner := none,pending := [],recent := [],dropped := [],logged := 0,idle := 0 }

def stop (a : Activator) : Activator := { a with phase := .stopped,partner := none,pending := [] }

def cq (a : Activator) : Activator × Option TxMsg :=
  let a := { a with phase := .cq,idle := succU16 a.idle }
  if 0 < a.cfg.idleStopPeriods ∧ a.cfg.idleStopPeriods < a.idle then
    ({ a with phase := .stopped },none)
  else (a,some .cq)

/-- One caller who is not being answered: kept up to date, added, or put in the place of the
weakest waiting caller. -/
def queueOne (period : Nat) (call : Call) (pending : List (Heard × Nat)) (h : Heard) :
    List (Heard × Nat) :=
  if h.sender = call ∨ h.exchange = .s73 then pending
  else
    match pending.findIdx? (fun x => x.1.sender = h.sender) with
    | some i => pending.set i (h,period)
    | none =>
      if pending.length < PENDING_MAX then pending ++ [(h,period)]
      else
        match minPosByKey (fun x : Heard × Nat => x.1.rank) pending with
        | some i =>
          match pending[i]? with
          | some w => if w.1.rank < h.rank then pending.set i (h,period) else pending
          | none => pending
        | none => pending

def queueOthers (a : Activator) (period : Nat) (heard : List Heard) (call : Call) : Activator :=
  { a with pending := heard.foldl (queueOne period call) a.pending }

/-- RR73 (or 73) is going out: log once, retire the partner, and stop at the target. -/
def finish (a : Activator) (period : Nat) (logged : Option QsoRecord) :
    Activator × Option QsoRecord :=
  match a.partner with
  | none => (a,logged)
  | some p =>
    let a := { a with partner := none }
    let already := a.recent.any (fun r => r.call = p.call)
    let (a,logged) :=
      if !already then
        ({ a with
          logged := succU16 a.logged
          recent := pushEvict RECENT_MAX a.recent ⟨p.call,period⟩ },
          some ⟨p.call,p.grid,p.rstSent,p.rstRcvd,p.firstPeriod,period⟩)
      else
        match a.recent.findIdx? (fun r => r.call = p.call) with
        | some i => ({ a with recent := a.recent.set i ⟨p.call,period⟩ },logged)
        | none => (a,logged)
    let a := { a with phase := .cq }
    if 0 < a.cfg.targetQsos ∧ a.cfg.targetQsos ≤ a.logged then
      ({ a with phase := .done,doneAt := period },logged)
    else (a,logged)

/-- The record the reply to `h` continues, and the dropped partners left: the partner's own, the
one a returning station was dropped with, or a new one. -/
def contact (a : Activator) (period : Nat) (h : Heard) : Partner × List Partner :=
  match a.partner.filter (fun p => p.call = h.sender) with
  | some p => (p,a.dropped)
  | none =>
    match a.dropped.findIdx? (fun p => p.call = h.sender) with
    | some i =>
      ((a.dropped[i]?).getD ⟨h.sender,.empty,clampReport h.snr,none,period,period,.cq⟩,a.dropped.eraseIdx i)
    | none => (⟨h.sender,.empty,clampReport h.snr,none,period,period,.cq⟩,a.dropped)

/-- The reply table for `h`, updating the partner and logging on RR73. -/
def reply (a : Activator) (period : Nat) (h : Heard) (logged : Option QsoRecord) :
    Activator × Option QsoRecord × Option TxMsg :=
  let rstSent := clampReport h.snr
  let (p,dropped) := a.contact period h
  let p := { p with lastHeard := period }
  let a := { a with dropped := dropped }
  let (a,logged,tx) : Activator × Option QsoRecord × Option TxMsg :=
    match h.exchange with
    | .none =>
      let p := { p with rstSent := rstSent }
      ({ a with partner := some p,recent := a.recent.filter (fun r => r.call ≠ h.sender) },logged,
        stdMsg h.sender.chars (report p.rstSent false).chars)
    | .grid g =>
      let p := { p with grid := g,rstSent := rstSent }
      ({ a with partner := some p,recent := a.recent.filter (fun r => r.call ≠ h.sender) },logged,
        stdMsg h.sender.chars (report p.rstSent false).chars)
    | .report r =>
      let p := { p with rstRcvd := some r }
      ({ a with partner := some p,recent := a.recent.filter (fun r => r.call ≠ h.sender) },logged,
        stdMsg h.sender.chars (report p.rstSent true).chars)
    | .rReport r =>
      let p := { p with rstRcvd := some r }
      let (a,logged) := finish { a with partner := some p } period logged
      (a,logged,stdMsg h.sender.chars "RR73".toList)
    | .rrr | .rr73 =>
      let (a,logged) := finish { a with partner := some p } period logged
      (a,logged,stdMsg h.sender.chars "73".toList)
    | .s73 => ({ a with partner := none },logged,none)
  let a := match tx, a.partner with
    | some t, some p => { a with partner := some { p with lastTx := t } }
    | _, _ => a
  let a := if tx.isSome && a.partner.isSome && a.phase = .cq then { a with phase := .working } else a
  (a,logged,tx)

/-- This period's callers and the waiting ones, a 73 needing no answer. -/
def pool (a : Activator) (heard : List Heard) : List Heard :=
  let pool := heard.foldl (pushCap POOL_MAX) []
  let pool := a.pending.foldl (fun pool x =>
    if pool.any (fun y => y.sender = x.1.sender) then pool else pushCap POOL_MAX pool x.1) pool
  pool.filter (fun h => h.exchange ≠ .s73)

def pick (a : Activator) (heard : List Heard) : Option Heard := maxByKey Heard.rank (a.pool heard)

/-- Answer the best of this period's callers and the waiting ones, or call CQ. -/
def nextCallerOrCq (a : Activator) (period : Nat) (heard : List Heard) (logged : Option QsoRecord) :
    Activator × Option QsoRecord × Option TxMsg :=
  match a.pick heard with
  | some h =>
    let a := { a with pending := a.pending.filter (fun x => x.1.sender ≠ h.sender) }
    let (a,logged,tx) := a.reply period h logged
    let a := a.queueOthers period heard h.sender
    if tx.isSome then ({ a with idle := 0 },logged,tx)
    else
      let (a,tx) := a.cq
      (a,logged,tx)
  | none =>
    let (a,tx) := a.cq
    (a,logged,tx)

/-- What has waited too long is forgotten before anything is decided. -/
def expire (a : Activator) (period : Nat) : Activator :=
  { a with
    pending := a.pending.filter (fun x => period - x.2 ≤ PENDING_TTL)
    recent := a.recent.filter (fun r => period - r.period ≤ RECENT_TTL) }

/-- A partner gone quiet is remembered among the last few. -/
def dropPartner (a : Activator) (p : Partner) : Activator :=
  { a with partner := none,dropped := pushEvict DROPPED_MAX a.dropped p }

def decideActive (a : Activator) (period : Nat) (heard : List Heard) :
    Activator × Option QsoRecord × Option TxMsg :=
  let a := a.expire period
  match a.partner with
  | some p =>
    match bestFrom heard p.call with
    | some h =>
      let (a,logged,tx) := a.reply period h none
      let a := a.queueOthers period heard p.call
      match tx with
      | some tx => (a,logged,some tx)
      | none => a.nextCallerOrCq period [] logged
    | none =>
      if period - p.lastHeard < a.cfg.giveUpPeriods then
        (a.queueOthers period heard p.call,none,some p.lastTx)
      else (a.dropPartner p).nextCallerOrCq period heard none
  | none => a.nextCallerOrCq period heard none

/-- Target reached: a logged partner who repeats R±NN still gets RR73 for a while. -/
def decideDone (a : Activator) (period : Nat) (heard : List Heard) : Activator × Option TxMsg :=
  if period - a.doneAt > a.cfg.gracePeriods then ({ a with phase := .stopped },none)
  else
    match heard.find? (fun h => a.recent.any (fun r => r.call = h.sender) &&
      (match h.exchange with | .rReport _ => true | _ => false)) with
    | some h => (a,stdMsg h.sender.chars "RR73".toList)
    | none => (a,none)

/-- What to send in own period `period`, given the messages decoded since the last call. -/
def decide (a : Activator) (period : Nat) (heard : List Heard) : Activator × Decision :=
  let (a,logged,tx) : Activator × Option QsoRecord × Option TxMsg :=
    match a.phase with
    | .stopped => (a,none,none)
    | .done =>
      let (a,tx) := a.decideDone period heard
      (a,none,tx)
    | .cq | .working => a.decideActive period heard
  (a,⟨tx,logged,a.phase,a.logged⟩)

end Activator
end MfskCore.App
