import MfskCore.Rust.Text

/-! The dry-run QSO state machine of `mfsk-app-shared/src/qso.rs`, field for field.
Each method returns the manager it leaves behind beside its result. -/
namespace MfskCore.App
open Rust

/-- One bit of slot identity (`parity.rs`). -/
inductive Parity where
  | even
  | odd
  deriving DecidableEq, Repr

namespace Parity

def fromSlotIndex (slot : Nat) : Parity := if slot % 2 = 0 then .even else .odd

def opposite : Parity → Parity
  | .even => .odd
  | .odd => .even

end Parity

inductive QsoState where
  | idle
  | calling
  | report
  | final
  deriving DecidableEq, Repr

/-- The three slots of a standard message. -/
structure TxIntent where
  call1 : HString 13
  call2 : HString 13
  report : HString 8
  deriving DecidableEq

def makeIntent (c1 c2 rpt : Str) : TxIntent where
  call1 := HString.empty.pushClamped c1
  call2 := HString.empty.pushClamped c2
  report := HString.empty.pushClamped rpt

/-- The three-character `±NN` behind an optional `R`. -/
def parseReport (s : Str) : Option (HString 8) :=
  let rest := (stripPrefix ['R'] s).getD s
  match rest with
  | [sign,d1,d2] =>
    if (sign = '+' ∨ sign = '-') ∧ isAsciiDigit d1 ∧ isAsciiDigit d2 then
      some (HString.empty.pushClamped rest)
    else none
  | _ => none

def maxRetries : Nat := 5
def finalMaxRetries : Nat := 3

structure QsoManager where
  state : QsoState
  myCall : HString 11
  myGrid : HString 6
  dxCall : HString 11
  dxGrid : HString 6
  txReport : HString 8
  rxReport : HString 8
  rxSnr : Int
  retryCount : Nat
  cqSuffix : HString 8
  autoCqEnabled : Bool
  peerParity : Option Parity
  selfTxParity : Option Parity
  deriving DecidableEq

namespace QsoManager
variable [CaseMap]

def new (myCall myGrid : Str) : QsoManager where
  state := .idle
  myCall := HString.empty.pushUpper myCall
  myGrid := HString.empty.pushUpper myGrid
  dxCall := .empty
  dxGrid := .empty
  txReport := .empty
  rxReport := .empty
  rxSnr := -10
  retryCount := 0
  cqSuffix := .empty
  autoCqEnabled := false
  peerParity := none
  selfTxParity := none

def setAutoCq (q : QsoManager) (on : Bool) : QsoManager := { q with autoCqEnabled := on }

def setRxSnr (q : QsoManager) (snr : Int) : QsoManager := { q with rxSnr := snr }

def reset (q : QsoManager) : QsoManager :=
  { q with
    state := .idle
    dxCall := .empty
    dxGrid := .empty
    txReport := .empty
    rxReport := .empty
    retryCount := 0
    peerParity := none
    selfTxParity := none }

/-- The slot opposite the peer's once that is locked, else the one first used. -/
def preferredTxParity (q : QsoManager) : Option Parity :=
  match q.peerParity with
  | some p => some p.opposite
  | none => q.selfTxParity

def recordSelfTx (q : QsoManager) (txSlot : Nat) : QsoManager :=
  if q.selfTxParity.isNone then { q with selfTxParity := some (.fromSlotIndex txSlot) } else q

def cqIntent (q : QsoManager) : TxIntent where
  call1 :=
    let call1 : HString 13 := HString.empty.pushStr "CQ".toList
    if q.cqSuffix.isEmpty then call1
    else (call1.pushStr [' ']).pushClamped q.cqSuffix.chars
  call2 := HString.empty.pushClamped q.myCall.chars
  report := HString.empty.pushClamped q.myGrid.chars

/-- `±NN` from the measured SNR, clamped to what the message can carry. -/
def autoReport (q : QsoManager) : HString 8 :=
  let snr := max (-50) (min q.rxSnr 49)
  if 0 ≤ snr then HString.empty.pushStr ('+' :: zeroPadded 2 snr.toNat)
  else HString.empty.pushStr ('-' :: zeroPadded 2 (-snr).toNat)

def callCq (q : QsoManager) (suffix : Option Str) : QsoManager × TxIntent :=
  let q := { q with
    cqSuffix := match suffix with
      | some s => HString.empty.pushUpper s
      | none => .empty
    state := .calling
    dxCall := .empty
    dxGrid := .empty
    retryCount := 0 }
  (q,q.cqIntent)

def callStation (q : QsoManager) (dx : Str) : QsoManager × TxIntent :=
  let q := { q with
    dxCall := HString.empty.pushUpper dx
    dxGrid := .empty
    state := .calling
    retryCount := 0 }
  (q,makeIntent q.dxCall.chars q.myCall.chars q.myGrid.chars)

/-- What `on_period_end` retransmits. -/
def nextTx (q : QsoManager) : Option TxIntent :=
  match q.state with
  | .calling =>
    if q.dxCall.isEmpty then some q.cqIntent
    else some (makeIntent q.dxCall.chars q.myCall.chars q.myGrid.chars)
  | .report => some (makeIntent q.dxCall.chars q.myCall.chars q.txReport.chars)
  | .final => some (makeIntent q.dxCall.chars q.myCall.chars "73".toList)
  | .idle => none

/-- The auto-CQ transition is taken before the parity gate, so it stays even when the gate
then withholds the message. -/
def pickTxIntent (q : QsoManager) (curPar : Parity) : QsoManager × Option TxIntent :=
  let (q,intent) := match q.nextTx with
    | some i => (q,some i)
    | none =>
      if q.autoCqEnabled ∧ q.state = .idle then
        let (q',i) := q.callCq none
        (q',some i)
      else (q,none)
  match intent with
  | none => (q,none)
  | some i => if curPar = q.preferredTxParity.getD curPar then (q,some i) else (q,none)

def onPeriodEnd (q : QsoManager) : QsoManager × Option TxIntent :=
  if q.state = .idle then (q,none)
  else
    let limit := if q.state = .final then finalMaxRetries else maxRetries
    if limit ≤ q.retryCount then
      if q.state = .final then ({ q with state := .idle },none) else (q.reset,none)
    else
      let q := { q with retryCount := q.retryCount + 1 }
      (q,q.nextTx)

def finishSelfTx (q : QsoManager) (txSlot : Nat) : QsoManager :=
  (q.recordSelfTx txSlot).onPeriodEnd.1

def onIdle (q : QsoManager) (words : List Str) : QsoManager × Option TxIntent :=
  match words with
  | w0 :: w1 :: w2 :: _ =>
    if eqIgnoreAsciiCase w0 q.myCall.chars then
      let q := { q with
        dxCall := HString.empty.pushUpper w1
        dxGrid := HString.empty.pushUpper w2
        txReport := q.autoReport
        state := .report
        retryCount := 0 }
      (q,some (makeIntent q.dxCall.chars q.myCall.chars q.txReport.chars))
    else (q,none)
  | _ => (q,none)

def onCalling (q : QsoManager) (words : List Str) : QsoManager × Option TxIntent :=
  match words with
  | w0 :: responder :: field :: _ =>
    if !eqIgnoreAsciiCase w0 q.myCall.chars then (q,none)
    else if !q.dxCall.isEmpty && !eqIgnoreAsciiCase q.dxCall.chars responder then (q,none)
    else
      let q := { q with
        dxCall := HString.empty.pushUpper responder
        dxGrid := HString.empty.pushUpper field }
      let q := match parseReport field with
        | some rpt =>
          let tx : HString 8 := if ['R'].isPrefixOf rpt.chars then .empty
            else HString.empty.pushStr ['R']
          { q with
            rxReport := HString.empty.pushClamped field
            txReport := tx.pushClamped rpt.chars }
        | none => { q with txReport := q.autoReport }
      let q := { q with state := .report, retryCount := 0 }
      (q,some (makeIntent q.dxCall.chars q.myCall.chars q.txReport.chars))
  | _ => (q,none)

def onReport (q : QsoManager) (words : List Str) : QsoManager × Option TxIntent :=
  match words with
  | w0 :: w1 :: field :: _ =>
    if !eqIgnoreAsciiCase w0 q.myCall.chars || !eqIgnoreAsciiCase w1 q.dxCall.chars then (q,none)
    else if field = "RRR".toList ∨ field = "RR73".toList then
      let q := { q with state := .final, retryCount := 0 }
      (q,some (makeIntent q.dxCall.chars q.myCall.chars "73".toList))
    else if ['R'].isPrefixOf field && (parseReport field.tail).isSome then
      let q := { q with
        rxReport := HString.empty.pushClamped field
        state := .final
        retryCount := 0 }
      (q,some (makeIntent q.dxCall.chars q.myCall.chars "RR73".toList))
    else if (parseReport field).isSome then
      let q := { q with
        rxReport := HString.empty.pushClamped field
        txReport := (HString.empty.pushStr ['R']).pushClamped field }
      (q,some (makeIntent q.dxCall.chars q.myCall.chars q.txReport.chars))
    else (q,none)
  | _ => (q,none)

def onFinal (q : QsoManager) (words : List Str) : QsoManager × Option TxIntent :=
  match words with
  | w0 :: w1 :: field :: _ =>
    if eqIgnoreAsciiCase w0 q.myCall.chars && eqIgnoreAsciiCase w1 q.dxCall.chars &&
        (field == "73".toList || field == "RR73".toList) then ({ q with state := .idle },none)
    else (q,none)
  | _ => (q,none)

/-- The first eight words of the text, the capacity of the word buffer. -/
def words (text : Str) : List Str := (splitWhitespace text).take 8

def dispatch (q : QsoManager) (ws : List Str) : QsoManager × Option TxIntent :=
  match q.state with
  | .idle => q.onIdle ws
  | .calling => q.onCalling ws
  | .report => q.onReport ws
  | .final => q.onFinal ws

def processMessage (q : QsoManager) (text : Str) (rxSlot : Nat) (parityLockOk : Bool) :
    QsoManager × Option TxIntent :=
  if q.myCall.isEmpty then (q,none)
  else if (words text).length < 2 then (q,none)
  else
    let (q,result) := q.dispatch (words text)
    if parityLockOk && q.peerParity.isNone && result.isSome then
      ({ q with peerParity := some (.fromSlotIndex rxSlot) },result)
    else (q,result)

end QsoManager
end MfskCore.App
