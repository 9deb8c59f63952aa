import MfskCore.App.Qso
import MfskCore.Library.Machine

/-! Runs of the QSO state machine: which parity lock belongs to which contact, and whether
the reply it announces is the one it goes on to send. -/
namespace MfskCore.App
open Rust Library

/-- The public calls that change a manager. -/
inductive QsoOp where
  | callCq (suffix : Option Str)
  | callStation (dx : Str)
  | processMessage (text : Str) (rxSlot : Nat) (parityLockOk : Bool)
  | onPeriodEnd
  | reset
  | setAutoCq (on : Bool)
  | setRxSnr (snr : Int)
  | recordSelfTx (txSlot : Nat)
  | pickTxIntent (curPar : Parity)
  | finishSelfTx (txSlot : Nat)

/-- A message that advanced a contact: who sent it and the slot it was received in. -/
structure Received where
  sender : Str
  slot : Nat
  deriving DecidableEq

/-- The sender's word is the station's call, by the comparison the machine makes or as it
stores a call. -/
def Received.sentBy [CaseMap] (m : Received) (dx : HString 11) : Prop :=
  eqIgnoreAsciiCase m.sender dx.chars = true ∨ HString.empty.pushUpper m.sender = dx

namespace QsoManager
variable [CaseMap]

def step (q : QsoManager) : QsoOp → QsoManager
  | .callCq suffix => (q.callCq suffix).1
  | .callStation dx => (q.callStation dx).1
  | .processMessage text rxSlot ok => (q.processMessage text rxSlot ok).1
  | .onPeriodEnd => q.onPeriodEnd.1
  | .reset => q.reset
  | .setAutoCq on => q.setAutoCq on
  | .setRxSnr snr => q.setRxSnr snr
  | .recordSelfTx txSlot => q.recordSelfTx txSlot
  | .pickTxIntent curPar => (q.pickTxIntent curPar).1
  | .finishSelfTx txSlot => q.finishSelfTx txSlot

/-- The call begins a new contact: a CQ, a directed call, an automatic CQ, or a station
accepted while idle. -/
def opensQso (q : QsoManager) : QsoOp → Bool
  | .callCq _ | .callStation _ => true
  | .processMessage text rxSlot ok =>
    q.state = .idle && (q.processMessage text rxSlot ok).2.isSome
  | .pickTxIntent _ => q.autoCqEnabled && q.state = .idle
  | _ => false

/-- A manager beside the messages that advanced its current contact. -/
def track (w : QsoManager × List Received) (op : QsoOp) : QsoManager × List Received :=
  let kept := if w.1.opensQso op then [] else w.2
  (w.1.step op,
    match op with
    | .processMessage text rxSlot ok =>
      if (w.1.processMessage text rxSlot ok).2.isSome then
        kept ++ [⟨(words text).getD 1 [],rxSlot⟩]
      else kept
    | _ => kept)

/-- A locked parity is the slot parity of a message by which the present station advanced the
present contact, and transmissions are steered away from that slot. -/
def ParityOwned (w : QsoManager × List Received) : Prop :=
  ∀ p, w.1.peerParity = some p → ∃ m ∈ w.2, m.sentBy w.1.dxCall ∧
    Parity.fromSlotIndex m.slot = p ∧ w.1.preferredTxParity ≠ some p

/-- A contact is begun only without a lock left over from an earlier one, or with one that
happens to be the slot parity of the call accepted. -/
def OpensUnlocked (w : QsoManager × List Received) (op : QsoOp) : Prop :=
  w.1.opensQso op = true → w.1.peerParity = none ∨
    ∃ text rxSlot ok, op = .processMessage text rxSlot ok ∧
      w.1.peerParity = some (.fromSlotIndex rxSlot)

/-- What an answered message leaves behind: the contact is with its sender, and the parity
locks are as they were. -/
structure Accepts (q : QsoManager) (ws : List Str) (q' : QsoManager) : Prop where
  peer : q'.peerParity = q.peerParity
  self : q'.selfTxParity = q.selfTxParity
  before : q.state ≠ .final
  left : q'.state ≠ .calling
  sender : (q.state ≠ .report ∧ q'.dxCall = HString.empty.pushUpper (ws.getD 1 [])) ∨
    (q.state = .report ∧ q'.dxCall = q.dxCall ∧
      eqIgnoreAsciiCase (ws.getD 1 []) q.dxCall.chars = true)

private theorem onIdle_cases (q : QsoManager) (ws : List Str) (h : q.state = .idle) :
    q.onIdle ws = (q,none) ∨ ∃ q' i, q.onIdle ws = (q',some i) ∧ q.Accepts ws q' := by
  unfold onIdle
  split
  · split
    · exact .inr ⟨_,_,rfl,⟨rfl,rfl,by simp [h],by simp,.inl ⟨by simp [h],rfl⟩⟩⟩
    · exact .inl rfl
  · exact .inl rfl

private theorem onCalling_cases (q : QsoManager) (ws : List Str) (h : q.state = .calling) :
    q.onCalling ws = (q,none) ∨ ∃ q' i, q.onCalling ws = (q',some i) ∧ q.Accepts ws q' := by
  unfold onCalling
  split
  · split
    · exact .inl rfl
    · split
      · exact .inl rfl
      · refine .inr ⟨_,_,rfl,?_⟩
        rename_i field _ _ _
        cases parseReport field
        · exact ⟨rfl,rfl,by simp [h],by simp,.inl ⟨by simp [h],rfl⟩⟩
        · exact ⟨rfl,rfl,by simp [h],by simp,.inl ⟨by simp [h],rfl⟩⟩
  · exact .inl rfl

private theorem onReport_cases (q : QsoManager) (ws : List Str) (h : q.state = .report) :
    q.onReport ws = (q,none) ∨ ∃ q' i, q.onReport ws = (q',some i) ∧ q.Accepts ws q' := by
  unfold onReport
  split
  · rename_i w0 w1 field _
    by_cases hw : (!eqIgnoreAsciiCase w0 q.myCall.chars ||
        !eqIgnoreAsciiCase w1 q.dxCall.chars) = true
    · rw [if_pos hw]
      exact .inl rfl
    · rw [if_neg hw]
      have hd : eqIgnoreAsciiCase w1 q.dxCall.chars = true := by
        simp only [Bool.or_eq_true,not_or,Bool.not_eq_true,Bool.not_eq_false'] at hw
        exact hw.2
      split
      · exact .inr ⟨_,_,rfl,⟨rfl,rfl,by simp [h],by simp,.inr ⟨h,rfl,hd⟩⟩⟩
      · split
        · exact .inr ⟨_,_,rfl,⟨rfl,rfl,by simp [h],by simp,.inr ⟨h,rfl,hd⟩⟩⟩
        · split
          · exact .inr ⟨_,_,rfl,⟨rfl,rfl,by simp [h],by simp [h],.inr ⟨h,rfl,hd⟩⟩⟩
          · exact .inl rfl
  · exact .inl rfl

omit [CaseMap] in
theorem onFinal_cases (q : QsoManager) (ws : List Str) :
    q.onFinal ws = (q,none) ∨ q.onFinal ws = ({ q with state := .idle },none) := by
  unfold onFinal
  split
  · split
    · exact .inr rfl
    · exact .inl rfl
  · exact .inl rfl

/-- Everything a message can do: nothing, end a contact in `Final`, or be answered. -/
theorem dispatch_cases (q : QsoManager) (ws : List Str) :
    q.dispatch ws = (q,none) ∨
    (q.state = .final ∧ q.dispatch ws = ({ q with state := .idle },none)) ∨
    ∃ q' i, q.dispatch ws = (q',some i) ∧ q.Accepts ws q' := by
  unfold dispatch
  cases h : q.state with
  | idle => exact (q.onIdle_cases ws h).imp_right .inr
  | calling => exact (q.onCalling_cases ws h).imp_right .inr
  | report => exact (q.onReport_cases ws h).imp_right .inr
  | final => exact (q.onFinal_cases ws).imp_right fun he => .inl ⟨rfl,he⟩

/-- The same for a whole `process_message`; an answered message may also set the lock. -/
theorem processMessage_cases (q : QsoManager) (text : Str) (rxSlot : Nat) (ok : Bool) :
    q.processMessage text rxSlot ok = (q,none) ∨
    (q.state = .final ∧ q.processMessage text rxSlot ok = ({ q with state := .idle },none)) ∨
    ∃ q' i, q.Accepts (words text) q' ∧
      (q.processMessage text rxSlot ok = (q',some i) ∨ (q.peerParity = none ∧
        q.processMessage text rxSlot ok =
          ({ q' with peerParity := some (.fromSlotIndex rxSlot) },some i))) := by
  unfold processMessage
  split
  · exact .inl rfl
  · split
    · exact .inl rfl
    · rcases q.dispatch_cases (words text) with he | ⟨hf,he⟩ | ⟨q',i,he,ha⟩
      · exact .inl (by simp [he])
      · exact .inr (.inl ⟨hf,by simp [he]⟩)
      · refine .inr (.inr ⟨q',i,ha,?_⟩)
        rw [he]
        dsimp only
        by_cases hl : (ok && q'.peerParity.isNone && (some i).isSome) = true
        · rw [if_pos hl]
          have hn : q'.peerParity = none := by
            simp only [Bool.and_eq_true,Option.isNone_iff_eq_none] at hl
            exact hl.1.2
          exact .inr ⟨ha.peer.symm.trans hn,rfl⟩
        · rw [if_neg hl]
          exact .inl rfl

/-- A message that ends nothing and answers nothing opens nothing. -/
private theorem not_opens_of_none {q : QsoManager} {text : Str} {rxSlot : Nat} {ok : Bool}
    (h : (q.processMessage text rxSlot ok).2 = none) :
    q.opensQso (.processMessage text rxSlot ok) = false := by
  simp [opensQso,h]

private theorem owned_of_unlocked {w : QsoManager × List Received} (h : w.1.peerParity = none) :
    ParityOwned w := by
  intro p hp
  rw [h] at hp
  cases hp

omit [CaseMap] in
private theorem preferred_ne {q : QsoManager} {p : Parity} (h : q.peerParity = some p) :
    q.preferredTxParity ≠ some p := by
  cases p <;> simp [preferredTxParity,h,Parity.opposite]

/-- The lock, the station and the log decide ownership; nothing else does. -/
private theorem owned_congr {q q' : QsoManager} {log : List Received}
    (hp : q'.peerParity = q.peerParity) (hd : q'.dxCall = q.dxCall)
    (h : ParityOwned (q,log)) : ParityOwned (q',log) := by
  intro p he
  obtain ⟨m,hm,hs,hslot,_⟩ := h p (hp.symm.trans he)
  exact ⟨m,hm,by rw [hd]; exact hs,hslot,preferred_ne he⟩

/-- Beginning a contact empties its log, so the lock has to be open. -/
private theorem owned_nil_iff (q : QsoManager) : ParityOwned (q,[]) ↔ q.peerParity = none := by
  refine ⟨fun h => ?_,fun h => owned_of_unlocked h⟩
  cases hp : q.peerParity with
  | none => rfl
  | some p =>
    obtain ⟨m,hm,_⟩ := h p hp
    cases hm

/-- While calling, nobody has answered yet. -/
def CallingUnanswered (w : QsoManager × List Received) : Prop := w.1.state = .calling → w.2 = []

private theorem accepts_sentBy {q q' : QsoManager} {text : Str} {rxSlot : Nat}
    (h : q.Accepts (words text) q') :
    (⟨(words text).getD 1 [],rxSlot⟩ : Received).sentBy q'.dxCall := by
  rcases h.sender with ⟨_,hd⟩ | ⟨_,hd,he⟩
  · exact .inr hd.symm
  · exact .inl (by rw [hd]; exact he)

/-- An answered message keeps ownership except when it opens a contact under a foreign lock. -/
private theorem accepted_owned {w : QsoManager × List Received} {text : Str} {rxSlot : Nat}
    {ok : Bool} {q' : QsoManager} {i : TxIntent} (hc : CallingUnanswered w) (ho : ParityOwned w)
    (ha : w.1.Accepts (words text) q')
    (he : w.1.processMessage text rxSlot ok = (q',some i) ∨ (w.1.peerParity = none ∧
      w.1.processMessage text rxSlot ok =
        ({ q' with peerParity := some (.fromSlotIndex rxSlot) },some i))) :
    ParityOwned (track w (.processMessage text rxSlot ok)) ↔
      OpensUnlocked w (.processMessage text rxSlot ok) := by
  have hs : (⟨(words text).getD 1 [],rxSlot⟩ : Received).sentBy q'.dxCall := accepts_sentBy ha
  have hr : (w.1.processMessage text rxSlot ok).2 = some i := by
    rcases he with he | ⟨_,he⟩ <;> rw [he]
  have hopen : w.1.opensQso (.processMessage text rxSlot ok) = decide (w.1.state = .idle) := by
    simp [opensQso,hr]
  rcases he with he | ⟨hn,he⟩
  · cases hp : w.1.peerParity with
    | none =>
      refine iff_of_true (owned_of_unlocked ?_) (fun _ => .inl hp)
      simp only [track,step,he]
      rw [ha.peer,hp]
    | some p =>
      have hq : (track w (.processMessage text rxSlot ok)).1 = q' := by simp [track,step,he]
      have hq' : q'.peerParity = some p := ha.peer.trans hp
      by_cases hi : w.1.state = .idle
      · have hlog : (track w (.processMessage text rxSlot ok)).2 =
            [⟨(words text).getD 1 [],rxSlot⟩] := by
          simp [track,hopen,hi,hr]
        constructor
        · intro h _
          obtain ⟨m,hm,_,hslot,_⟩ := h p (by rw [hq]; exact hq')
          rw [hlog] at hm
          obtain rfl := List.mem_singleton.mp hm
          exact .inr ⟨_,_,_,rfl,by rw [hp,← hslot]⟩
        · intro h p' hp'
          rcases h (by rw [hopen]; simp [hi]) with h | ⟨_,_,_,heq,h⟩
          · rw [hp] at h
            cases h
          · cases heq
            refine ⟨_,by rw [hlog]; exact List.mem_singleton.mpr rfl,by rw [hq]; exact hs,?_,
              preferred_ne hp'⟩
            rw [hq,ha.peer,h] at hp'
            exact Option.some.inj hp'
      · refine iff_of_true ?_ (fun h => ?_)
        · intro p' hp'
          obtain ⟨m,hm,hms,hslot,_⟩ := ho p' (by rw [hq,ha.peer] at hp'; exact hp')
          have hreport : w.1.state = .report := by
            cases hst : w.1.state with
            | idle => exact absurd hst hi
            | report => rfl
            | calling =>
              rw [hc hst] at hm
              cases hm
            | final => exact absurd hst ha.before
          have hdx : q'.dxCall = w.1.dxCall := by
            rcases ha.sender with ⟨hne,_⟩ | ⟨_,hd,_⟩
            · exact absurd hreport hne
            · exact hd
          refine ⟨m,?_,by rw [hq,hdx]; exact hms,hslot,preferred_ne hp'⟩
          simp [track,hopen,hi,hr,hm]
        · rw [hopen] at h
          simp [hi] at h
  · refine iff_of_true ?_ (fun _ => .inl hn)
    intro p hp
    have hq : (track w (.processMessage text rxSlot ok)).1 =
        { q' with peerParity := some (.fromSlotIndex rxSlot) } := by simp [track,step,he]
    refine ⟨⟨(words text).getD 1 [],rxSlot⟩,?_,by rw [hq]; exact hs,?_,preferred_ne hp⟩
    · simp [track,hr]
    · rw [hq] at hp
      exact Option.some.inj hp

private theorem message_owned {w : QsoManager × List Received} (text : Str) (rxSlot : Nat)
    (ok : Bool) (hc : CallingUnanswered w) (ho : ParityOwned w) :
    ParityOwned (track w (.processMessage text rxSlot ok)) ↔
      OpensUnlocked w (.processMessage text rxSlot ok) := by
  have quiet (q' : QsoManager) (he : w.1.processMessage text rxSlot ok = (q',none))
      (hp : q'.peerParity = w.1.peerParity) (hd : q'.dxCall = w.1.dxCall) :
      ParityOwned (track w (.processMessage text rxSlot ok)) ↔
        OpensUnlocked w (.processMessage text rxSlot ok) := by
    have hn := not_opens_of_none (show (w.1.processMessage text rxSlot ok).2 = none by rw [he])
    refine iff_of_true ?_ (fun h => by rw [hn] at h; cases h)
    have ht : track w (.processMessage text rxSlot ok) = (q',w.2) := by
      simp [track,step,he,hn]
    rw [ht]
    exact owned_congr hp hd ho
  rcases w.1.processMessage_cases text rxSlot ok with he | ⟨_,he⟩ | ⟨q',i,ha,he⟩
  · exact quiet _ he rfl rfl
  · exact quiet _ he rfl rfl
  · exact accepted_owned hc ho ha he

omit [CaseMap] in
/-- A period without an answer leaves the manager alone, ends the contact, or counts a retry. -/
theorem onPeriodEnd_cases (q : QsoManager) :
    q.onPeriodEnd.1 = q ∨ q.onPeriodEnd.1 = { q with state := .idle } ∨
      q.onPeriodEnd.1 = q.reset ∨ q.onPeriodEnd.1 = { q with retryCount := q.retryCount + 1 } := by
  by_cases hi : q.state = .idle
  · exact .inl (by simp [onPeriodEnd,hi])
  · by_cases hl : (if q.state = .final then finalMaxRetries else maxRetries) ≤ q.retryCount
    · by_cases hf : q.state = .final
      · exact .inr (.inl (by rw [onPeriodEnd,if_neg hi,if_pos hl,if_pos hf]))
      · exact .inr (.inr (.inl (by rw [onPeriodEnd,if_neg hi,if_pos hl,if_neg hf])))
    · exact .inr (.inr (.inr (by rw [onPeriodEnd,if_neg hi,if_neg hl])))

private theorem onPeriodEnd_owned {q : QsoManager} {log : List Received}
    (ho : ParityOwned (q,log)) : ParityOwned (q.onPeriodEnd.1,log) := by
  rcases q.onPeriodEnd_cases with he | he | he | he
  · rw [he]
    exact ho
  · exact owned_congr (by rw [he]) (by rw [he]) ho
  · exact owned_of_unlocked (by simp [he,reset])
  · exact owned_congr (by rw [he]) (by rw [he]) ho

omit [CaseMap] in
private theorem recordSelfTx_eq (q : QsoManager) (txSlot : Nat) :
    (q.recordSelfTx txSlot).peerParity = q.peerParity ∧
      (q.recordSelfTx txSlot).dxCall = q.dxCall := by
  unfold recordSelfTx
  split <;> exact ⟨rfl,rfl⟩

theorem pickTxIntent_fst (q : QsoManager) (curPar : Parity) :
    (q.pickTxIntent curPar).1 =
      if q.autoCqEnabled ∧ q.state = .idle then (q.callCq none).1 else q := by
  unfold pickTxIntent
  cases hs : q.state with
  | idle =>
    have hn : q.nextTx = none := by simp [nextTx,hs]
    rw [hn]
    by_cases ha : q.autoCqEnabled = true
    · simp only [ha,true_and,if_true]
      split <;> rfl
    · simp [ha]
  | calling =>
    obtain ⟨i,hi⟩ : ∃ i, q.nextTx = some i := by
      unfold nextTx
      rw [hs]
      dsimp only
      split <;> exact ⟨_,rfl⟩
    rw [hi]
    dsimp only
    simp only [reduceCtorEq,and_false,if_false]
    split <;> rfl
  | report =>
    simp only [nextTx,hs,reduceCtorEq,and_false,if_false]
    split <;> rfl
  | final =>
    simp only [nextTx,hs,reduceCtorEq,and_false,if_false]
    split <;> rfl

/-- Each call keeps ownership exactly when it does not begin a contact under a foreign lock. -/
theorem track_owned_iff (w : QsoManager × List Received) (op : QsoOp)
    (hc : CallingUnanswered w) (ho : ParityOwned w) :
    ParityOwned (track w op) ↔ OpensUnlocked w op := by
  obtain ⟨q,log⟩ := w
  have opened (q' : QsoManager) (hp : q'.peerParity = q.peerParity)
      (hop : q.opensQso op = true) (hm : ∀ text rxSlot ok, op ≠ .processMessage text rxSlot ok) :
      ParityOwned (q',[]) ↔ OpensUnlocked (q,log) op := by
    rw [owned_nil_iff,hp]
    refine ⟨fun h _ => .inl h,fun h => ?_⟩
    rcases h hop with h | ⟨_,_,_,he,_⟩
    · exact h
    · exact absurd he (hm _ _ _)
  cases op with
  | callCq suffix => exact opened _ rfl rfl (by simp)
  | callStation dx => exact opened _ rfl rfl (by simp)
  | processMessage text rxSlot ok => exact message_owned text rxSlot ok hc ho
  | onPeriodEnd => exact iff_of_true (onPeriodEnd_owned ho) (by simp [OpensUnlocked,opensQso])
  | reset => exact iff_of_true (owned_of_unlocked rfl) (by simp [OpensUnlocked,opensQso])
  | setAutoCq on =>
    exact iff_of_true (owned_congr rfl rfl ho) (by simp [OpensUnlocked,opensQso])
  | setRxSnr snr =>
    exact iff_of_true (owned_congr rfl rfl ho) (by simp [OpensUnlocked,opensQso])
  | recordSelfTx txSlot =>
    obtain ⟨hp,hd⟩ := q.recordSelfTx_eq txSlot
    exact iff_of_true (owned_congr hp hd ho) (by simp [OpensUnlocked,opensQso])
  | pickTxIntent curPar =>
    by_cases ha : q.autoCqEnabled = true ∧ q.state = .idle
    · have hop : q.opensQso (.pickTxIntent curPar) = true := by simp [opensQso,ha]
      have ht : track (q,log) (.pickTxIntent curPar) = ((q.callCq none).1,[]) := by
        simp [track,step,hop,pickTxIntent_fst,ha]
      rw [ht]
      exact opened _ rfl hop (by simp)
    · have hop : q.opensQso (.pickTxIntent curPar) = false := by
        simpa [opensQso] using ha
      have ht : track (q,log) (.pickTxIntent curPar) = (q,log) := by
        simp [track,step,hop,pickTxIntent_fst,ha]
      rw [ht]
      exact iff_of_true ho (fun h => by rw [hop] at h; cases h)
  | finishSelfTx txSlot =>
    obtain ⟨hp,hd⟩ := q.recordSelfTx_eq txSlot
    exact iff_of_true (onPeriodEnd_owned (owned_congr hp hd ho))
      (by simp [OpensUnlocked,opensQso])

omit [CaseMap] in
private theorem onPeriodEnd_calling {q : QsoManager} (h : q.onPeriodEnd.1.state = .calling) :
    q.state = .calling := by
  rcases q.onPeriodEnd_cases with he | he | he | he <;> rw [he] at h
  · exact h
  · cases h
  · cases h
  · exact h

/-- `Calling` is entered with an empty log and left by the first answer. -/
theorem track_callingUnanswered (w : QsoManager × List Received) (op : QsoOp)
    (hc : CallingUnanswered w) : CallingUnanswered (track w op) := by
  obtain ⟨q,log⟩ := w
  cases op with
  | callCq suffix => exact fun _ => rfl
  | callStation dx => exact fun _ => rfl
  | processMessage text rxSlot ok =>
    intro h
    rcases q.processMessage_cases text rxSlot ok with he | ⟨_,he⟩ | ⟨q',i,ha,he⟩
    · have hs : q.state = .calling := by simpa [track,step,he] using h
      simpa [track,he,not_opens_of_none] using hc hs
    · simp [track,step,he] at h
    · have hs : q'.state = .calling := by
        rcases he with he | ⟨_,he⟩ <;> simpa [track,step,he] using h
      exact absurd hs ha.left
  | onPeriodEnd => exact fun h => hc (onPeriodEnd_calling h)
  | reset => intro h; cases h
  | setAutoCq on => exact hc
  | setRxSnr snr => exact hc
  | recordSelfTx txSlot =>
    intro h
    refine hc ?_
    simp only [track,step,recordSelfTx] at h
    split at h <;> exact h
  | pickTxIntent curPar =>
    intro h
    by_cases ha : q.autoCqEnabled = true ∧ q.state = .idle
    · simp [track,opensQso,ha]
    · have hs : q.state = .calling := by simpa [track,step,pickTxIntent_fst,ha] using h
      simpa [track,opensQso,hs] using hc hs
  | finishSelfTx txSlot =>
    intro h
    have hs := onPeriodEnd_calling h
    refine hc ?_
    simp only [recordSelfTx] at hs
    split at hs <;> exact hs

/-- A parity lock belongs to the present contact in every state of a run exactly when no
contact of the run is begun under a lock left by an earlier one. -/
theorem parity_owned_iff_opens_unlocked (myCall myGrid : Str) (ops : List QsoOp) :
    Always ParityOwned track (new myCall myGrid,[]) ops ↔
      AllSteps OpensUnlocked track (new myCall myGrid,[]) ops :=
  always_iff_allSteps (I := CallingUnanswered)
    (fun w op hc _ => track_callingUnanswered w op hc)
    (fun w op hc ho => track_owned_iff w op hc ho) (fun _ => rfl) (owned_of_unlocked rfl)

/-- Two contacts in turn, the first with an odd-slot station and closed by its 73, the second
with an even-slot one. -/
def twoContacts : List QsoOp :=
  [.callCq none,
    .processMessage "JL1NIE W1AW FN31".toList 7 true,
    .processMessage "JL1NIE W1AW R-12".toList 9 true,
    .processMessage "JL1NIE W1AW 73".toList 11 true,
    .processMessage "JL1NIE K1ABC FN42".toList 14 true]

omit [CaseMap] in
/-- The second contact keeps the first station's lock and sends into its partner's slot. -/
theorem second_contact_inherits_parity :
    letI := asciiCaseMap
    let w := run track (new "JL1NIE".toList "PM95".toList,[]) twoContacts
    w.1.dxCall.chars = "K1ABC".toList ∧ w.2 = [⟨"K1ABC".toList,14⟩] ∧
      w.1.peerParity = some .odd ∧ w.1.preferredTxParity = some (.fromSlotIndex 14) ∧
      ¬ ParityOwned w := by
  let _ := asciiCaseMap
  have hlog : (run track (new "JL1NIE".toList "PM95".toList,[]) twoContacts).2 =
      [⟨"K1ABC".toList,14⟩] := by decide
  refine ⟨by decide,hlog,by decide,by decide,?_⟩
  intro h
  obtain ⟨m,hm,_,hslot,_⟩ := h .odd (by decide)
  rw [hlog] at hm
  obtain rfl := List.mem_singleton.mp hm
  cases hslot

/-- The partner of a `Report` contact sends a rogered report, `R±NN`. -/
def HearsRogeredReport (q : QsoManager) (text : Str) : Prop :=
  q.state = .report ∧ q.myCall.isEmpty = false ∧
    ∃ w0 w1 field rest, words text = w0 :: w1 :: field :: rest ∧
      eqIgnoreAsciiCase w0 q.myCall.chars = true ∧ eqIgnoreAsciiCase w1 q.dxCall.chars = true ∧
      field ≠ "RRR".toList ∧ field ≠ "RR73".toList ∧
      ['R'].isPrefixOf field = true ∧ (parseReport field.tail).isSome = true

omit [CaseMap] in
private theorem makeIntent_report_ne (c1 c2 : Str) :
    makeIntent c1 c2 "RR73".toList ≠ makeIntent c1 c2 "73".toList := by
  intro h
  have hr := congrArg (fun i : TxIntent => i.report.chars) h
  simp only [makeIntent] at hr
  revert hr
  decide

/-- The answer a handler announces is the one `next_tx` rebuilds, unless it is the RR73 given
to a rogered report. -/
theorem dispatch_reply (q : QsoManager) (text : Str) {q' : QsoManager} {i : TxIntent}
    (hmy : q.myCall.isEmpty = false) (h : q.dispatch (words text) = (q',some i)) :
    q'.nextTx = some i ↔ ¬ q.HearsRogeredReport text := by
  unfold dispatch at h
  cases hs : q.state with
  | idle =>
    rw [hs] at h
    refine iff_of_true ?_ (by simp [HearsRogeredReport,hs])
    simp only [onIdle] at h
    split at h
    · split at h
      · cases h
        rfl
      · cases h
    · cases h
  | calling =>
    rw [hs] at h
    refine iff_of_true ?_ (by simp [HearsRogeredReport,hs])
    simp only [onCalling] at h
    split at h
    · split at h
      · cases h
      · split at h
        · cases h
        · cases h
          rfl
    · cases h
  | report =>
    rw [hs] at h
    simp only [onReport] at h
    split at h
    · rename_i w0 w1 field rest hw
      split at h
      · cases h
      · rename_i haddr
        simp only [Bool.or_eq_true,not_or,Bool.not_eq_true,Bool.not_eq_false'] at haddr
        split at h
        · rename_i hr
          cases h
          refine iff_of_true rfl ?_
          rintro ⟨_,_,_,_,_,_,hw',_,_,h1,h2,_⟩
          rw [hw] at hw'
          cases hw'
          exact hr.elim h1 h2
        · rename_i hr
          split at h
          · rename_i hR
            cases h
            refine iff_of_false ?_ ?_
            · intro he
              exact makeIntent_report_ne _ _ (Option.some.inj he).symm
            · simp only [Bool.and_eq_true] at hR
              rw [not_not]
              exact ⟨hs,hmy,w0,w1,field,rest,hw,haddr.1,haddr.2,fun e => hr (.inl e),
                fun e => hr (.inr e),hR.1,hR.2⟩
          · rename_i hR
            split at h
            · cases h
              refine iff_of_true (by simp [nextTx,hs]) ?_
              rintro ⟨_,_,_,_,_,_,hw',_,_,_,_,h1,h2⟩
              rw [hw] at hw'
              cases hw'
              simp [h1,h2] at hR
            · cases h
    · cases h
  | final =>
    rw [hs] at h
    simp only [onFinal] at h
    split at h
    · split at h <;> cases h
    · cases h

/-- `process_message` and `next_tx` agree on the reply for every state and message except a
rogered report heard in `Report`, whose RR73 the schedule replaces by 73. -/
theorem reply_is_next_tx_iff (q : QsoManager) (text : Str) (rxSlot : Nat) (ok : Bool) :
    (∀ i, (q.processMessage text rxSlot ok).2 = some i →
        (q.processMessage text rxSlot ok).1.nextTx = some i) ↔ ¬ q.HearsRogeredReport text := by
  by_cases hmy : q.myCall.isEmpty = true
  · refine iff_of_true ?_ (by simp [HearsRogeredReport,hmy])
    simp [processMessage,hmy]
  by_cases hlen : (words text).length < 2
  · refine iff_of_true (by simp [processMessage,hlen]) ?_
    rintro ⟨_,_,_,_,_,_,hw,_⟩
    simp only [hw,List.length_cons] at hlen
    omega
  obtain ⟨q',r,hd⟩ : ∃ q' r, q.dispatch (words text) = (q',r) := ⟨_,_,rfl⟩
  have hres : (q.processMessage text rxSlot ok).2 = r := by
    unfold processMessage
    rw [if_neg hmy,if_neg hlen,hd]
    dsimp only
    split <;> rfl
  have hnext : (q.processMessage text rxSlot ok).1.nextTx = q'.nextTx := by
    unfold processMessage
    rw [if_neg hmy,if_neg hlen,hd]
    dsimp only
    split <;> rfl
  rw [hres,hnext]
  cases r with
  | none =>
    refine iff_of_true (by simp) ?_
    rintro ⟨hs,_,w0,w1,field,rest,hw,h0,h1,hr,hr',hR,hp⟩
    have hsome : (q.dispatch (words text)).2 ≠ none := by
      have hc : ¬ (field = "RRR".toList ∨ field = "RR73".toList) := fun e => e.elim hr hr'
      simp only [dispatch,hs,onReport,hw,h0,h1,hR,hp,if_neg hc]
      simp
    exact hsome (by rw [hd])
  | some i =>
    rw [← q.dispatch_reply text (by simpa using hmy) hd]
    simp

omit [CaseMap] in
/-- A CQ, a grid reply and an `R-12`: RR73 is announced and 73 is what goes on the air. -/
theorem rr73_announced_73_sent :
    letI := asciiCaseMap
    let q := run step (new "JL1NIE".toList "PM95".toList)
      [.callCq none,.processMessage "JL1NIE W1AW FN31".toList 7 true]
    let out := q.processMessage "JL1NIE W1AW R-12".toList 9 true
    out.2 = some (makeIntent "W1AW".toList "JL1NIE".toList "RR73".toList) ∧
      out.1.nextTx = some (makeIntent "W1AW".toList "JL1NIE".toList "73".toList) ∧
      out.1.nextTx ≠ out.2 := by
  decide

end QsoManager
end MfskCore.App
