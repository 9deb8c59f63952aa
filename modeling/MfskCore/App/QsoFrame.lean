import MfskCore.App.QsoRuns

/-! Messages that are none of the station's business leave the QSO state machine as it is, and no state
is repeated beyond its retry limit. -/
namespace MfskCore.App.QsoManager
open Rust Library
variable [CaseMap]

section Frame

/-- The `i`th word of the message is the call. -/
def wordIs (text : Str) (i : Nat) (call : Str) : Bool :=
  (splitWhitespace text)[i]?.any fun w => eqIgnoreAsciiCase w call

/-- The contact is with one station: a directed call, or any later state. -/
def HasPartner (q : QsoManager) : Prop :=
  (q.state = .calling ∧ q.dxCall.isEmpty = false) ∨ q.state = .report ∨ q.state = .final

/-- The message is not for this station, or not from its partner. -/
def Bystander (q : QsoManager) (text : Str) : Prop :=
  wordIs text 0 q.myCall.chars = false ∨ (q.HasPartner ∧ wordIs text 1 q.dxCall.chars = false)

instance (q : QsoManager) (text : Str) : Decidable (q.Bystander text) := by
  unfold Bystander HasPartner
  infer_instance

omit [CaseMap] in
private theorem wordIs_of_words {text w0 w1 : Str} {rest : List Str} (h : words text = w0 :: w1 :: rest) :
    (∀ {call : Str}, eqIgnoreAsciiCase w0 call = true → wordIs text 0 call = true) ∧
      ∀ {call : Str}, eqIgnoreAsciiCase w1 call = true → wordIs text 1 call = true := by
  have hget (i : Nat) (hi : i < 8) : (splitWhitespace text)[i]? = (w0 :: w1 :: rest)[i]? := by
    rw [← h,words,List.getElem?_take_of_lt hi]
  constructor
  · intro call hc
    rwa [wordIs,hget 0 (by decide)]
  · intro call hc
    rwa [wordIs,hget 1 (by decide)]

omit [CaseMap] in
private theorem eqIgnoreAsciiCase_comm (a b : Str) : eqIgnoreAsciiCase a b = eqIgnoreAsciiCase b a := by
  rw [eqIgnoreAsciiCase,eqIgnoreAsciiCase,Bool.eq_iff_iff,beq_iff_eq,beq_iff_eq,eq_comm]

/-- Whoever acts on a message was called by it and, with a partner, by the partner. -/
private theorem dispatch_addressed {q : QsoManager} {text : Str} (h : q.dispatch (words text) ≠ (q,none)) :
    wordIs text 0 q.myCall.chars = true ∧ (q.HasPartner → wordIs text 1 q.dxCall.chars = true) := by
  unfold dispatch at h
  cases hs : q.state with
  | idle =>
    simp only [hs,onIdle] at h
    split at h
    · rename_i w0 w1 w2 rest hw
      split at h
      · rename_i haddr
        exact ⟨(wordIs_of_words hw).1 haddr,by simp [HasPartner,hs]⟩
      · exact absurd rfl h
    · exact absurd rfl h
  | calling =>
    simp only [hs,onCalling] at h
    split at h
    · rename_i w0 responder field rest hw
      split at h
      · exact absurd rfl h
      · rename_i haddr
        split at h
        · exact absurd rfl h
        · rename_i hfrom
          refine ⟨(wordIs_of_words hw).1 (by simpa using haddr),fun hp => (wordIs_of_words hw).2 ?_⟩
          have hdx : q.dxCall.isEmpty = false := by simpa [HasPartner,hs] using hp
          rw [eqIgnoreAsciiCase_comm]
          simpa [hdx] using hfrom
    · exact absurd rfl h
  | report =>
    simp only [hs,onReport] at h
    split at h
    · rename_i w0 w1 field rest hw
      split at h
      · exact absurd rfl h
      · rename_i haddr
        simp only [Bool.or_eq_true,not_or,Bool.not_eq_true,Bool.not_eq_false'] at haddr
        exact ⟨(wordIs_of_words hw).1 haddr.1,fun _ => (wordIs_of_words hw).2 haddr.2⟩
    · exact absurd rfl h
  | final =>
    simp only [hs,onFinal] at h
    split at h
    · rename_i w0 w1 field rest hw
      split at h
      · rename_i haddr
        simp only [Bool.and_eq_true] at haddr
        exact ⟨(wordIs_of_words hw).1 haddr.1.1,fun _ => (wordIs_of_words hw).2 haddr.1.2⟩
      · exact absurd rfl h
    · exact absurd rfl h

theorem processMessage_bystander {q : QsoManager} {text : Str} (rxSlot : Nat) (ok : Bool) (h : q.Bystander text) :
    q.processMessage text rxSlot ok = (q,none) := by
  have hquiet : q.dispatch (words text) = (q,none) := by
    by_contra hact
    obtain ⟨hme,hpartner⟩ := dispatch_addressed hact
    obtain hnot | ⟨hp,hnot⟩ := h
    · rw [hme] at hnot
      cases hnot
    · rw [hpartner hp] at hnot
      cases hnot
  unfold processMessage
  split
  · rfl
  · split
    · rfl
    · simp [hquiet]

end Frame

section Retries

/-- The limit of `on_period_end`. -/
def retryLimit (q : QsoManager) : Nat := if q.state = .final then finalMaxRetries else maxRetries

def WithinLimit (q : QsoManager) : Prop := q.retryCount ≤ q.retryLimit

omit [CaseMap] in
private theorem withinLimit_of_zero {q : QsoManager} (h : q.retryCount = 0) : q.WithinLimit := by
  rw [WithinLimit,h]
  exact Nat.zero_le _

omit [CaseMap] in
/-- The count may be carried along in a state, and out of any state into `Idle`. -/
private theorem WithinLimit.keep {q q' : QsoManager} (h : q.WithinLimit) (hcount : q'.retryCount = q.retryCount)
    (hstate : q'.state = q.state ∨ q'.state = .idle) : q'.WithinLimit := by
  have hle : q.retryLimit ≤ maxRetries := by
    rw [retryLimit]
    split <;> decide
  rw [WithinLimit,hcount]
  obtain hs | hs := hstate
  · rwa [retryLimit,hs]
  · exact h.trans (by simpa [retryLimit,hs] using hle)

/-- A message starts the count again, or keeps it and at most ends the contact. -/
private theorem dispatch_retry (q : QsoManager) (ws : List Str) :
    (q.dispatch ws).1.retryCount = 0 ∨ ((q.dispatch ws).1.retryCount = q.retryCount ∧
      ((q.dispatch ws).1.state = q.state ∨ (q.dispatch ws).1.state = .idle)) := by
  unfold dispatch
  cases hs : q.state with
  | idle =>
    simp only [onIdle]
    split
    · split
      · exact .inl rfl
      · exact .inr ⟨rfl,.inl hs⟩
    · exact .inr ⟨rfl,.inl hs⟩
  | calling =>
    simp only [onCalling]
    split
    · split
      · exact .inr ⟨rfl,.inl hs⟩
      · split
        · exact .inr ⟨rfl,.inl hs⟩
        · exact .inl rfl
    · exact .inr ⟨rfl,.inl hs⟩
  | report =>
    simp only [onReport]
    split
    · split
      · exact .inr ⟨rfl,.inl hs⟩
      · split
        · exact .inl rfl
        · split
          · exact .inl rfl
          · split
            · exact .inr ⟨rfl,.inl hs⟩
            · exact .inr ⟨rfl,.inl hs⟩
    · exact .inr ⟨rfl,.inl hs⟩
  | final =>
    obtain he | he := q.onFinal_cases ws
    · exact .inr (by simp [he,hs])
    · exact .inr (by simp [he])

private theorem processMessage_withinLimit {q : QsoManager} (text : Str) (rxSlot : Nat) (ok : Bool)
    (h : q.WithinLimit) : (q.processMessage text rxSlot ok).1.WithinLimit := by
  have hdispatch : (q.dispatch (words text)).1.WithinLimit := by
    obtain hzero | ⟨hcount,hstate⟩ := q.dispatch_retry (words text)
    · exact withinLimit_of_zero hzero
    · exact h.keep hcount hstate
  unfold processMessage
  split
  · exact h
  · split
    · exact h
    · dsimp only
      split
      · exact hdispatch.keep rfl (.inl rfl)
      · exact hdispatch

omit [CaseMap] in
private theorem onPeriodEnd_withinLimit {q : QsoManager} (h : q.WithinLimit) : q.onPeriodEnd.1.WithinLimit := by
  by_cases hidle : q.state = .idle
  · rwa [onPeriodEnd,if_pos hidle]
  · rw [onPeriodEnd,if_neg hidle]
    dsimp only
    rw [← retryLimit]
    by_cases hlimit : q.retryLimit ≤ q.retryCount
    · rw [if_pos hlimit]
      split
      · exact h.keep rfl (.inr rfl)
      · exact withinLimit_of_zero rfl
    · rw [if_neg hlimit]
      exact Nat.not_le.1 hlimit

omit [CaseMap] in
private theorem recordSelfTx_withinLimit {q : QsoManager} (txSlot : Nat) (h : q.WithinLimit) :
    (q.recordSelfTx txSlot).WithinLimit := by
  unfold recordSelfTx
  split
  · exact h.keep rfl (.inl rfl)
  · exact h

theorem step_withinLimit {q : QsoManager} (op : QsoOp) (h : q.WithinLimit) : (q.step op).WithinLimit := by
  cases op with
  | callCq suffix => exact withinLimit_of_zero rfl
  | callStation dx => exact withinLimit_of_zero rfl
  | processMessage text rxSlot ok => exact processMessage_withinLimit text rxSlot ok h
  | onPeriodEnd => exact onPeriodEnd_withinLimit h
  | reset => exact withinLimit_of_zero rfl
  | setAutoCq on => exact h.keep rfl (.inl rfl)
  | setRxSnr snr => exact h.keep rfl (.inl rfl)
  | recordSelfTx txSlot => exact recordSelfTx_withinLimit txSlot h
  | pickTxIntent curPar =>
    rw [step,pickTxIntent_fst]
    split
    · exact withinLimit_of_zero rfl
    · exact h
  | finishSelfTx txSlot => exact onPeriodEnd_withinLimit (recordSelfTx_withinLimit txSlot h)

end Retries

/-- In every reachable state a bystander's message changes nothing and is not answered, and the retry count
is within the limit of the state. -/
theorem qso_non_interference (myCall myGrid : Str) (ops : List QsoOp) :
    (∀ text rxSlot ok, (run step (new myCall myGrid) ops).Bystander text →
      (run step (new myCall myGrid) ops).processMessage text rxSlot ok = (run step (new myCall myGrid) ops,none)) ∧
    (run step (new myCall myGrid) ops).retryCount ≤ (run step (new myCall myGrid) ops).retryLimit :=
  ⟨fun _ rxSlot ok h => processMessage_bystander rxSlot ok h,
    run_invariant (I := WithinLimit) (fun _ op h => step_withinLimit op h) (withinLimit_of_zero rfl)⟩

omit [CaseMap] in
/-- Another station's rogered report during a contact. -/
theorem qso_non_interference_report :
    letI := asciiCaseMap
    let q := run step (new "JL1NIE".toList "PM95".toList) [.callCq none,.processMessage "JL1NIE W1AW FN31".toList 7 true]
    q.state = .report ∧ q.processMessage "JL1NIE K1ABC R-05".toList 9 true = (q,none) ∧ q.retryCount ≤ q.retryLimit :=
  letI := asciiCaseMap
  have h := qso_non_interference "JL1NIE".toList "PM95".toList [.callCq none,.processMessage "JL1NIE W1AW FN31".toList 7 true]
  ⟨by decide,h.1 "JL1NIE K1ABC R-05".toList 9 true (by decide),h.2⟩

end MfskCore.App.QsoManager
