import MfskCore.App.QsoRuns

/-! Whose measurement a transmitted signal report is. The handlers compose a report from the measured SNR,
except where they answer a report: there the other station's number goes back to it. -/
namespace MfskCore.App
open Rust Library

/-- The number a report text carries, behind an optional `R`. -/
def reportNumber (s : Str) : Option Int := (parseReport s).bind fun r => parseI32 r.chars

/-- A measured SNR as a report can carry it. -/
def clampSnr (snr : Int) : Int := max (-50) (min snr 49)

section Numbers

private theorem digit_utf8Size {c : Char} (h : isAsciiDigit c = true) : c.utf8Size = 1 := by
  simp only [isAsciiDigit,Bool.and_eq_true,decide_eq_true_eq] at h
  have hle : c.val.toNat ≤ 57 := h.2
  exact Char.utf8Size_eq_one_iff.2 (hle.trans (by decide))

/-- The texts a report is read from. -/
private theorem parseReport_cases {s : Str} {r : HString 8} (h : parseReport s = some r) :
    ∃ sign d1 d2, (sign = '+' ∨ sign = '-') ∧ isAsciiDigit d1 = true ∧ isAsciiDigit d2 = true ∧
      (s = [sign,d1,d2] ∨ s = ['R',sign,d1,d2]) ∧ r.chars = [sign,d1,d2] ∧ byteLen [sign,d1,d2] = 3 := by
  unfold parseReport at h
  dsimp only at h
  split at h
  · rename_i sign d1 d2 hrest
    split at h
    · rename_i hform
      have hlen : byteLen [sign,d1,d2] = 3 := by
        have hsign : sign.utf8Size = 1 := by
          obtain rfl | rfl := hform.1 <;> decide
        simp [hsign,digit_utf8Size hform.2.1,digit_utf8Size hform.2.2]
      refine ⟨sign,d1,d2,hform.1,hform.2.1,hform.2.2,?_,?_,hlen⟩
      · cases hr : ['R'].isPrefixOf s with
        | false =>
          left
          simpa [stripPrefix,hr] using hrest
        | true =>
          obtain ⟨t,rfl⟩ := List.isPrefixOf_iff_prefix.1 hr
          right
          simpa [stripPrefix,hr] using hrest
      · have hfit : byteLen ((HString.empty : HString 8).chars ++ [sign,d1,d2]) ≤ 8 := by
          rw [HString.empty_chars,List.nil_append,hlen]
          decide
        rw [← Option.some.inj h,hrest,HString.pushClamped_chars _ _ hfit]
        rfl
    · cases h
  · cases h

/-- A report text always has its number. -/
private theorem reportNumber_isSome {s : Str} (h : (parseReport s).isSome = true) : ∃ n, reportNumber s = some n := by
  obtain ⟨r,hr⟩ := Option.isSome_iff_exists.1 h
  obtain ⟨sign,d1,d2,hsign,hd1,hd2,-,hchars,-⟩ := parseReport_cases hr
  have hval {d : Char} (hd : isAsciiDigit d = true) : d.toNat ≤ 57 := by
    simp only [isAsciiDigit,Bool.and_eq_true,decide_eq_true_eq] at hd
    exact hd.2
  have hdigits : parseDigits [d1,d2] = some (10 * (10 * 0 + (d1.toNat - 48)) + (d2.toNat - 48)) := by
    simp [parseDigits,hd1,hd2]
  have h1 := hval hd1
  have h2 := hval hd2
  rw [reportNumber,hr,Option.bind_some,hchars]
  obtain rfl | rfl := hsign
  · rw [parseI32,hdigits,Option.bind_some,if_pos (by omega)]
    exact ⟨_,rfl⟩
  · rw [parseI32,hdigits,Option.bind_some,if_pos (by omega)]
    exact ⟨_,rfl⟩

/-- An `R` before a report leaves its number. -/
private theorem reportNumber_roger {s : Str} {r : HString 8} (h : parseReport s = some r) :
    reportNumber ('R' :: r.chars) = reportNumber s := by
  obtain ⟨sign,d1,d2,hsign,-,-,hs,hchars,-⟩ := parseReport_cases h
  rw [hchars]
  obtain rfl | rfl := hs
  · obtain rfl | rfl := hsign <;> rfl
  · rfl

private theorem rogered_chars {t : Str} (h : byteLen t = 3) :
    (((HString.empty : HString 8).pushStr ['R']).pushClamped t).chars = 'R' :: t := by
  refine HString.pushClamped_chars _ t ?_
  rw [byteLen_append,h]
  decide

private theorem reportNumber_positive : ∀ n < 50, reportNumber (HString.pushStr (.empty : HString 8)
    ('+' :: zeroPadded 2 n)).chars = some (n : Int) := by decide

private theorem reportNumber_negative : ∀ n < 51, reportNumber (HString.pushStr (.empty : HString 8)
    ('-' :: zeroPadded 2 n)).chars = some (-(n : Int)) := by decide

end Numbers

namespace QsoManager

theorem reportNumber_autoReport (q : QsoManager) : reportNumber q.autoReport.chars = some (clampSnr q.rxSnr) := by
  rw [autoReport,← clampSnr]
  have hlow : -50 ≤ clampSnr q.rxSnr := le_max_left _ _
  have hhigh : clampSnr q.rxSnr ≤ 49 := max_le (by decide) (min_le_right _ _)
  split
  · rw [reportNumber_positive _ (by omega)]
    congr 1
    omega
  · rw [reportNumber_negative _ (by omega)]
    congr 1
    omega

/-- The message is accepted as a report without roger and has this number: any report while calling, a bare
one in `Report`. -/
def HearsReport (q : QsoManager) (text : Str) (n : Int) : Prop :=
  q.myCall.isEmpty = false ∧ ∃ w0 w1 field rest, words text = w0 :: w1 :: field :: rest ∧
    eqIgnoreAsciiCase w0 q.myCall.chars = true ∧
    ((q.state = .calling ∧ (q.dxCall.isEmpty = true ∨ eqIgnoreAsciiCase q.dxCall.chars w1 = true)) ∨
      (q.state = .report ∧ eqIgnoreAsciiCase w1 q.dxCall.chars = true ∧ ['R'].isPrefixOf field = false)) ∧
    reportNumber field = some n

theorem HearsReport.unique {q : QsoManager} {text : Str} {m n : Int} (hm : q.HearsReport text m)
    (hn : q.HearsReport text n) : m = n := by
  obtain ⟨-,_,_,_,_,hw,-,-,hnum⟩ := hm
  obtain ⟨-,_,_,_,_,hw',-,-,hnum'⟩ := hn
  rw [hw] at hw'
  cases hw'
  exact Option.some.inj (hnum.symm.trans hnum')

variable [CaseMap]

/-- What an answered message leaves: a closing without a number, or a report with the number heard or, where
none was heard, the measured one. -/
structure Answered (q : QsoManager) (text : Str) (q' : QsoManager) (i : TxIntent) : Prop where
  addressed : i.call1.chars = q'.dxCall.chars
  measured : q'.rxSnr = q.rxSnr
  report : (q'.state = .final ∧ reportNumber i.report.chars = none ∧ ∀ n, ¬q.HearsReport text n) ∨
    (q'.state = .report ∧ i.report.chars = q'.txReport.chars ∧ ∃ n, reportNumber q'.txReport.chars = some n ∧
      (q.HearsReport text n ∨ (n = clampSnr q.rxSnr ∧ ∀ m, ¬q.HearsReport text m)))

omit [CaseMap] in
private theorem clamped_chars {N M : Nat} (s : HString N) (h : N ≤ M) :
    ((HString.empty : HString M).pushClamped s.chars).chars = s.chars :=
  HString.pushClamped_chars _ _ (s.fits.trans h)

private theorem onIdle_answered {q q' : QsoManager} {text : Str} {i : TxIntent} (hs : q.state = .idle)
    (h : q.onIdle (words text) = (q',some i)) : q.Answered text q' i := by
  simp only [onIdle] at h
  split at h
  · split at h
    · cases h
      refine ⟨clamped_chars _ (by decide),rfl,.inr ⟨rfl,clamped_chars _ (by decide),clampSnr q.rxSnr,?_,.inr ⟨rfl,?_⟩⟩⟩
      · exact q.reportNumber_autoReport
      · rintro m ⟨-,_,_,_,_,-,-,hstate | hstate,-⟩ <;> simp [hs] at hstate
    · cases h
  · cases h

private theorem onCalling_answered {q q' : QsoManager} {text : Str} {i : TxIntent} (hs : q.state = .calling)
    (hmy : q.myCall.isEmpty = false) (h : q.onCalling (words text) = (q',some i)) : q.Answered text q' i := by
  simp only [onCalling] at h
  split at h
  · rename_i w0 responder field rest hw
    split at h
    · cases h
    · rename_i haddr
      split at h
      · cases h
      · rename_i hfrom
        have hfrom' : q.dxCall.isEmpty = true ∨ eqIgnoreAsciiCase q.dxCall.chars responder = true := by
          simpa [or_iff_not_imp_left] using hfrom
        have hhears (n : Int) : q.HearsReport text n ↔ reportNumber field = some n := by
          constructor
          · rintro ⟨-,_,_,_,_,hw',-,-,hnum⟩
            rw [hw] at hw'
            cases hw'
            exact hnum
          · exact fun hnum => ⟨hmy,w0,responder,field,rest,hw,by simpa using haddr,.inl ⟨hs,hfrom'⟩,hnum⟩
        cases hp : parseReport field with
        | none =>
          rw [hp] at h
          cases h
          refine ⟨clamped_chars _ (by decide),rfl,.inr ⟨rfl,clamped_chars _ (by decide),clampSnr q.rxSnr,?_,.inr ⟨rfl,?_⟩⟩⟩
          · exact reportNumber_autoReport _
          · intro m hm
            rw [hhears,reportNumber,hp] at hm
            cases hm
        | some rpt =>
          obtain ⟨n,hn⟩ := reportNumber_isSome (s := field) (by rw [hp]; rfl)
          obtain ⟨sign,d1,d2,hsign,-,-,-,hchars,hlen⟩ := parseReport_cases hp
          have hnot : ['R'].isPrefixOf rpt.chars = false := by
            rw [hchars]
            obtain rfl | rfl := hsign <;> rfl
          have htx := rogered_chars (t := rpt.chars) (hchars ▸ hlen)
          rw [hp] at h
          simp only [hnot] at h
          cases h
          refine ⟨clamped_chars _ (by decide),rfl,.inr ⟨rfl,clamped_chars _ (by decide),n,?_,.inl ((hhears n).2 hn)⟩⟩
          show reportNumber (((HString.empty : HString 8).pushStr ['R']).pushClamped rpt.chars).chars = some n
          rw [htx,reportNumber_roger hp,hn]
  · cases h

omit [CaseMap] in
private theorem reportNumber_closing :
    reportNumber ((HString.empty : HString 8).pushClamped "73".toList).chars = none ∧
      reportNumber ((HString.empty : HString 8).pushClamped "RR73".toList).chars = none := by
  decide

omit [CaseMap] in
/-- A rogered report is no bare one. -/
private theorem bare_of_not_rogered {field : Str} (hsome : (parseReport field).isSome = true)
    (hnot : ¬(['R'].isPrefixOf field && (parseReport field.tail).isSome) = true) : ['R'].isPrefixOf field = false := by
  obtain ⟨r,hr⟩ := Option.isSome_iff_exists.1 hsome
  obtain ⟨sign,d1,d2,hsign,hd1,hd2,rfl | rfl,-,-⟩ := parseReport_cases hr
  · obtain rfl | rfl := hsign <;> rfl
  · exfalso
    apply hnot
    obtain rfl | rfl := hsign <;> simp [parseReport,stripPrefix,hd1,hd2]

omit [CaseMap] in
private theorem onReport_answered {q q' : QsoManager} {text : Str} {i : TxIntent} (hs : q.state = .report)
    (hmy : q.myCall.isEmpty = false) (h : q.onReport (words text) = (q',some i)) : q.Answered text q' i := by
  simp only [onReport] at h
  split at h
  · rename_i w0 w1 field rest hw
    split at h
    · cases h
    · rename_i haddr
      simp only [Bool.or_eq_true,not_or,Bool.not_eq_true,Bool.not_eq_false'] at haddr
      have hhears {n : Int} (hn : q.HearsReport text n) :
          ['R'].isPrefixOf field = false ∧ reportNumber field = some n := by
        obtain ⟨-,_,_,_,_,hw',-,hstate,hnum⟩ := hn
        rw [hw] at hw'
        cases hw'
        exact ⟨(show _ ∧ _ by simpa [hs] using hstate).2,hnum⟩
      split at h
      · rename_i hroger
        cases h
        refine ⟨clamped_chars _ (by decide),rfl,.inl ⟨rfl,reportNumber_closing.1,fun n hn => ?_⟩⟩
        have hbare := (hhears hn).1
        obtain rfl | rfl := hroger <;> cases hbare
      · split at h
        · rename_i hroger
          cases h
          refine ⟨clamped_chars _ (by decide),rfl,.inl ⟨rfl,reportNumber_closing.2,fun n hn => ?_⟩⟩
          rw [(hhears hn).1] at hroger
          cases hroger
        · rename_i hnot
          split at h
          · rename_i hsome
            obtain ⟨n,hn⟩ := reportNumber_isSome hsome
            have hbare := bare_of_not_rogered hsome hnot
            obtain ⟨r,hr⟩ := Option.isSome_iff_exists.1 hsome
            obtain ⟨sign,d1,d2,-,-,-,hform,hchars,hlen⟩ := parseReport_cases hr
            have hfield : field = r.chars := by
              obtain rfl | rfl := hform
              · exact hchars.symm
              · cases hbare
            have htx := rogered_chars (t := field) (by rw [hfield,hchars,hlen])
            cases h
            refine ⟨clamped_chars _ (by decide),rfl,.inr ⟨hs,clamped_chars _ (by decide),n,?_,
              .inl ⟨hmy,w0,w1,field,rest,hw,haddr.1,.inr ⟨hs,haddr.2,hbare⟩,hn⟩⟩⟩
            show reportNumber (((HString.empty : HString 8).pushStr ['R']).pushClamped field).chars = some n
            rw [htx,hfield,reportNumber_roger hr,hn]
          · cases h
  · cases h

/-- Every answer to a message, state by state. -/
theorem dispatch_answered {q q' : QsoManager} {text : Str} {i : TxIntent} (hmy : q.myCall.isEmpty = false)
    (h : q.dispatch (words text) = (q',some i)) : q.Answered text q' i := by
  unfold dispatch at h
  cases hs : q.state with
  | idle => exact onIdle_answered hs (by simpa only [hs] using h)
  | calling => exact onCalling_answered hs hmy (by simpa only [hs] using h)
  | report => exact onReport_answered hs hmy (by simpa only [hs] using h)
  | final =>
    rw [hs] at h
    obtain he | he := q.onFinal_cases (words text) <;> rw [he] at h <;> cases h

/-- A message that is not answered carried no report for this contact. -/
theorem dispatch_unanswered {q : QsoManager} {text : Str} (h : (q.dispatch (words text)).2 = none) (n : Int) :
    ¬q.HearsReport text n := by
  rintro ⟨hmy,w0,w1,field,rest,hw,haddr,hstate,hnum⟩
  have hsome : (parseReport field).isSome = true := by
    cases hp : parseReport field with
    | none =>
      rw [reportNumber,hp] at hnum
      cases hnum
    | some r => rfl
  obtain ⟨hs,hfrom⟩ | ⟨hs,hfrom,hbare⟩ := hstate
  · have hno : (!q.dxCall.isEmpty && !eqIgnoreAsciiCase q.dxCall.chars w1) = false := by
      obtain hfrom | hfrom := hfrom <;> simp [hfrom]
    simp [dispatch,hs,onCalling,hw,haddr,hno] at h
  · simp only [dispatch,hs,onReport,hw,haddr,hfrom,hbare,hsome] at h
    split at h
    · rename_i hbad
      cases hbad
    · split at h
      · cases h
      · split at h
        · cases h
        · simp at h

end QsoManager

/-- A manager beside the SNR measured when the report of the present contact was last composed, and the
intent the last call returned. -/
structure ReportLog where
  qso : QsoManager
  measured : Option Int
  sent : Option TxIntent

namespace ReportLog
variable [CaseMap]

/-- The intent a call hands out; that of `finish_self_tx` is dropped. -/
def answer (q : QsoManager) : QsoOp → Option TxIntent
  | .callCq suffix => some (q.callCq suffix).2
  | .callStation dx => some (q.callStation dx).2
  | .processMessage text rxSlot ok => (q.processMessage text rxSlot ok).2
  | .onPeriodEnd => q.onPeriodEnd.2
  | .pickTxIntent curPar => (q.pickTxIntent curPar).2
  | _ => none

def track (w : ReportLog) (op : QsoOp) : ReportLog where
  qso := w.qso.step op
  measured :=
    let kept := if w.qso.opensQso op then none else w.measured
    match op with
    | .processMessage text rxSlot ok =>
      if (w.qso.processMessage text rxSlot ok).2.isSome && (w.qso.processMessage text rxSlot ok).1.state = .report then
        some w.qso.rxSnr
      else kept
    | _ => kept
  sent := answer w.qso op

/-- An intent for the present station carries no report, or the measured one. -/
def Owns (w : ReportLog) (i : TxIntent) : Prop :=
  i.call1.chars = w.qso.dxCall.chars → ∀ n, reportNumber i.report.chars = some n →
    ∃ snr, w.measured = some snr ∧ n = clampSnr snr

/-- Every intent handed out or due has the station's own report. -/
def OwnReport (w : ReportLog) : Prop :=
  (∀ i, w.sent = some i → w.Owns i) ∧ ∀ i, w.qso.nextTx = some i → w.Owns i

/-- No report is answered whose number is not the measured one, and no station is called with a locator that
reads as a report. -/
def EchoesNothing (w : ReportLog) : QsoOp → Prop
  | .callStation _ => reportNumber w.qso.myGrid.chars = none
  | .processMessage text _ _ => ∀ n, w.qso.HearsReport text n → n = clampSnr w.qso.rxSnr
  | _ => True

omit [CaseMap] in
/-- Nothing handed out, nothing due. -/
private theorem ownReport_of_quiet {w : ReportLog} (hsent : w.sent = none) (hnext : w.qso.nextTx = none) :
    OwnReport w := by
  constructor
  · intro i hi
    rw [hsent] at hi
    cases hi
  · intro i hi
    rw [hnext] at hi
    cases hi

omit [CaseMap] in
/-- Only what was due before is handed out or due. -/
private theorem OwnReport.keep {w w' : ReportLog} (h : OwnReport w) (hdx : w'.qso.dxCall = w.qso.dxCall)
    (hmeasured : w'.measured = w.measured) (hsent : w'.sent = none ∨ w'.sent = w.qso.nextTx)
    (hnext : w'.qso.nextTx = w.qso.nextTx ∨ w'.qso.nextTx = none) : OwnReport w' := by
  have howns (i : TxIntent) (hi : w.qso.nextTx = some i) : w'.Owns i := by
    rw [Owns,hdx,hmeasured]
    exact h.2 i hi
  constructor
  · intro i hi
    obtain hs | hs := hsent <;> rw [hs] at hi
    · cases hi
    · exact howns i hi
  · intro i hi
    obtain hs | hs := hnext <;> rw [hs] at hi
    · exact howns i hi
    · cases hi

omit [CaseMap] in
private theorem pushClamped_ne_nil {N : Nat} {s : HString N} (h : s.chars ≠ []) (t : Str) :
    (s.pushClamped t).chars ≠ [] := by
  induction t generalizing s with
  | nil => exact h
  | cons c t ih =>
    rw [HString.pushClamped,HString.push]
    split
    · rename_i s' hpush
      split at hpush
      · cases hpush
        exact ih (by simp)
      · cases hpush
    · exact h

omit [CaseMap] in
/-- A CQ is for no station in particular. -/
private theorem owns_cq {w : ReportLog} (q : QsoManager) (h : w.qso.dxCall = .empty) : w.Owns q.cqIntent := by
  intro hcall
  rw [h,HString.empty_chars] at hcall
  refine absurd hcall ?_
  simp only [QsoManager.cqIntent]
  split
  · decide
  · exact pushClamped_ne_nil (by decide) _

private theorem ownReport_of_cq {w : ReportLog} {q : QsoManager} {suffix : Option Str}
    (hqso : w.qso = (q.callCq suffix).1) (hsent : w.sent = none ∨ w.sent = some (q.callCq suffix).2) : OwnReport w := by
  have hdx : w.qso.dxCall = .empty := by rw [hqso]; rfl
  constructor
  · intro i hi
    obtain hs | hs := hsent <;> rw [hs] at hi <;> cases hi
    exact owns_cq _ hdx
  · intro i hi
    rw [hqso] at hi
    obtain rfl : (q.callCq suffix).1.cqIntent = i := Option.some.inj hi
    exact owns_cq _ hdx

omit [CaseMap] in
private theorem onPeriodEnd_answer (q : QsoManager) :
    q.onPeriodEnd.2 = none ∧ q.onPeriodEnd.1.nextTx = none ∨
      q.onPeriodEnd = ({ q with retryCount := q.retryCount + 1 },q.nextTx) := by
  unfold QsoManager.onPeriodEnd
  by_cases hidle : q.state = .idle
  · rw [if_pos hidle]
    exact .inl ⟨rfl,by simp [QsoManager.nextTx,hidle]⟩
  · rw [if_neg hidle]
    dsimp only
    by_cases hlimit : (if q.state = .final then finalMaxRetries else maxRetries) ≤ q.retryCount
    · rw [if_pos hlimit]
      split <;> exact .inl ⟨rfl,rfl⟩
    · rw [if_neg hlimit]
      exact .inr rfl

omit [CaseMap] in
private theorem recordSelfTx_frame (q : QsoManager) (txSlot : Nat) :
    (q.recordSelfTx txSlot).dxCall = q.dxCall ∧ (q.recordSelfTx txSlot).nextTx = q.nextTx := by
  unfold QsoManager.recordSelfTx
  split <;> exact ⟨rfl,rfl⟩

private theorem pickTxIntent_answer {q : QsoManager} (curPar : Parity) (h : ¬(q.autoCqEnabled ∧ q.state = .idle)) :
    (q.pickTxIntent curPar).2 = none ∨ (q.pickTxIntent curPar).2 = q.nextTx := by
  unfold QsoManager.pickTxIntent
  cases hn : q.nextTx with
  | none =>
    rw [if_neg h]
    exact .inl rfl
  | some i =>
    dsimp only
    split
    · exact .inr rfl
    · exact .inl rfl

private theorem pickTxIntent_auto {q : QsoManager} (curPar : Parity) (h : q.autoCqEnabled ∧ q.state = .idle) :
    (q.pickTxIntent curPar).2 = none ∨ (q.pickTxIntent curPar).2 = some (q.callCq none).2 := by
  have hn : q.nextTx = none := by simp [QsoManager.nextTx,h.2]
  unfold QsoManager.pickTxIntent
  rw [hn]
  dsimp only
  rw [if_pos h]
  dsimp only
  split
  · exact .inr rfl
  · exact .inl rfl

omit [CaseMap] in
private theorem ownReport_periodEnd {w w' : ReportLog} (h : OwnReport w) (hqso : w'.qso = w.qso.onPeriodEnd.1)
    (hmeasured : w'.measured = w.measured) (hsent : w'.sent = none ∨ w'.sent = w.qso.onPeriodEnd.2) : OwnReport w' := by
  obtain ⟨hnone,hnext⟩ | heq := onPeriodEnd_answer w.qso
  · refine ownReport_of_quiet ?_ (by rw [hqso,hnext])
    obtain hs | hs := hsent
    · exact hs
    · rw [hs,hnone]
  · rw [heq] at hqso hsent
    exact h.keep (by rw [hqso]) hmeasured hsent (.inl (by rw [hqso]; rfl))

private theorem ownReport_callStation_iff (w : ReportLog) (dx : Str) :
    OwnReport (track w (.callStation dx)) ↔ reportNumber w.qso.myGrid.chars = none := by
  have hgrid : ((w.qso.callStation dx).2.report).chars = w.qso.myGrid.chars :=
    QsoManager.clamped_chars _ (by decide)
  constructor
  · intro h
    cases hn : reportNumber w.qso.myGrid.chars with
    | none => rfl
    | some n =>
      obtain ⟨snr,hsnr,-⟩ := h.1 _ rfl (QsoManager.clamped_chars _ (by decide)) n (by rw [hgrid,hn])
      cases hsnr
  · intro hn
    have howns : (track w (.callStation dx)).Owns (w.qso.callStation dx).2 := by
      intro _ n hi
      rw [hgrid,hn] at hi
      cases hi
    constructor
    · intro i hi
      obtain rfl := Option.some.inj hi
      exact howns
    · intro i hi
      change (if (HString.empty.pushUpper dx : HString 11).isEmpty then _ else _) = some i at hi
      split at hi
      · rename_i hempty
        obtain rfl := Option.some.inj hi
        refine owns_cq _ (HString.ext ?_)
        exact List.isEmpty_iff.1 hempty
      · obtain rfl := Option.some.inj hi
        exact howns

private theorem processMessage_eq (q : QsoManager) (text : Str) (rxSlot : Nat) (ok : Bool) :
    (q.processMessage text rxSlot ok = (q,none) ∧ ∀ n, ¬q.HearsReport text n) ∨
    ∃ q' r, q.myCall.isEmpty = false ∧ q.dispatch (QsoManager.words text) = (q',r) ∧
      (q.processMessage text rxSlot ok).2 = r ∧
      ((q.processMessage text rxSlot ok).1 = q' ∨
        (q.processMessage text rxSlot ok).1 = { q' with peerParity := some (.fromSlotIndex rxSlot) }) := by
  unfold QsoManager.processMessage
  by_cases hmy : q.myCall.isEmpty = true
  · rw [if_pos hmy]
    refine .inl ⟨rfl,fun n hn => ?_⟩
    rw [hn.1] at hmy
    cases hmy
  · rw [if_neg hmy]
    by_cases hlen : (QsoManager.words text).length < 2
    · rw [if_pos hlen]
      refine .inl ⟨rfl,?_⟩
      rintro n ⟨-,_,_,_,_,hw,-⟩
      simp only [hw,List.length_cons] at hlen
      omega
    · rw [if_neg hlen]
      refine .inr ⟨_,_,by simpa using hmy,rfl,?_⟩
      dsimp only
      split
      · exact ⟨rfl,.inr rfl⟩
      · exact ⟨rfl,.inl rfl⟩

private theorem ownReport_message_iff {w : ReportLog} (text : Str) (rxSlot : Nat) (ok : Bool) (h : OwnReport w) :
    OwnReport (track w (.processMessage text rxSlot ok)) ↔
      ∀ n, w.qso.HearsReport text n → n = clampSnr w.qso.rxSnr := by
  obtain ⟨heq,hnot⟩ | ⟨q',r,hmy,hdispatch,hanswer,hstate⟩ := processMessage_eq w.qso text rxSlot ok
  · refine iff_of_true (h.keep ?_ ?_ ?_ ?_) fun n hn => absurd hn (hnot n)
    · simp [track,QsoManager.step,heq]
    · simp [track,QsoManager.opensQso,heq]
    · simp [track,answer,heq]
    · simp [track,QsoManager.step,heq]
  · have hframe : (track w (.processMessage text rxSlot ok)).qso.dxCall = q'.dxCall ∧
        (track w (.processMessage text rxSlot ok)).qso.nextTx = q'.nextTx ∧
        (w.qso.processMessage text rxSlot ok).1.state = q'.state := by
      obtain hs | hs := hstate
      · simp [track,QsoManager.step,hs]
      · simp only [track,QsoManager.step,hs]
        exact ⟨trivial,rfl,trivial⟩
    obtain ⟨hdx,hnext,hphase⟩ := hframe
    have hsent : (track w (.processMessage text rxSlot ok)).sent = r := hanswer
    cases r with
    | none =>
      have hquiet : q'.dxCall = w.qso.dxCall ∧ (q'.nextTx = w.qso.nextTx ∨ q'.nextTx = none) := by
        obtain he | ⟨-,he⟩ | ⟨_,_,he,-⟩ := w.qso.dispatch_cases (QsoManager.words text) <;> rw [he] at hdispatch <;>
          cases hdispatch
        · exact ⟨rfl,.inl rfl⟩
        · exact ⟨rfl,.inr rfl⟩
      refine iff_of_true (h.keep (hdx.trans hquiet.1) ?_ (.inl hsent) (by rw [hnext]; exact hquiet.2)) ?_
      · simp [track,QsoManager.opensQso,hanswer]
      · exact fun n hn => absurd hn (QsoManager.dispatch_unanswered (by rw [hdispatch]) n)
    | some i =>
      have ha := QsoManager.dispatch_answered hmy hdispatch
      obtain ⟨hfinal,hclosing,hnot⟩ | ⟨hreport,htext,n,hn,hwhose⟩ := ha.report
      · refine iff_of_true ⟨fun j hj => ?_,fun j hj => ?_⟩ fun n hn => absurd hn (hnot n)
        · rw [hsent] at hj
          cases hj
          intro _ n hn
          rw [hclosing] at hn
          cases hn
        · rw [hnext,QsoManager.nextTx,hfinal] at hj
          cases hj
          intro _ n hn
          rw [show (makeIntent q'.dxCall.chars q'.myCall.chars "73".toList).report =
            HString.empty.pushClamped "73".toList from rfl,QsoManager.reportNumber_closing.1] at hn
          cases hn
      · have hmeasured : (track w (.processMessage text rxSlot ok)).measured = some w.qso.rxSnr := by
          simp [track,hanswer,hphase,hreport]
        have hnumber (j : TxIntent) (hj : (track w (.processMessage text rxSlot ok)).sent = some j ∨
            (track w (.processMessage text rxSlot ok)).qso.nextTx = some j) : reportNumber j.report.chars = some n := by
          obtain hj | hj := hj
          · rw [hsent] at hj
            cases hj
            rw [htext,hn]
          · rw [hnext,QsoManager.nextTx,hreport] at hj
            cases hj
            exact (congrArg reportNumber (QsoManager.clamped_chars q'.txReport (by decide))).trans hn
        constructor
        · intro hown m hm
          obtain ⟨snr,hsnr,hnsnr⟩ := hown.1 i hsent (by rw [hdx]; exact ha.addressed) n (hnumber i (.inl hsent))
          rw [hmeasured] at hsnr
          obtain rfl := Option.some.inj hsnr
          obtain hheard | ⟨-,hnone⟩ := hwhose
          · exact (hm.unique hheard).trans hnsnr
          · exact absurd hm (hnone m)
        · intro hecho
          have hclamp : n = clampSnr w.qso.rxSnr := by
            obtain hheard | ⟨heq,-⟩ := hwhose
            · exact hecho n hheard
            · exact heq
          have howns (j : TxIntent) (hj : (track w (.processMessage text rxSlot ok)).sent = some j ∨
              (track w (.processMessage text rxSlot ok)).qso.nextTx = some j) :
              (track w (.processMessage text rxSlot ok)).Owns j := by
            intro _ m hm
            rw [hnumber j hj] at hm
            exact ⟨_,hmeasured,(Option.some.inj hm).symm.trans hclamp⟩
          exact ⟨fun j hj => howns j (.inl hj),fun j hj => howns j (.inr hj)⟩

/-- Each call keeps the reports the station's own exactly when it answers no other number. -/
theorem track_ownReport_iff (w : ReportLog) (op : QsoOp) (h : OwnReport w) :
    OwnReport (track w op) ↔ EchoesNothing w op := by
  cases op with
  | callCq suffix => exact iff_of_true (ownReport_of_cq rfl (.inr rfl)) trivial
  | callStation dx => exact ownReport_callStation_iff w dx
  | processMessage text rxSlot ok => exact ownReport_message_iff text rxSlot ok h
  | onPeriodEnd => exact iff_of_true (ownReport_periodEnd h rfl rfl (.inr rfl)) trivial
  | reset => exact iff_of_true (ownReport_of_quiet rfl rfl) trivial
  | setAutoCq on => exact iff_of_true (h.keep rfl rfl (.inl rfl) (.inl rfl)) trivial
  | setRxSnr snr => exact iff_of_true (h.keep rfl rfl (.inl rfl) (.inl rfl)) trivial
  | recordSelfTx txSlot =>
    obtain ⟨hdx,hnext⟩ := recordSelfTx_frame w.qso txSlot
    exact iff_of_true (h.keep hdx rfl (.inl rfl) (.inl hnext)) trivial
  | pickTxIntent curPar =>
    refine iff_of_true ?_ trivial
    by_cases hauto : w.qso.autoCqEnabled ∧ w.qso.state = .idle
    · exact ownReport_of_cq (by simp [track,QsoManager.step,QsoManager.pickTxIntent_fst,hauto]) (pickTxIntent_auto curPar hauto)
    · have hsame : (track w (.pickTxIntent curPar)).qso = w.qso := by
        simp [track,QsoManager.step,QsoManager.pickTxIntent_fst,hauto]
      refine h.keep (by rw [hsame]) ?_ (pickTxIntent_answer curPar hauto) (.inl (by rw [hsame]))
      have hopens : w.qso.opensQso (.pickTxIntent curPar) = false := by simpa [QsoManager.opensQso] using hauto
      simp [track,hopens]
  | finishSelfTx txSlot =>
    obtain ⟨hdx,hnext⟩ := recordSelfTx_frame w.qso txSlot
    have hrecord : OwnReport ⟨w.qso.recordSelfTx txSlot,w.measured,none⟩ := h.keep hdx rfl (.inl rfl) (.inl hnext)
    exact iff_of_true (ownReport_periodEnd hrecord rfl rfl (.inl rfl)) trivial

/-- Every report of a run is the station's own measurement exactly when no call of the run answers another
number. -/
theorem reports_own_iff (myCall myGrid : Str) (ops : List QsoOp) :
    Always OwnReport track ⟨.new myCall myGrid,none,none⟩ ops ↔
      AllSteps EchoesNothing track ⟨.new myCall myGrid,none,none⟩ ops :=
  always_iff_allSteps (I := fun _ => True) (fun _ _ _ _ => trivial) (fun w op _ h => track_ownReport_iff w op h)
    trivial (ownReport_of_quiet rfl rfl)

omit [CaseMap] in
/-- A station heard at -10 answers a CQ with a report of -15, and gets its own number back. -/
theorem report_echoed :
    letI := asciiCaseMap
    let start : ReportLog := ⟨.new "JL1NIE".toList "PM95".toList,none,none⟩
    let ops := [.callCq none,.processMessage "JL1NIE W1AW -15".toList 7 true]
    (run track start ops).sent = some (makeIntent "W1AW".toList "JL1NIE".toList "R-15".toList) ∧
      (run track start ops).measured = some (-10) ∧ ¬Always OwnReport track start ops := by
  let _ := asciiCaseMap
  intro start ops
  have hsent : (run track start ops).sent = some (makeIntent "W1AW".toList "JL1NIE".toList "R-15".toList) := by
    decide
  have hmeasured : (run track start ops).measured = some (-10) := by decide
  refine ⟨hsent,hmeasured,fun h => ?_⟩
  obtain ⟨snr,hsnr,hn⟩ := h.last.1 _ hsent (by decide) (-15) (by decide)
  rw [hmeasured] at hsnr
  obtain rfl := Option.some.inj hsnr
  exact absurd hn (by decide)

end ReportLog
end MfskCore.App
