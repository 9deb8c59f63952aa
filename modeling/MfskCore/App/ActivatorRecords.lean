import MfskCore.App.ActivatorRuns

/-! Which contact a logged record belongs to. A call that sends no exchange or a grid starts
over; the record of its contact should hold nothing from before that message. -/
namespace MfskCore.App
open Rust Library

/-- A message that starts the contact, or starts it over. -/
def Heard.startsOver (h : Heard) : Bool :=
  match h.exchange with
  | .none | .grid _ => true
  | _ => false

/-- The answered messages of `call` from its latest start on, newest first. -/
def currentContact (call : Call) : List (Nat × Heard) → List (Nat × Heard)
  | [] => []
  | x :: older =>
    if x.2.sender = call then
      if x.2.startsOver then [x] else x :: currentContact call older
    else currentContact call older

/-- The report received and the first period are those of messages of the current contact. -/
def BelongsTo (answered : List (Nat × Heard)) (call : Call) (rstRcvd : Option Int) (onPeriod : Nat) :
    Prop :=
  (∀ r, rstRcvd = some r → ∃ x ∈ currentContact call answered,
    x.2.exchange = .report r ∨ x.2.exchange = .rReport r) ∧
  ∃ x ∈ currentContact call answered, x.1 = onPeriod

theorem BelongsTo.cons_other {answered : List (Nat × Heard)} {call : Call} {rstRcvd : Option Int}
    {onPeriod : Nat} {x : Nat × Heard} (h : BelongsTo answered call rstRcvd onPeriod)
    (hx : x.2.sender = call → x.2.startsOver = false) : BelongsTo (x :: answered) call rstRcvd onPeriod := by
  have hsub : ∀ y ∈ currentContact call answered, y ∈ currentContact call (x :: answered) := by
    intro y hy
    rw [currentContact]
    by_cases hc : x.2.sender = call
    · rw [if_pos hc,hx hc]
      exact List.mem_cons_of_mem x hy
    · rw [if_neg hc]
      exact hy
  obtain ⟨hrst,y,hy,hp⟩ := h
  refine ⟨?_,y,hsub y hy,hp⟩
  intro r hr
  obtain ⟨z,hz,he⟩ := hrst r hr
  exact ⟨z,hsub z hz,he⟩

private theorem mem_currentContact_head (x : Nat × Heard) (answered : List (Nat × Heard)) :
    x ∈ currentContact x.2.sender (x :: answered) := by
  rw [currentContact,if_pos rfl]
  split
  · exact List.mem_singleton_self x
  · exact List.mem_cons_self

/-- A message taken into the record of its contact keeps the record within the contact. -/
private theorem BelongsTo.taken {answered : List (Nat × Heard)} {period : Nat} {h : Heard}
    {rstRcvd rst : Option Int} {onPeriod : Nat}
    (hb : BelongsTo ((period,h) :: answered) h.sender rstRcvd onPeriod)
    (hrst : rst = rstRcvd ∨ ∃ r, rst = some r ∧ (h.exchange = .report r ∨ h.exchange = .rReport r)) :
    BelongsTo ((period,h) :: answered) h.sender rst onPeriod := by
  rcases hrst with rfl | ⟨r,rfl,hr⟩
  · exact hb
  · refine ⟨?_,hb.2⟩
    intro r' hr'
    obtain rfl := Option.some.inj hr'
    exact ⟨(period,h),mem_currentContact_head (period,h) answered,hr⟩

namespace Activator

/-- A contact with `call` is under way, or was dropped and is remembered. -/
def hasRecord (a : Activator) (call : Call) : Bool :=
  a.partner.any (fun p => p.call = call) || a.dropped.any (fun p => p.call = call)

/-- Every record kept belongs to the current contact with its call. -/
def RecordsBelong (a : Activator) (answered : List (Nat × Heard)) : Prop :=
  (∀ p, a.partner = some p → BelongsTo answered p.call p.rstRcvd p.firstPeriod) ∧
    ∀ p ∈ a.dropped, BelongsTo answered p.call p.rstRcvd p.firstPeriod

/-- The record a reply continues is one that is kept, or a new one. -/
theorem contact_cases (a : Activator) (period : Nat) (h : Heard) :
    (a.partner = some (a.contact period h).1 ∨ (a.contact period h).1 ∈ a.dropped ∨
      (a.contact period h).1 = ⟨h.sender,.empty,clampReport h.snr,none,period,period,.cq⟩) ∧
    ∀ p ∈ (a.contact period h).2, p ∈ a.dropped := by
  rw [contact]
  split
  · rename_i p hp
    exact ⟨Or.inl (Option.filter_eq_some_iff.mp hp).1,fun q hq => hq⟩
  · split
    · rename_i i hi
      obtain ⟨hlt,-⟩ := List.findIdx?_eq_some_iff_getElem.mp hi
      refine ⟨Or.inr (Or.inl ?_),fun q hq => List.mem_of_mem_eraseIdx hq⟩
      rw [List.getElem?_eq_getElem hlt]
      exact List.getElem_mem hlt
    · exact ⟨Or.inr (Or.inr rfl),fun q hq => hq⟩

private theorem startsOver_false {a : Activator} {h : Heard} {p : Partner}
    (hok : h.startsOver → a.hasRecord h.sender = false) (hp : a.partner = some p ∨ p ∈ a.dropped)
    (hc : h.sender = p.call) : h.startsOver = false := by
  by_contra hs
  have hno := hok (by simpa using hs)
  rw [hasRecord,Bool.or_eq_false_iff] at hno
  rcases hp with hp | hp
  · simp [hp,hc] at hno
  · have := List.any_eq_false.mp hno.2 p hp
    simp [hc] at this

private theorem opened_belongs (p : Partner) (period : Nat) (h : Heard) :
    (opened p period h).call = p.call ∧ (opened p period h).firstPeriod = p.firstPeriod ∧
      ((opened p period h).rstRcvd = p.rstRcvd ∨ ∃ r, (opened p period h).rstRcvd = some r ∧
        (h.exchange = .report r ∨ h.exchange = .rReport r)) := by
  rw [opened]
  split
  · exact ⟨rfl,rfl,Or.inl rfl⟩
  · rename_i r hr
    exact ⟨rfl,rfl,Or.inr ⟨r,rfl,Or.inl hr⟩⟩
  · exact ⟨rfl,rfl,Or.inl rfl⟩

private theorem closing_belongs (p : Partner) (period : Nat) (h : Heard) :
    (closing p period h).call = p.call ∧ (closing p period h).firstPeriod = p.firstPeriod ∧
      ((closing p period h).rstRcvd = p.rstRcvd ∨ ∃ r, (closing p period h).rstRcvd = some r ∧
        (h.exchange = .report r ∨ h.exchange = .rReport r)) := by
  rw [closing]
  split
  · rename_i r hr
    exact ⟨rfl,rfl,Or.inr ⟨r,rfl,Or.inr hr⟩⟩
  · exact ⟨rfl,rfl,Or.inl rfl⟩

/-- One answered message, provided a call that starts over has no record. -/
theorem reply_belongs {a : Activator} {answered : List (Nat × Heard)} (period : Nat) {h : Heard}
    (hphase : a.Active) (hb : a.RecordsBelong answered)
    (hok : h.startsOver → a.hasRecord h.sender = false) :
    (a.reply period h none).1.RecordsBelong ((period,h) :: answered) ∧
    ∀ rec, (a.reply period h none).2.1 = some rec →
      BelongsTo ((period,h) :: answered) rec.call rec.rstRcvd rec.onPeriod := by
  obtain ⟨hfrom,hleft⟩ := contact_cases a period h
  have hcall := contact_call a period h
  have hold : ∀ p, a.partner = some p ∨ p ∈ a.dropped →
      BelongsTo ((period,h) :: answered) p.call p.rstRcvd p.firstPeriod := by
    intro p hp
    exact (hp.elim (hb.1 p) (hb.2 p)).cons_other (startsOver_false hok hp)
  have hdropped : ∀ p ∈ (a.contact period h).2,
      BelongsTo ((period,h) :: answered) p.call p.rstRcvd p.firstPeriod := fun p hp =>
    hold p (Or.inr (hleft p hp))
  have hcontact : BelongsTo ((period,h) :: answered) h.sender (a.contact period h).1.rstRcvd
      (a.contact period h).1.firstPeriod := by
    rcases hfrom with hp | hp | hp
    · exact hcall ▸ hold _ (Or.inl hp)
    · exact hcall ▸ hold _ (Or.inr hp)
    · rw [hp]
      exact ⟨by simp,(period,h),mem_currentContact_head (period,h) answered,rfl⟩
  by_cases hs73 : h.exchange = .s73
  · rw [reply_s73 period none hs73]
    exact ⟨⟨by simp,hdropped⟩,by simp⟩
  · rcases stage_cases hs73 with hs | hs
    · have hopened := opened_belongs (a.contact period h).1 period h
      rw [reply_open period none hs hphase]
      refine ⟨⟨?_,hdropped⟩,by simp⟩
      intro p hp
      obtain rfl := Option.some.inj hp
      rw [hopened.1,hopened.2.1,hcall]
      exact hcontact.taken hopened.2.2
    · have hclosing := closing_belongs (a.contact period h).1 period h
      rw [reply_close period none hs]
      obtain ⟨recent,doneAt,total,logged,hf,hcases⟩ := finish_cases
        (a := { a with
          partner := some (closing (a.contact period h).1 period h)
          dropped := (a.contact period h).2 }) period none rfl
      rw [hf]
      refine ⟨⟨by simp,hdropped⟩,?_⟩
      intro rec hrec
      rcases hcases with ⟨-,hl⟩ | ⟨-,hl⟩
      · rw [hl] at hrec
        cases hrec
      · rw [hl] at hrec
        obtain rfl := Option.some.inj hrec
        dsimp only
        rw [hclosing.1,hclosing.2.1,hcall]
        exact hcontact.taken hclosing.2.2

/-- Answering the best caller, or calling CQ. -/
private theorem next_belongs {a : Activator} {answered : List (Nat × Heard)} (period : Nat)
    (heard : List Heard) (hphase : a.Active) (hb : a.RecordsBelong answered)
    (hok : ∀ x ∈ a.nextReplies heard, x.2.startsOver → x.1.hasRecord x.2.sender = false) :
    let answered' := (a.nextReplies heard).reverse.map (fun x => (period,x.2)) ++ answered
    (a.nextCallerOrCq period heard none).1.RecordsBelong answered' ∧
    ∀ rec, (a.nextCallerOrCq period heard none).2.1 = some rec →
      BelongsTo answered' rec.call rec.rstRcvd rec.onPeriod := by
  have hcq : ∀ b : Activator, b.RecordsBelong answered → b.cq.1.RecordsBelong answered := by
    intro b hb
    rw [cq]
    dsimp only
    split
    · exact hb
    · exact hb
  rw [nextCallerOrCq]
  rw [nextReplies] at hok ⊢
  cases hpick : a.pick heard with
  | none => exact ⟨hcq a hb,by simp⟩
  | some h =>
    rw [hpick] at hok
    have hreply := reply_belongs
      (a := { a with pending := a.pending.filter (fun x => x.1.sender ≠ h.sender) }) period
      hphase hb (hok _ (List.mem_singleton_self _))
    have hsends := reply_sends
      (a := { a with pending := a.pending.filter (fun x => x.1.sender ≠ h.sender) })
      period (pick_mem hpick).2 hphase
    dsimp only
    rw [if_pos hsends]
    exact hreply

private theorem dropPartner_belongs {a : Activator} {answered : List (Nat × Heard)} {p : Partner}
    (hp : a.partner = some p) (hb : a.RecordsBelong answered) :
    (a.dropPartner p).RecordsBelong answered := by
  refine ⟨by simp [dropPartner],?_⟩
  intro q hq
  have hmem : q ∈ a.dropped ∨ q = p := by
    simp only [dropPartner,pushEvict] at hq
    rcases pushCap_mem hq with hq | hq
    · left
      split at hq
      · exact List.mem_of_mem_eraseIdx hq
      · exact hq
    · exact Or.inr hq
  rcases hmem with hq | rfl
  · exact hb.2 q hq
  · exact hb.1 q hp

private theorem decideActive_belongs {a : Activator} {answered : List (Nat × Heard)} (period : Nat)
    (heard : List Heard) (hphase : a.Active) (hb : a.RecordsBelong answered)
    (hok : ∀ x ∈ a.replies period heard, x.2.startsOver → x.1.hasRecord x.2.sender = false) :
    let answered' := (a.replies period heard).reverse.map (fun x => (period,x.2)) ++ answered
    (a.decideActive period heard).1.RecordsBelong answered' ∧
    ∀ rec, (a.decideActive period heard).2.1 = some rec →
      BelongsTo answered' rec.call rec.rstRcvd rec.onPeriod := by
  have hb' : (a.expire period).RecordsBelong answered := hb
  have hphase' : (a.expire period).Active := hphase
  have hactive : a.phase = .cq ∨ a.phase = .working := hphase
  rw [replies,if_pos hactive] at hok ⊢
  rw [decideActive]
  generalize a.expire period = b at hb' hphase' hok ⊢
  dsimp only at hok ⊢
  cases hp : b.partner with
  | none =>
    rw [hp] at hok
    exact next_belongs period heard hphase' hb' hok
  | some p =>
    rw [hp] at hok
    dsimp only at hok ⊢
    cases hbest : bestFrom heard p.call with
    | none =>
      rw [hbest] at hok
      dsimp only at hok ⊢
      split
      · exact ⟨hb',by simp⟩
      · rename_i hquiet
        rw [if_neg hquiet] at hok
        exact next_belongs (a := b.dropPartner p) period heard hphase' (dropPartner_belongs hp hb') hok
    | some h =>
      rw [hbest] at hok
      dsimp only at hok ⊢
      have hreply := reply_belongs period hphase' hb' (hok _ List.mem_cons_self)
      by_cases hs73 : h.exchange = .s73
      · rw [reply_s73 period none hs73] at hok hreply ⊢
        dsimp only at hok hreply ⊢
        have hnext := next_belongs (a := ({ b with partner := none,dropped := (b.contact period h).2 }
          ).queueOthers period heard p.call) period [] hphase' hreply.1
          (fun x hx => hok x (List.mem_cons_of_mem _ (by simpa using hx)))
        simpa using hnext
      · obtain ⟨tx,htx⟩ := Option.isSome_iff_exists.mp (reply_sends period hs73 hphase')
        rw [htx]
        exact hreply

/-- One decision, provided every message it answers that starts a contact over comes from a call
without a record. -/
theorem decide_belongs {a : Activator} {answered : List (Nat × Heard)} (period : Nat)
    (heard : List Heard) (hb : a.RecordsBelong answered)
    (hok : ∀ x ∈ a.replies period heard, x.2.startsOver → x.1.hasRecord x.2.sender = false) :
    let answered' := (a.replies period heard).reverse.map (fun x => (period,x.2)) ++ answered
    (a.decide period heard).1.RecordsBelong answered' ∧
    ∀ rec, (a.decide period heard).2.logged = some rec →
      BelongsTo answered' rec.call rec.rstRcvd rec.onPeriod := by
  have hidle : ¬ a.Active → a.replies period heard = [] := fun h => if_neg h
  cases hphase : a.phase with
  | stopped =>
    rw [hidle (by simp [Active,hphase])]
    simpa [decide,hphase] using hb
  | done =>
    rw [hidle (by simp [Active,hphase])]
    have hrec : (a.decideDone period heard).1.RecordsBelong answered := by
      rw [decideDone]
      split
      · exact hb
      · split
        · exact hb
        · exact hb
    simpa [decide,hphase] using hrec
  | cq =>
    have hact := decideActive_belongs period heard (Or.inl hphase) hb hok
    simpa [decide,hphase] using hact
  | working =>
    have hact := decideActive_belongs period heard (Or.inr hphase) hb hok
    simpa [decide,hphase] using hact

end Activator

namespace Activation

/-- The step answers no message that starts a contact over with a call that has a record. -/
def RestartsUnknown (s : Activation) : ActivatorOp → Prop
  | .decide heard => ∀ x ∈ s.act.replies s.period heard,
      x.2.startsOver → x.1.hasRecord x.2.sender = false
  | _ => True

instance (s : Activation) (op : ActivatorOp) : Decidable (s.RestartsUnknown op) :=
  match op with
  | .start => isTrue trivial
  | .stop => isTrue trivial
  | .decide heard => inferInstanceAs (Decidable (∀ x ∈ s.act.replies s.period heard,
      x.2.startsOver → x.1.hasRecord x.2.sender = false))

private theorem step_belongs {s : Activation} {op : ActivatorOp}
    (hb : s.act.RecordsBelong s.answered) (hok : s.RestartsUnknown op) :
    (s.track op).act.RecordsBelong (s.track op).answered := by
  cases op with
  | start => exact ⟨by simp [track,Activator.start],by simp [track,Activator.start]⟩
  | stop => exact ⟨by simp [track,Activator.stop],hb.2⟩
  | decide heard => exact (Activator.decide_belongs s.period heard hb hok).1

/-- In every run that answers no restart from a call with a record, each record logged belongs to
the contact it closes. -/
theorem logged_record_belongs (cfg : Config) (period : Nat) (ops : List ActivatorOp)
    (heard : List Heard)
    (hok : AllSteps RestartsUnknown track (begin cfg period) (ops ++ [.decide heard])) :
    let s := run track (begin cfg period) ops
    ∀ rec, (s.act.decide s.period heard).2.logged = some rec →
      BelongsTo (s.track (.decide heard)).answered rec.call rec.rstRcvd rec.onPeriod := by
  obtain ⟨hbefore,hlast,-⟩ := (allSteps_append _ _ _ _ _).mp hok
  have hstart : (begin cfg period).act.RecordsBelong (begin cfg period).answered :=
    ⟨by simp [begin,Activator.new],by simp [begin,Activator.new]⟩
  have hb := (always_of_allSteps (P := fun s => s.act.RecordsBelong s.answered)
    (fun s op => step_belongs) hstart hbefore).last
  exact (Activator.decide_belongs _ heard hb hlast).2

def fn31 : HString 6 := ⟨"FN31".toList,by decide⟩

/-- A contact from grid to rogered report. -/
theorem grid_contact_record_belongs :
    let s := run track (begin ⟨0,2,2,0⟩ 1) [.start,.decide [⟨w1aw,.grid fn31,-7⟩]]
    (s.act.decide s.period [closer]).2.logged = some ⟨w1aw,fn31,-7,some (-12),1,2⟩ ∧
      BelongsTo (s.track (.decide [closer])).answered w1aw (some (-12)) 1 := by
  intro s
  have hlogged : (s.act.decide s.period [closer]).2.logged = some ⟨w1aw,fn31,-7,some (-12),1,2⟩ := by
    decide
  exact ⟨hlogged,logged_record_belongs ⟨0,2,2,0⟩ 1 [.start,.decide [⟨w1aw,.grid fn31,-7⟩]] [closer]
    (by decide) _ hlogged⟩

/-- The station sends its report, starts over with its grid, and closes: the record still has the
report and the first period of the abandoned attempt. -/
theorem restarted_contact_keeps_old_record :
    let s := run track (begin ⟨0,2,2,0⟩ 1)
      [.start,.decide [⟨w1aw,.report (-3),-7⟩],.decide [⟨w1aw,.grid fn31,-7⟩]]
    let heard : List Heard := [⟨w1aw,.rr73,-7⟩]
    (s.act.decide s.period heard).2.logged = some ⟨w1aw,fn31,-7,some (-3),1,3⟩ ∧
      ¬ BelongsTo (s.track (.decide heard)).answered w1aw (some (-3)) 1 := by
  intro s heard
  have hanswered : (s.track (.decide heard)).answered =
      [(3,⟨w1aw,.rr73,-7⟩),(2,⟨w1aw,.grid fn31,-7⟩),(1,⟨w1aw,.report (-3),-7⟩)] := by decide
  refine ⟨by decide,?_⟩
  rw [hanswered]
  rintro ⟨-,x,hx,hp⟩
  have hcurrent : currentContact w1aw
      [(3,⟨w1aw,.rr73,-7⟩),(2,⟨w1aw,.grid fn31,-7⟩),(1,⟨w1aw,.report (-3),-7⟩)] =
      [(3,⟨w1aw,.rr73,-7⟩),(2,⟨w1aw,.grid fn31,-7⟩)] := by decide
  rw [hcurrent] at hx
  simp only [List.mem_cons,List.not_mem_nil,or_false] at hx
  rcases hx with rfl | rfl
  · cases hp
  · cases hp

end Activation
end MfskCore.App
