import MfskCore.App.ActivatorRuns
import Mathlib.Data.Finset.Card
import Mathlib.Order.Interval.Finset.Nat

/-! The list of the contacts closed lately (`recent`). It never fills up, because a decision notes one contact at most
and forgets what is more than four periods old, so a call stays in it for as long as it should. -/
namespace MfskCore.App
open Rust Library

namespace Activator

/-- A contact is closed: its entry is renewed, or a new one is made. -/
def noted (period : Nat) (call : Call) (recent : List Recent) : List Recent :=
  match recent.findIdx? (fun r => r.call = call) with
  | some i => recent.set i ⟨call,period⟩
  | none => pushEvict RECENT_MAX recent ⟨call,period⟩

theorem finish_noted {a : Activator} {p : Partner} (period : Nat) (hp : a.partner = some p) :
    (a.finish period none).1.recent = noted period p.call a.recent ∧
    ∀ rec, (a.finish period none).2 = some rec → rec.call = p.call ∧ ∀ r ∈ a.recent, r.call ≠ p.call := by
  have hany : (a.recent.findIdx? fun r => r.call = p.call).isSome = a.recent.any fun r => r.call = p.call :=
    List.findIdx?_isSome
  rw [noted]
  cases hi : a.recent.findIdx? (fun r => r.call = p.call) with
  | none =>
    rw [hi] at hany
    have hnone : ∀ r ∈ a.recent, ¬r.call = p.call := by simpa using List.findIdx?_eq_none_iff.1 hi
    by_cases ht : 0 < a.cfg.targetQsos ∧ a.cfg.targetQsos ≤ succU16 a.logged <;>
      simpa [finish,hp,← hany,ht] using hnone
  | some i =>
    rw [hi] at hany
    by_cases ht : 0 < a.cfg.targetQsos ∧ a.cfg.targetQsos ≤ a.logged <;>
      simp [finish,hp,← hany,hi,ht]

/-- Every contact noted was closed before the period, no two in the same one. -/
def Fresh (period : Nat) (recent : List Recent) : Prop :=
  (∀ r ∈ recent, r.period < period) ∧ (recent.map Recent.period).Nodup

theorem Fresh.filter {period : Nat} {recent : List Recent} (h : Fresh period recent) (keep : Recent → Bool) :
    Fresh period (recent.filter keep) :=
  ⟨fun r hr => h.1 r (List.mem_filter.1 hr).1,h.2.sublist (List.filter_sublist.map _)⟩

theorem Fresh.succ {period : Nat} {recent : List Recent} (h : Fresh period recent) : Fresh (period + 1) recent :=
  ⟨fun r hr => Nat.lt_succ_of_lt (h.1 r hr),h.2⟩

/-- What is left after the old contacts are forgotten is far from filling the list. -/
theorem Fresh.room {a : Activator} {period : Nat} (h : Fresh period a.recent) :
    (a.expire period).recent.length < RECENT_MAX := by
  have hsub : ((a.expire period).recent.map Recent.period).toFinset ⊆ Finset.Ico (period - RECENT_TTL) period := by
    intro n hn
    obtain ⟨r,hr,rfl⟩ := List.mem_map.1 (List.mem_toFinset.1 hn)
    obtain ⟨hmem,hage⟩ := List.mem_filter.1 hr
    have hlt := h.1 r hmem
    have hle : period - r.period ≤ RECENT_TTL := of_decide_eq_true hage
    exact Finset.mem_Ico.2 ⟨by omega,hlt⟩
  have hnodup : ((a.expire period).recent.map Recent.period).Nodup := (h.filter _).2
  have hcard := Finset.card_le_card hsub
  rw [List.toFinset_card_of_nodup hnodup,List.length_map,Nat.card_Ico] at hcard
  simp only [RECENT_TTL,RECENT_MAX] at hcard ⊢
  omega

theorem noted_cases (period : Nat) (call : Call) {recent : List Recent} (hroom : recent.length < RECENT_MAX) :
    (∃ i, ∃ hi : i < recent.length, recent[i].call = call ∧ noted period call recent = recent.set i ⟨call,period⟩) ∨
      noted period call recent = recent ++ [⟨call,period⟩] := by
  rw [noted]
  cases hi : recent.findIdx? (fun r => r.call = call) with
  | some i =>
    obtain ⟨hlt,hcall,-⟩ := List.findIdx?_eq_some_iff_getElem.1 hi
    exact .inl ⟨i,hlt,of_decide_eq_true hcall,rfl⟩
  | none =>
    refine .inr ?_
    change pushEvict RECENT_MAX recent _ = _
    rw [pushEvict,if_neg hroom.ne,pushCap,if_pos hroom]

theorem Fresh.noted {period : Nat} {recent : List Recent} (h : Fresh period recent) (call : Call)
    (hroom : recent.length < RECENT_MAX) : Fresh (period + 1) (noted period call recent) := by
  have hnew : period ∉ recent.map Recent.period := fun hmem => by
    obtain ⟨r,hr,heq⟩ := List.mem_map.1 hmem
    exact (h.1 r hr).ne heq
  rcases noted_cases period call hroom with ⟨i,hi,-,hset⟩ | happend
  · rw [hset]
    refine ⟨fun r hr => ?_,?_⟩
    · rcases List.mem_or_eq_of_mem_set hr with hr | rfl
      · exact Nat.lt_succ_of_lt (h.1 r hr)
      · exact Nat.lt_succ_self period
    · rw [List.map_set]
      exact List.Nodup.set h.2 hnew
  · rw [happend]
    refine ⟨fun r hr => ?_,?_⟩
    · rcases List.mem_append.1 hr with hr | hr
      · exact Nat.lt_succ_of_lt (h.1 r hr)
      · rw [List.mem_singleton.1 hr]
        exact Nat.lt_succ_self period
    · rw [List.map_append,List.map_singleton,← List.concat_eq_append]
      exact List.Nodup.concat hnew h.2

/-- The call has been noted at the period or later. -/
def Noted (since : Nat) (call : Call) (recent : List Recent) : Prop := ∃ r ∈ recent, r.call = call ∧ since ≤ r.period

/-- A contact noted stays noted, at least as recent as it was. -/
theorem Noted.noted {period since : Nat} {call : Call} {recent : List Recent} (h : Noted since call recent)
    (hsince : since ≤ period) (call' : Call) (hroom : recent.length < RECENT_MAX) :
    Noted since call (noted period call' recent) := by
  obtain ⟨r,hr,hcall,hperiod⟩ := h
  rcases noted_cases period call' hroom with ⟨i,hi,hi',hset⟩ | happend
  · rw [hset]
    obtain ⟨j,hj,rfl⟩ := List.getElem_of_mem hr
    by_cases hij : i = j
    · subst hij
      exact ⟨_,List.mem_set hi _,hi'.symm.trans hcall,hsince⟩
    · refine ⟨recent[j],List.mem_iff_getElem.2 ⟨j,?_,?_⟩,hcall,hperiod⟩
      · rwa [List.length_set]
      · exact List.getElem_set_ne hij _
  · rw [happend]
    exact ⟨r,List.mem_append_left _ hr,hcall,hperiod⟩

theorem noted_self (period : Nat) (call : Call) {recent : List Recent} (hroom : recent.length < RECENT_MAX) :
    Noted period call (noted period call recent) := by
  rcases noted_cases period call hroom with ⟨i,hi,-,hset⟩ | happend
  · rw [hset]
    exact ⟨_,List.mem_set hi _,rfl,Nat.le_refl _⟩
  · rw [happend]
    exact ⟨_,List.mem_append_right _ (List.mem_singleton_self _),rfl,Nat.le_refl _⟩

/-- What the reply to a message does to the list. -/
def answeredRecent (period : Nat) (h : Heard) (recent : List Recent) : List Recent :=
  if h.exchange.stage < 2 then recent.filter fun r => r.call ≠ h.sender
  else if h.exchange.stage = 2 then noted period h.sender recent
  else recent

theorem closing_sender (a : Activator) (period : Nat) (h : Heard) :
    (closing (a.contact period h).1 period h).call = h.sender := by
  rw [← contact_call a period h,closing]
  split <;> rfl

theorem opened_not_closing (p : Partner) (period : Nat) (h : Heard) {dest : Call} {ex : HString 6}
    (htx : (opened p period h).lastTx = .std dest ex) : ¬ (ex = rr73Text ∨ ex = s73Text) := by
  rw [not_or]
  rw [opened] at htx
  split at htx
  · cases htx; exact report_ne _ _
  · cases htx; exact report_ne _ _
  · cases htx; exact report_ne _ _

theorem reply_pending {a : Activator} (period : Nat) (h : Heard) (hphase : a.Active) :
    (a.reply period h none).1.pending = a.pending := by
  by_cases hs73 : h.exchange = .s73
  · rw [reply_s73 period none hs73]
  · rcases stage_cases hs73 with hs | hs
    · rw [reply_open period none hs hphase]
    · rw [reply_close period none hs]
      obtain ⟨_,_,_,_,hf,-⟩ := finish_cases (a := { a with
        partner := some (closing (a.contact period h).1 period h)
        dropped := (a.contact period h).2 }) period none rfl
      rw [hf]

theorem mem_queueOne {period : Nat} {call : Call} {pending : List (Heard × Nat)} {h : Heard} {x : Heard × Nat}
    (hx : x ∈ queueOne period call pending h) : x ∈ pending ∨ (x.1 = h ∧ h.sender ≠ call) := by
  rw [queueOne] at hx
  split at hx
  case isTrue => exact .inl hx
  case isFalse hskip =>
    have hset (i : Nat) (hx : x ∈ pending.set i (h,period)) : x ∈ pending ∨ (x.1 = h ∧ h.sender ≠ call) := by
      rcases List.mem_or_eq_of_mem_set hx with hx | rfl
      · exact .inl hx
      · exact .inr ⟨rfl,(not_or.1 hskip).1⟩
    split at hx
    · exact hset _ hx
    · split at hx
      · rcases List.mem_append.1 hx with hx | hx
        · exact .inl hx
        · rw [List.mem_singleton.1 hx]
          exact .inr ⟨rfl,(not_or.1 hskip).1⟩
      · split at hx
        · split at hx
          · split at hx
            · exact hset _ hx
            · exact .inl hx
          · exact .inl hx
        · exact .inl hx

/-- Who waits after the others are queued waited before, or has called now. -/
theorem mem_queueOthers {a : Activator} {period : Nat} {heard : List Heard} {call : Call} {x : Heard × Nat}
    (hx : x ∈ (a.queueOthers period heard call).pending) : x ∈ a.pending ∨ (x.1 ∈ heard ∧ x.1.sender ≠ call) := by
  change x ∈ heard.foldl (queueOne period call) a.pending at hx
  generalize a.pending = pending at hx ⊢
  induction heard generalizing pending with
  | nil => exact .inl hx
  | cons h heard ih =>
    rcases ih _ hx with hx | ⟨hheard,hne⟩
    · rcases mem_queueOne hx with hx | ⟨rfl,hne⟩
      · exact .inl hx
      · exact .inr ⟨List.mem_cons_self,hne⟩
    · exact .inr ⟨List.mem_cons_of_mem h hheard,hne⟩

/-- What a decision does to the list and to the queue, from the one message it answers. -/
structure Window (src : Heard → Prop) (period : Nat) (heard : List Heard) (a : Activator)
    (r : Activator × Option QsoRecord × Option TxMsg) (answered : Option Heard) : Prop where
  recent : r.1.recent = answered.elim a.recent fun h => answeredRecent period h a.recent
  source : ∀ h, answered = some h → src h
  logs : ∀ rec, r.2.1 = some rec → ∃ h, answered = some h ∧ h.exchange.stage = 2 ∧ rec.call = h.sender ∧
    ∀ e ∈ a.recent, e.call ≠ h.sender
  closes : ∀ dest ex, r.2.2 = some (.std dest ex) → ex = rr73Text ∨ ex = s73Text →
    ∃ h, answered = some h ∧ h.exchange.stage = 2 ∧ h.sender = dest
  waiting : ∀ x ∈ r.1.pending, x ∈ a.pending ∨ x.1 ∈ heard
  apart : ∀ h, answered = some h → h.exchange.stage = 2 → ∀ x ∈ r.1.pending, x.1.sender ≠ h.sender

variable {src : Heard → Prop}

theorem answer_window {a : Activator} (period : Nat) (heard : List Heard) {h : Heard} (hphase : a.Active)
    (hs73 : h.exchange ≠ .s73) (hsource : src h) (hapart : ∀ x ∈ a.pending, x.1.sender ≠ h.sender) :
    Window src period heard a ((a.reply period h none).1.queueOthers period heard h.sender,
      (a.reply period h none).2.1,(a.reply period h none).2.2) (some h) := by
  have hsome : ∀ h', some h = some h' → h' = h := fun h' heq => (Option.some.inj heq).symm
  have hqueue (x) (hx : x ∈ ((a.reply period h none).1.queueOthers period heard h.sender).pending) :
      x ∈ a.pending ∨ (x.1 ∈ heard ∧ x.1.sender ≠ h.sender) := by
    rw [← reply_pending period h hphase]
    exact mem_queueOthers hx
  have hwaiting : ∀ x ∈ ((a.reply period h none).1.queueOthers period heard h.sender).pending,
      x ∈ a.pending ∨ x.1 ∈ heard := fun x hx => (hqueue x hx).imp_right And.left
  have hothers : ∀ h', some h = some h' → h'.exchange.stage = 2 →
      ∀ x ∈ ((a.reply period h none).1.queueOthers period heard h.sender).pending, x.1.sender ≠ h'.sender := by
    rintro h' heq - x hx
    rw [hsome h' heq]
    exact (hqueue x hx).elim (hapart x) And.right
  have hfrom : ∀ h', some h = some h' → src h' := fun h' heq => hsome h' heq ▸ hsource
  rcases stage_cases hs73 with hs | hs
  · refine ⟨?_,hfrom,?_,?_,hwaiting,hothers⟩
    · rw [reply_open period none hs hphase,Option.elim_some,answeredRecent,if_pos hs]
      rfl
    · rw [reply_open period none hs hphase]
      rintro rec ⟨⟩
    · rw [reply_open period none hs hphase]
      intro dest ex htx hclosing
      exact absurd hclosing (opened_not_closing _ period h (Option.some.inj htx))
  · obtain ⟨hrecent,hlogs⟩ := finish_noted (a := { a with
      partner := some (closing (a.contact period h).1 period h)
      dropped := (a.contact period h).2 }) period rfl
    rw [closing_sender] at hrecent hlogs
    refine ⟨?_,hfrom,?_,?_,hwaiting,hothers⟩
    · rw [reply_close period none hs,Option.elim_some,answeredRecent,if_neg (by omega),if_pos hs]
      exact hrecent
    · rw [reply_close period none hs]
      intro rec hrec
      exact ⟨h,rfl,hs,hlogs rec hrec⟩
    · rw [reply_close period none hs]
      intro dest ex htx hclosing
      cases htx
      exact ⟨h,rfl,hs,rfl⟩

/-- A decision that answers nobody. -/
theorem silent_window {period : Nat} {heard : List Heard} {a b : Activator} {tx : Option TxMsg} (hrecent : b.recent = a.recent)
    (htx : ∀ dest ex, tx = some (.std dest ex) → ¬ (ex = rr73Text ∨ ex = s73Text))
    (hwaiting : ∀ x ∈ b.pending, x ∈ a.pending ∨ x.1 ∈ heard) : Window src period heard a (b,none,tx) none where
  recent := hrecent
  source _ h := by cases h
  logs _ h := by cases h
  closes dest ex h hclosing := absurd hclosing (htx dest ex h)
  waiting := hwaiting
  apart _ h := by cases h

theorem cq_window (period : Nat) (heard : List Heard) (a : Activator) :
    Window src period heard a (a.cq.1,none,a.cq.2) none := by
  rw [cq]
  dsimp only
  split
  · exact silent_window rfl (fun _ _ h => by cases h) fun x hx => .inl hx
  · exact silent_window rfl (fun _ _ h => by cases h) fun x hx => .inl hx

theorem next_window {a : Activator} (period : Nat) (heard : List Heard) (hphase : a.Active)
    (hheard : ∀ h ∈ heard, src h) (hpending : ∀ x ∈ a.pending, src x.1) :
    ∃ answered, Window src period heard a (a.nextCallerOrCq period heard none) answered := by
  rw [nextCallerOrCq]
  split
  case h_1 h hpick =>
    obtain ⟨hsource,hs73⟩ := pick_mem hpick
    have hsrc : src h := hsource.elim (hheard h) fun hqueue => hqueue.elim fun _ hq => hpending _ hq
    have hkeep : ∀ x ∈ a.pending.filter (fun x => x.1.sender ≠ h.sender), x ∈ a.pending ∧ x.1.sender ≠ h.sender :=
      fun x hx => (List.mem_filter.1 hx).imp_right of_decide_eq_true
    have hw := answer_window (a := { a with pending := a.pending.filter (fun x => x.1.sender ≠ h.sender) })
      period heard hphase hs73 hsrc fun x hx => (hkeep x hx).2
    have hsends := reply_sends (a := { a with pending := a.pending.filter (fun x => x.1.sender ≠ h.sender) })
      period hs73 hphase
    dsimp only
    rw [if_pos hsends]
    exact ⟨some h,hw.recent,hw.source,hw.logs,hw.closes,fun x hx => (hw.waiting x hx).imp_left fun hx => (hkeep x hx).1,
      hw.apart⟩
  case h_2 => exact ⟨none,cq_window period heard a⟩

/-- A decision answers at most one message, of this period or waiting. -/
theorem decideActive_window {a : Activator} (period : Nat) (heard : List Heard) (hphase : a.Active)
    (hpartner : ∀ p, a.partner = some p → (∀ x ∈ a.pending, x.1.sender ≠ p.call) ∧
      ∀ dest ex, p.lastTx = .std dest ex → ¬ (ex = rr73Text ∨ ex = s73Text)) :
    ∃ answered, Window (fun h => h ∈ heard ∨ ∃ q, (h,q) ∈ a.pending) period heard (a.expire period)
      (a.decideActive period heard) answered := by
  have hkeep : ∀ x ∈ (a.expire period).pending, x ∈ a.pending := fun x hx => (List.mem_filter.1 hx).1
  rw [decideActive]
  dsimp only
  split
  case h_1 p hp =>
    obtain ⟨hapart,hlast⟩ := hpartner p hp
    split
    case h_1 h hbest =>
      obtain ⟨hmem,hfrom⟩ := bestFrom_mem hbest
      by_cases hs73 : h.exchange = .s73
      · -- The partner says goodbye, and one who waits may be answered.
        rw [reply_s73 period none hs73]
        let c := ({ a.expire period with partner := none,dropped := ((a.expire period).contact period h).2 }).queueOthers
          period heard p.call
        have hqueue (x) (hx : x ∈ c.pending) : x ∈ (a.expire period).pending ∨ x.1 ∈ heard :=
          (mem_queueOthers hx).imp_right And.left
        obtain ⟨answered,hw⟩ : ∃ answered, Window (fun h => h ∈ heard ∨ ∃ q, (h,q) ∈ a.pending) period [] c
            (c.nextCallerOrCq period [] none) answered := by
          refine next_window period [] hphase ?_ ?_
          · exact fun h hh => absurd hh List.not_mem_nil
          · exact fun x hx => ((hqueue x hx).imp_left fun hx => ⟨x.2,hkeep x hx⟩).symm
        exact ⟨answered,hw.recent,hw.source,hw.logs,hw.closes,
          fun x hx => (hw.waiting x hx).elim (hqueue x) fun hx => absurd hx List.not_mem_nil,hw.apart⟩
      · have hw : Window (fun h => h ∈ heard ∨ ∃ q, (h,q) ∈ a.pending) period heard (a.expire period) _ (some h) :=
          answer_window period heard hphase hs73 (.inl hmem) fun x hx => hfrom ▸ hapart x (hkeep x hx)
        obtain ⟨tx,htx⟩ := Option.isSome_iff_exists.1 (reply_sends (a := a.expire period) period hs73 hphase)
        rw [htx,hfrom] at hw
        rw [htx]
        exact ⟨some h,hw⟩
    case h_2 =>
      split
      · refine ⟨none,silent_window rfl (fun dest ex htx => hlast dest ex (Option.some.inj htx)) fun x hx => ?_⟩
        exact (mem_queueOthers hx).imp_right And.left
      · have hphase' : ((a.expire period).dropPartner p).Active := hphase
        obtain ⟨answered,hw⟩ : ∃ answered, Window (fun h => h ∈ heard ∨ ∃ q, (h,q) ∈ a.pending) period heard
          ((a.expire period).dropPartner p) (((a.expire period).dropPartner p).nextCallerOrCq period heard none) answered := by
          refine next_window period heard hphase' ?_ ?_
          · exact fun h hh => .inl hh
          · exact fun x hx => .inr ⟨x.2,hkeep x hx⟩
        exact ⟨answered,hw.recent,hw.source,hw.logs,hw.closes,hw.waiting,hw.apart⟩
  case h_2 =>
    refine next_window (a := a.expire period) period heard hphase ?_ ?_
    · exact fun h hh => .inl hh
    · exact fun x hx => .inr ⟨x.2,hkeep x hx⟩

theorem Fresh.answered {period : Nat} {recent : List Recent} (h : Fresh period recent) (hroom : recent.length < RECENT_MAX)
    (heard : Heard) : Fresh (period + 1) (answeredRecent period heard recent) := by
  rw [answeredRecent]
  split
  · exact (h.filter _).succ
  · split
    · exact h.noted heard.sender hroom
    · exact h.succ

theorem Noted.answered {period since : Nat} {call : Call} {recent : List Recent} (h : Noted since call recent)
    (hsince : since ≤ period) (hroom : recent.length < RECENT_MAX) {heard : Heard}
    (hquiet : heard.sender = call → 2 ≤ heard.exchange.stage) : Noted since call (answeredRecent period heard recent) := by
  rw [answeredRecent]
  split
  case isTrue hs =>
    obtain ⟨r,hr,hcall,hperiod⟩ := h
    have hne : r.call ≠ heard.sender := fun heq => absurd (hquiet (heq.symm.trans hcall)) (by omega)
    exact ⟨r,List.mem_filter.2 ⟨hr,decide_eq_true hne⟩,hcall,hperiod⟩
  case isFalse =>
    split
    · exact h.noted hsince heard.sender hroom
    · exact h

/-- Nothing is forgotten within four periods. -/
theorem Noted.expire {a : Activator} {period since : Nat} {call : Call} (h : Noted since call a.recent)
    (hwindow : period ≤ since + RECENT_TTL) : Noted since call (a.expire period).recent := by
  obtain ⟨r,hr,hcall,hperiod⟩ := h
  refine ⟨r,List.mem_filter.2 ⟨hr,decide_eq_true ?_⟩,hcall,hperiod⟩
  omega

theorem decide_active {a : Activator} (period : Nat) (heard : List Heard) (hphase : a.Active) :
    (a.decide period heard).1 = (a.decideActive period heard).1 ∧
    (a.decide period heard).2.logged = (a.decideActive period heard).2.1 ∧
    (a.decide period heard).2.tx = (a.decideActive period heard).2.2 := by
  rcases hphase with hphase | hphase
  · simp [decide,hphase]
  · simp [decide,hphase]

/-- A machine that is not active logs nothing and stays so. -/
theorem decide_inactive {a : Activator} (period : Nat) (heard : List Heard) (hphase : ¬ a.Active) :
    (a.decide period heard).1.recent = a.recent ∧ ¬ (a.decide period heard).1.Active ∧
    (a.decide period heard).2.logged = none := by
  cases h : a.phase with
  | stopped => simp [decide,h,Active]
  | done =>
    rw [decide,h]
    dsimp only
    rw [decideDone]
    split
    · simp [Active]
    · split
      · simp [Active,h]
      · simp [Active,h]
  | cq => exact absurd (.inl h) hphase
  | working => exact absurd (.inr h) hphase

end Activator

/-- A message that opens a contact, or opens it again. -/
def Heard.opens (h : Heard) : Bool :=
  match h.exchange with
  | .none | .grid _ | .report _ => true
  | _ => false

theorem stage_of_not_opens {h : Heard} (ho : h.opens = false) : 2 ≤ h.exchange.stage := by
  rw [Heard.opens] at ho
  cases he : h.exchange <;> simp_all [Exchange.stage]

/-- The contact with the call is logged, or its RR73 or 73 is sent. -/
def Decision.Closes (d : Decision) (call : Call) : Prop :=
  (∃ rec, d.logged = some rec ∧ rec.call = call) ∨
    ∃ ex, d.tx = some (.std call ex) ∧ (ex = rr73Text ∨ ex = s73Text)

/-- The call sends nothing that opens a contact. -/
def ActivatorOp.NoOpening (call : Call) : ActivatorOp → Prop
  | .decide heard => ∀ h ∈ heard, h.sender = call → h.opens = false
  | _ => True

namespace Activation
open Activator

/-- The call is noted, and none of its messages that wait opens a contact. -/
def Guarded (since : Nat) (call : Call) (s : Activation) : Prop :=
  s.act.Active → Noted since call s.act.recent ∧
    ∀ x ∈ s.act.pending, x.1.sender = call → 2 ≤ x.1.exchange.stage

theorem Sound.window {s : Activation} (h : s.Sound) (hphase : s.act.Active) (heard : List Heard) :
    ∃ answered, Window (fun h => h ∈ heard ∨ ∃ q, (h,q) ∈ s.act.pending) s.period heard (s.act.expire s.period)
      (s.act.decideActive s.period heard) answered := by
  refine decideActive_window s.period heard hphase fun p hp => ⟨fun x hx => (h.waiting.all_ok x hx).2 p hp,?_⟩
  obtain ⟨-,ex,hlast,hne⟩ := h.partner_ok p hp
  intro dest ex' htx
  rw [hlast] at htx
  cases htx
  exact not_or.2 hne

/-- The list stays fresh whatever is called. -/
theorem fresh_step {s : Activation} (h : s.Sound) (hf : Fresh s.period s.act.recent) (op : ActivatorOp) :
    Fresh (s.track op).period (s.track op).act.recent := by
  cases op with
  | start => exact ⟨fun r hr => absurd hr List.not_mem_nil,List.nodup_nil⟩
  | stop => exact hf
  | decide heard =>
    change Fresh (s.period + 1) (s.act.decide s.period heard).1.recent
    by_cases hphase : s.act.Active
    · obtain ⟨answered,hw⟩ := h.window hphase heard
      rw [(decide_active s.period heard hphase).1,hw.recent]
      cases answered with
      | none => exact (hf.filter _).succ
      | some m => exact Fresh.answered (hf.filter _) hf.room m
    · rw [(decide_inactive s.period heard hphase).1]
      exact hf.succ

/-- The decision that closes the contact puts the call on guard. -/
theorem guarded_of_closes {s : Activation} (h : s.Sound) (hf : Fresh s.period s.act.recent) {heard : List Heard} {call : Call}
    (hclosed : (s.act.decide s.period heard).2.Closes call) : Guarded s.period call (s.track (.decide heard)) := by
  intro hactive
  change Activator.Active (s.act.decide s.period heard).1 at hactive
  change Noted s.period call (s.act.decide s.period heard).1.recent ∧
    ∀ x ∈ (s.act.decide s.period heard).1.pending, _
  by_cases hphase : s.act.Active
  · obtain ⟨answered,hw⟩ := h.window hphase heard
    obtain ⟨hact,hlogged,htx⟩ := decide_active s.period heard hphase
    rw [Decision.Closes,hlogged,htx] at hclosed
    obtain ⟨m,rfl,hs,rfl⟩ : ∃ m, answered = some m ∧ m.exchange.stage = 2 ∧ m.sender = call := by
      rcases hclosed with ⟨rec,hrec,rfl⟩ | ⟨ex,hex,hclosing⟩
      · obtain ⟨m,hm,hs,hcall,-⟩ := hw.logs rec hrec
        exact ⟨m,hm,hs,hcall.symm⟩
      · exact hw.closes call ex hex hclosing
    rw [hact,hw.recent,Option.elim_some,answeredRecent,if_neg (by omega),if_pos hs]
    exact ⟨noted_self s.period m.sender hf.room,fun x hx heq => absurd heq (hw.apart m rfl hs x hx)⟩
  · exact absurd hactive (decide_inactive s.period heard hphase).2.1

section Window
variable {s : Activation} {since : Nat} {call : Call} {heard : List Heard}

/-- A message that the call has not opened a contact with closes none that is logged. -/
theorem guarded_decide (h : s.Sound) (hf : Fresh s.period s.act.recent) (hg : Guarded since call s) (hsince : since ≤ s.period)
    (hwindow : s.period ≤ since + RECENT_TTL) (hquiet : (ActivatorOp.decide heard).NoOpening call) :
    Guarded since call (s.track (.decide heard)) ∧
      ∀ rec, (s.act.decide s.period heard).2.logged = some rec → rec.call ≠ call := by
  have hstage : ∀ m ∈ heard, m.sender = call → 2 ≤ m.exchange.stage := fun m hm hcall =>
    stage_of_not_opens (hquiet m hm hcall)
  change ((s.act.decide s.period heard).1.Active → Noted since call (s.act.decide s.period heard).1.recent ∧
    ∀ x ∈ (s.act.decide s.period heard).1.pending, _) ∧ _
  by_cases hphase : s.act.Active
  · obtain ⟨answered,hw⟩ := h.window hphase heard
    obtain ⟨hact,hlogged,-⟩ := decide_active s.period heard hphase
    obtain ⟨hnoted,hpending⟩ := hg hphase
    have hexpired := hnoted.expire hwindow
    rw [hact,hlogged]
    refine ⟨fun _ => ⟨?_,fun x hx hcall => ?_⟩,fun rec hrec hcall => ?_⟩
    · rw [hw.recent]
      cases answered with
      | none => exact hexpired
      | some m =>
        refine hexpired.answered hsince hf.room fun hcall => ?_
        exact (hw.source m rfl).elim (fun hm => hstage m hm hcall) fun ⟨q,hq⟩ => hpending _ hq hcall
    · rcases hw.waiting x hx with hx | hx
      · exact hpending x (List.mem_filter.1 hx).1 hcall
      · exact hstage x.1 hx hcall
    · obtain ⟨m,-,-,hm,hnew⟩ := hw.logs rec hrec
      obtain ⟨r,hr,hr',-⟩ := hexpired
      exact hnew r hr (hr'.trans (hcall.symm.trans hm))
  · obtain ⟨-,hstays,hlogged⟩ := decide_inactive s.period heard hphase
    rw [hlogged]
    exact ⟨fun hactive => absurd hactive hstays,fun rec hrec => by cases hrec⟩

theorem guarded_step (h : s.Sound) (hf : Fresh s.period s.act.recent) (hg : Guarded since call s) (hsince : since ≤ s.period)
    {op : ActivatorOp} (hwindow : (s.track op).period ≤ since + RECENT_TTL) (hquiet : op.NoOpening call) (hstart : op ≠ .start) :
    Guarded since call (s.track op) := by
  cases op with
  | start => exact absurd rfl hstart
  | stop => exact fun hactive => absurd hactive (by simp [track,stop,Activator.Active])
  | decide heard => exact (guarded_decide h hf hg hsince (Nat.le_of_succ_le hwindow) hquiet).1

theorem period_step (s : Activation) (op : ActivatorOp) : s.period ≤ (s.track op).period := by
  cases op with
  | start => exact Nat.le_refl _
  | stop => exact Nat.le_refl _
  | decide heard => exact Nat.le_succ _

theorem period_run (s : Activation) (ops : List ActivatorOp) : s.period ≤ (run track s ops).period := by
  induction ops generalizing s with
  | nil => exact Nat.le_refl _
  | cons op ops ih => exact (period_step s op).trans (ih _)

/-- The call stays on guard until four periods later. -/
theorem guarded_run (h : s.Sound) (hf : Fresh s.period s.act.recent) (hg : Guarded since call s) (hsince : since ≤ s.period)
    {rest : List ActivatorOp} (hwindow : (run track s rest).period ≤ since + RECENT_TTL)
    (hquiet : ∀ op ∈ rest, op.NoOpening call) (hstart : ∀ op ∈ rest, op ≠ .start) :
    Guarded since call (run track s rest) ∧ Fresh (run track s rest).period (run track s rest).act.recent := by
  induction rest generalizing s with
  | nil => exact ⟨hg,hf⟩
  | cons op rest ih =>
    have hnow := (period_run (s.track op) rest).trans hwindow
    exact ih (h.step op) (fresh_step h hf op)
      (guarded_step h hf hg hsince hnow (hquiet op List.mem_cons_self) (hstart op List.mem_cons_self))
      (hsince.trans (period_step s op)) hwindow (fun op hop => hquiet op (List.mem_cons_of_mem _ hop))
      fun op hop => hstart op (List.mem_cons_of_mem _ hop)

end Window

theorem fresh_run {s : Activation} (h : s.Sound) (hf : Fresh s.period s.act.recent) (ops : List ActivatorOp) :
    Fresh (run track s ops).period (run track s ops).act.recent := by
  induction ops generalizing s with
  | nil => exact hf
  | cons op ops ih => exact ih (h.step op) (fresh_step h hf op)

/-- A contact that was closed is not logged again within four periods, unless the call opens it again or the
activation is started over. -/
theorem no_second_log (cfg : Config) (period : Nat) (ops : List ActivatorOp) (heard : List Heard) (call : Call)
    (rest : List ActivatorOp) (later : List Heard) :
    let s := run track (begin cfg period) ops
    let s' := run track (s.track (.decide heard)) rest
    (s.act.decide s.period heard).2.Closes call → (∀ op ∈ rest ++ [.decide later], op.NoOpening call) →
    (∀ op ∈ rest, op ≠ .start) → s'.period ≤ s.period + 4 →
    ∀ rec, (s'.act.decide s'.period later).2.logged = some rec → rec.call ≠ call := by
  intro s s' hclosed hquiet hstart hwindow
  have hs : s.Sound := (run_sound cfg period ops).1
  have hf : Fresh s.period s.act.recent :=
    fresh_run (begin_sound cfg period) ⟨fun r hr => absurd hr List.not_mem_nil,List.nodup_nil⟩ ops
  have hs' : (s.track (.decide heard)).Sound := hs.step _
  obtain ⟨hg,hf'⟩ := guarded_run hs' (fresh_step hs hf _) (guarded_of_closes hs hf hclosed) (Nat.le_succ _) hwindow
    (fun op hop => hquiet op (List.mem_append_left _ hop)) hstart
  have hsound : s'.Sound := by
    have hall := (run_sound cfg period (ops ++ .decide heard :: rest)).1
    rwa [run_append] at hall
  have hsince : s.period ≤ s'.period := (period_step s _).trans (period_run (s.track (.decide heard)) rest)
  exact (guarded_decide hsound hf' hg hsince hwindow
    (hquiet _ (List.mem_append_right _ (List.mem_singleton_self _)))).2

/-- The station repeats its rogered report and gets its RR73 again. -/
theorem repeated_closer_not_logged :
    let s := run track (begin ⟨0,2,2,0⟩ 0) [.start]
    let s' := run track (s.track (.decide [closer])) [.decide []]
    ∀ rec, (s'.act.decide s'.period [closer]).2.logged = some rec → rec.call ≠ w1aw := by
  refine no_second_log ⟨0,2,2,0⟩ 0 [.start] [closer] w1aw [.decide []] [closer] ?_ ?_ ?_ (by decide)
  · exact .inr ⟨rr73Text,by decide,.inl rfl⟩
  · simp [ActivatorOp.NoOpening,closer,Heard.opens]
  · simp

/-- A start between the two forgets the first. -/
theorem second_log_after_start : ¬ ∀ (cfg : Config) (period : Nat) (ops : List ActivatorOp) (heard : List Heard)
    (call : Call) (rest : List ActivatorOp) (later : List Heard),
    let s := run track (begin cfg period) ops
    let s' := run track (s.track (.decide heard)) rest
    (s.act.decide s.period heard).2.Closes call → (∀ op ∈ rest ++ [.decide later], op.NoOpening call) →
    s'.period ≤ s.period + 4 →
    ∀ rec, (s'.act.decide s'.period later).2.logged = some rec → rec.call ≠ call := by
  intro h
  have hagain : ((run track ((run track (begin ⟨0,2,2,0⟩ 0) [.start]).track (.decide [closer])) [.start]).act.decide 1
      [closer]).2.logged = some ⟨w1aw,.empty,-7,some (-12),1,1⟩ := by decide
  refine h ⟨0,2,2,0⟩ 0 [.start] [closer] w1aw [.start] [closer] ?_ ?_ (by decide) _ hagain rfl
  · exact .inr ⟨rr73Text,by decide,.inl rfl⟩
  · simp [ActivatorOp.NoOpening,closer,Heard.opens]

end Activation
end MfskCore.App
