import MfskCore.App.ActivatorSteps

/-! Whole activations: any start, stop and decide calls, with the period advancing by one per
decision. Beside the machine the trace keeps what was heard since the start, how many decisions
logged a contact, and which messages were answered. -/
namespace MfskCore.App
open Rust Library

inductive ActivatorOp where
  | start
  | stop
  | decide (heard : List Heard)

namespace Activator

/-- The calls of `reply` that `nextCallerOrCq` makes: the state and the message. -/
def nextReplies (a : Activator) (heard : List Heard) : List (Activator × Heard) :=
  match a.pick heard with
  | some h => [({ a with pending := a.pending.filter (fun x => x.1.sender ≠ h.sender) },h)]
  | none => []

/-- The calls of `reply` that one decision makes, in order. -/
def replies (a : Activator) (period : Nat) (heard : List Heard) : List (Activator × Heard) :=
  if a.phase = .cq ∨ a.phase = .working then
    let a := a.expire period
    match a.partner with
    | some p =>
      match bestFrom heard p.call with
      | some h =>
        let r := a.reply period h none
        (a,h) :: if r.2.2.isSome then [] else (r.1.queueOthers period heard p.call).nextReplies []
      | none =>
        if period - p.lastHeard < a.cfg.giveUpPeriods then []
        else (a.dropPartner p).nextReplies heard
    | none => a.nextReplies heard
  else []

end Activator

structure Activation where
  act : Activator
  period : Nat
  log : List (Nat × Heard)
  contacts : Nat
  answered : List (Nat × Heard)

namespace Activation

def begin (cfg : Config) (period : Nat) : Activation := ⟨.new cfg,period,[],0,[]⟩

def track (s : Activation) : ActivatorOp → Activation
  | .start => { s with act := s.act.start,log := [],contacts := 0 }
  | .stop => { s with act := s.act.stop }
  | .decide heard =>
    let (a,d) := s.act.decide s.period heard
    { act := a
      period := s.period + 1
      log := heard.map (fun h => (s.period,h)) ++ s.log
      contacts := if d.logged.isSome then s.contacts + 1 else s.contacts
      answered := (s.act.replies s.period heard).reverse.map (fun x => (s.period,x.2)) ++ s.answered }

end Activation

namespace Activator

def Active (a : Activator) : Prop := a.phase = .cq ∨ a.phase = .working

/-- The count is below the target as long as contacts are being made, and never past it. -/
def OnTarget (a : Activator) : Prop :=
  0 < a.cfg.targetQsos → a.logged ≤ a.cfg.targetQsos ∧ (a.Active → a.logged < a.cfg.targetQsos)

/-- The closing texts answer the messages they belong to. -/
def Closes (ex : HString 6) (h : Heard) : Prop :=
  (ex = rr73Text → ∃ r, h.exchange = .rReport r) ∧
    (ex = s73Text → h.exchange = .rrr ∨ h.exchange = .rr73)

/-- What a decision of an active machine leaves behind. `known` are the calls heard, `src` the
messages that may be answered now, `ok` what is true of every waiting entry and `n` the contacts
logged before. -/
structure Outcome (known : Call → Prop) (src : Heard → Prop) (ok : Heard × Nat → Prop) (cfg : Config) (n : Nat)
    (r : Activator × Option QsoRecord × Option TxMsg) : Prop where
  cfg_eq : r.1.cfg = cfg
  partner_iff : r.1.partner.isSome ↔ r.1.phase = .working
  partner_ok : ∀ p, r.1.partner = some p → known p.call ∧
    ∃ ex, p.lastTx = .std p.call ex ∧ ex ≠ rr73Text ∧ ex ≠ s73Text
  waiting : Waiting (fun x => ok x ∧ ∀ p, r.1.partner = some p → x.1.sender ≠ p.call) r.1.pending
  total : r.1.logged = if r.2.1.isSome then succU16 n else n
  onTarget : r.1.OnTarget
  closes : ∀ rec, r.2.1 = some rec → ∃ ex, r.2.2 = some (.std rec.call ex) ∧
    (ex = rr73Text ∨ ex = s73Text)
  sends : ∀ dest ex, r.2.2 = some (.std dest ex) → known dest ∧
    (ex = rr73Text ∨ ex = s73Text → ∃ h, src h ∧ h.sender = dest ∧ Closes ex h)

variable {known : Call → Prop} {src : Heard → Prop} {ok : Heard × Nat → Prop}

private theorem opened_call (p : Partner) (period : Nat) (h : Heard) :
    (opened p period h).call = p.call := by
  rw [opened]
  split <;> rfl

private theorem opened_lastTx (p : Partner) (period : Nat) (h : Heard) :
    ∃ ex, (opened p period h).lastTx = .std h.sender ex ∧ ex ≠ rr73Text ∧ ex ≠ s73Text := by
  rw [opened]
  split
  · exact ⟨_,rfl,report_ne _ _⟩
  · exact ⟨_,rfl,report_ne _ _⟩
  · exact ⟨_,rfl,report_ne _ _⟩

private theorem closing_call (p : Partner) (period : Nat) (h : Heard) :
    (closing p period h).call = p.call := by
  rw [closing]
  split <;> rfl

private theorem closes_closingText {h : Heard} (hs : h.exchange.stage = 2) :
    Closes (closingText h) h ∧ (closingText h = rr73Text ∨ closingText h = s73Text) := by
  have hne : rr73Text ≠ s73Text := by decide
  cases he : h.exchange with
  | rReport r => simp [closingText,he,Closes,hne]
  | rrr => simp [closingText,he,Closes,hne.symm]
  | rr73 => simp [closingText,he,Closes,hne.symm]
  | none => simp [he,Exchange.stage] at hs
  | grid g => simp [he,Exchange.stage] at hs
  | report r => simp [he,Exchange.stage] at hs
  | s73 => simp [he,Exchange.stage] at hs

theorem stage_cases {h : Heard} (hs : h.exchange ≠ .s73) :
    h.exchange.stage < 2 ∨ h.exchange.stage = 2 := by
  cases he : h.exchange <;> simp_all [Exchange.stage]

private theorem lt_target {target n m : Nat} (hn : n < target) (hm : m = n ∨ m = succU16 n) :
    m ≤ target := by
  rcases hm with rfl | rfl
  · exact Nat.le_of_lt hn
  · rw [succU16]
    omega

theorem reply_sends {a : Activator} {h : Heard} (period : Nat) (hs73 : h.exchange ≠ .s73)
    (hphase : a.Active) : (a.reply period h none).2.2.isSome := by
  rcases stage_cases hs73 with hs | hs
  · rw [reply_open period none hs hphase]
    rfl
  · rw [reply_close period none hs]
    rfl

variable (known src) in
/-- Answering a caller, and queueing the others, is sound whether the contact stays open or not. -/
private theorem answer_outcome {a : Activator} {period : Nat} {heard : List Heard} {h : Heard}
    (hphase : a.Active) (htarget : a.OnTarget) (hs73 : h.exchange ≠ .s73) (hsrc : src h)
    (hknown : known h.sender) (hheard : ∀ g ∈ heard, ok (g,period))
    (hw : Waiting (fun x => ok x ∧ x.1.sender ≠ h.sender) a.pending) :
    Outcome known src ok a.cfg a.logged ((a.reply period h none).1.queueOthers period heard h.sender,
      (a.reply period h none).2.1,(a.reply period h none).2.2) := by
  have hqueue : ∀ b : Activator, b.pending = a.pending →
      Waiting (fun x => ok x ∧ x.1.sender ≠ h.sender) (b.queueOthers period heard h.sender).pending := by
    intro b hb
    exact Waiting.queueOthers (hb ▸ hw) (fun g hg hne => ⟨hheard g hg,hne⟩)
  rcases stage_cases hs73 with hs | hs
  · have hcall := (opened_call (a.contact period h).1 period h).trans (contact_call a period h)
    obtain ⟨ex,htx,hne⟩ := opened_lastTx (a.contact period h).1 period h
    rw [reply_open period none hs hphase]
    refine ⟨rfl,by simp [queueOthers],?_,?_,rfl,?_,by simp,?_⟩
    · rintro p hp
      obtain rfl := Option.some.inj hp
      exact ⟨hcall ▸ hknown,ex,hcall ▸ htx,hne⟩
    · refine (hqueue _ rfl).mono ?_
      rintro x - ⟨hok,hx⟩
      refine ⟨hok,?_⟩
      rintro p hp
      obtain rfl := Option.some.inj hp
      rw [hcall]
      exact hx
    · intro hpos
      have hlt := (htarget hpos).2 hphase
      exact ⟨Nat.le_of_lt hlt,fun _ => hlt⟩
    · intro dest ex' he
      rw [htx] at he
      obtain ⟨rfl,rfl⟩ : h.sender = dest ∧ ex = ex' := by simpa using he
      refine ⟨hknown,?_⟩
      rintro (rfl | rfl)
      · exact absurd rfl hne.1
      · exact absurd rfl hne.2
  · have hcall := (closing_call (a.contact period h).1 period h).trans (contact_call a period h)
    obtain ⟨hcl,htext⟩ := closes_closingText hs
    rw [reply_close period none hs]
    obtain ⟨recent,doneAt,total,logged,hf,hcases⟩ := finish_cases
      (a := { a with
        partner := some (closing (a.contact period h).1 period h)
        dropped := (a.contact period h).2 }) period none rfl
    rw [hf]
    have htotal : total = a.logged ∨ total = succU16 a.logged := hcases.imp And.left And.left
    refine ⟨rfl,?_,by simp [queueOthers],?_,?_,?_,?_,?_⟩
    · simp only [queueOthers,Option.isSome_none]
      split <;> simp
    · refine (hqueue _ rfl).mono ?_
      rintro x - ⟨hok,-⟩
      exact ⟨hok,by simp [queueOthers]⟩
    · rcases hcases with ⟨rfl,rfl⟩ | ⟨rfl,rfl⟩ <;> rfl
    · intro hpos
      refine ⟨lt_target ((htarget hpos).2 hphase) htotal,?_⟩
      intro hact
      simp only [queueOthers,Active] at hact hpos ⊢
      by_contra hge
      rw [if_pos ⟨hpos,Nat.le_of_not_lt hge⟩] at hact
      simp at hact
    · intro rec hrec
      rcases hcases with ⟨-,hl⟩ | ⟨-,hl⟩
      · simp only [hl] at hrec
        cases hrec
      · simp only [hl,Option.some.injEq] at hrec
        subst hrec
        exact ⟨closingText h,by rw [hcall],htext⟩
    · intro dest ex he
      obtain ⟨rfl,rfl⟩ : h.sender = dest ∧ closingText h = ex := by simpa using he
      exact ⟨hknown,fun _ => ⟨h,hsrc,rfl,hcl⟩⟩

private theorem cq_outcome {a : Activator} (hpartner : a.partner = none) (hphase : a.Active)
    (htarget : a.OnTarget) (hw : Waiting ok a.pending) :
    Outcome known src ok a.cfg a.logged (a.cq.1,none,a.cq.2) := by
  have hlt : 0 < a.cfg.targetQsos → a.logged < a.cfg.targetQsos := fun hpos =>
    (htarget hpos).2 hphase
  have hw' : Waiting (fun x => ok x ∧ ∀ p, a.partner = some p → x.1.sender ≠ p.call) a.pending :=
    hw.mono (fun x _ hok => ⟨hok,by simp [hpartner]⟩)
  rw [cq]
  dsimp only
  split
  · exact ⟨rfl,by simp [hpartner],by simp [hpartner],hw',rfl,
      fun hpos => ⟨Nat.le_of_lt (hlt hpos),fun _ => hlt hpos⟩,by simp,by simp⟩
  · exact ⟨rfl,by simp [hpartner],by simp [hpartner],hw',rfl,
      fun hpos => ⟨Nat.le_of_lt (hlt hpos),fun _ => hlt hpos⟩,by simp,by simp⟩

/-- Without a partner the best caller is answered, or CQ is called. -/
private theorem next_outcome {a : Activator} {period : Nat} {heard : List Heard}
    (hpartner : a.partner = none) (hphase : a.Active) (htarget : a.OnTarget)
    (hsrc : ∀ h, src h → known h.sender) (hheard : ∀ g ∈ heard, src g ∧ ok (g,period))
    (hw : Waiting (fun x => ok x ∧ src x.1) a.pending) :
    Outcome known src ok a.cfg a.logged (a.nextCallerOrCq period heard none) := by
  rw [nextCallerOrCq]
  split
  · rename_i h hpick
    obtain ⟨hm,hs73⟩ := pick_mem hpick
    have hh : src h := by
      rcases hm with hm | ⟨q,hq⟩
      · exact (hheard h hm).1
      · exact (hw.all_ok _ hq).2
    have hrest : Waiting (fun x => ok x ∧ x.1.sender ≠ h.sender)
        (a.pending.filter (fun x => x.1.sender ≠ h.sender)) := by
      refine (hw.filter _).mono ?_
      rintro x hx ⟨hok,-⟩
      exact ⟨hok,by simpa using (List.mem_filter.mp hx).2⟩
    have hanswer := answer_outcome known src
      (a := { a with pending := a.pending.filter (fun x => x.1.sender ≠ h.sender) })
      hphase htarget hs73 hh (hsrc h hh) (fun g hg => (hheard g hg).2) hrest
    have hsends := reply_sends
      (a := { a with pending := a.pending.filter (fun x => x.1.sender ≠ h.sender) })
      period hs73 hphase
    dsimp only
    rw [if_pos hsends]
    exact ⟨hanswer.cfg_eq,hanswer.partner_iff,hanswer.partner_ok,hanswer.waiting,hanswer.total,hanswer.onTarget,
      hanswer.closes,hanswer.sends⟩
  · exact cq_outcome hpartner hphase htarget (hw.mono fun x _ h => h.1)

/-- A decision of an active machine: the partner is answered, waited for, or given up. -/
private theorem decideActive_outcome {a : Activator} {period : Nat} {heard : List Heard}
    (hphase : a.Active) (htarget : a.OnTarget)
    (hpartner : ∀ p, a.partner = some p → known p.call ∧
      ∃ ex, p.lastTx = .std p.call ex ∧ ex ≠ rr73Text ∧ ex ≠ s73Text)
    (hworking : a.partner.isSome → a.phase = .working)
    (hsrc : ∀ h, src h → known h.sender) (hheard : ∀ g ∈ heard, src g ∧ ok (g,period))
    (hw : Waiting (fun x => (ok x ∧ (period - x.2 ≤ PENDING_TTL → src x.1)) ∧
      ∀ p, a.partner = some p → x.1.sender ≠ p.call) a.pending) :
    Outcome known src ok a.cfg a.logged (a.decideActive period heard) := by
  have hw' : Waiting (fun x => (ok x ∧ src x.1) ∧ ∀ p, a.partner = some p → x.1.sender ≠ p.call)
      (a.expire period).pending := by
    refine (hw.filter _).mono ?_
    rintro x hx ⟨⟨hok,hsx⟩,hp⟩
    exact ⟨⟨hok,hsx (by simpa using (List.mem_filter.mp hx).2)⟩,hp⟩
  rw [decideActive]
  dsimp only
  split
  · rename_i p hp
    have hp' : a.partner = some p := hp
    obtain ⟨hk,ex,htx,hne⟩ := hpartner p hp'
    have hothers : Waiting (fun x => (ok x ∧ src x.1) ∧ x.1.sender ≠ p.call)
        (a.expire period).pending := hw'.mono (fun x _ h => ⟨h.1,h.2 p hp'⟩)
    split
    · rename_i h hbest
      obtain ⟨hmem,hfrom⟩ := bestFrom_mem hbest
      have hcontact := contact_partner (a := a.expire period) period hp hfrom.symm
      have hqueued : Waiting (fun x => (ok x ∧ src x.1) ∧ x.1.sender ≠ p.call)
          (({ a.expire period with partner := none }).queueOthers period heard p.call).pending :=
        Waiting.queueOthers hothers
          (fun g hg hne => ⟨⟨(hheard g hg).2,(hheard g hg).1⟩,hne⟩)
      by_cases hs73 : h.exchange = .s73
      · rw [reply_s73 period none hs73,hcontact]
        have hnobody : ∀ g ∈ ([] : List Heard), src g ∧ ok (g,period) := by simp
        exact next_outcome
          (a := ({ a.expire period with partner := none }).queueOthers period heard p.call)
          rfl hphase htarget hsrc hnobody (hqueued.mono fun x _ h => h.1)
      · have hreply := answer_outcome known src (a := a.expire period) (h := h) hphase htarget hs73
          (hheard h hmem).1 (hfrom ▸ hk) (fun g hg => (hheard g hg).2)
          (hothers.mono fun x _ h => ⟨h.1.1,hfrom ▸ h.2⟩)
        obtain ⟨tx,htx⟩ := Option.isSome_iff_exists.mp
          (reply_sends (a := a.expire period) period hs73 hphase)
        rw [htx]
        rw [htx,hfrom] at hreply
        exact hreply
    · split
      · have hqueued : Waiting (fun x => ok x ∧ x.1.sender ≠ p.call)
            ((a.expire period).queueOthers period heard p.call).pending :=
          Waiting.queueOthers (hothers.mono fun x _ h => ⟨h.1.1,h.2⟩)
            (fun g hg hne => ⟨(hheard g hg).2,hne⟩)
        refine ⟨rfl,?_,?_,?_,rfl,htarget,by simp,?_⟩
        · exact ⟨fun _ => hworking (by rw [hp']; rfl),fun _ => by simp [queueOthers,hp]⟩
        · exact hpartner
        · refine hqueued.mono ?_
          rintro x - ⟨hok,hx⟩
          refine ⟨hok,?_⟩
          intro q hq
          obtain rfl := Option.some.inj (hp.symm.trans hq)
          exact hx
        · intro dest ex' he
          rw [htx] at he
          obtain ⟨rfl,rfl⟩ : p.call = dest ∧ ex = ex' := by simpa using he
          exact ⟨hk,fun h => absurd h (not_or.mpr hne)⟩
      · exact next_outcome (a := (a.expire period).dropPartner p) rfl hphase htarget hsrc hheard
          (hothers.mono fun x _ h => h.1)
  · rename_i hp
    exact next_outcome (a := a.expire period) hp hphase htarget hsrc hheard
      (hw'.mono fun x _ h => h.1)

/-- Past the target only a rogered report heard now is answered. -/
private theorem decideDone_outcome {a : Activator} {period : Nat} {heard : List Heard}
    (hphase : a.phase = .done) (hpartner : a.partner = none) (htarget : a.OnTarget)
    (hsrc : ∀ h, src h → known h.sender) (hheard : ∀ g ∈ heard, src g)
    (hw : Waiting ok a.pending) :
    Outcome known src ok a.cfg a.logged ((a.decideDone period heard).1,none,(a.decideDone period heard).2) := by
  have hw' : Waiting (fun x => ok x ∧ ∀ p, a.partner = some p → x.1.sender ≠ p.call) a.pending :=
    hw.mono (fun x _ hok => ⟨hok,by simp [hpartner]⟩)
  have hle : 0 < a.cfg.targetQsos → a.logged ≤ a.cfg.targetQsos := fun hpos => (htarget hpos).1
  rw [decideDone]
  split
  · exact ⟨rfl,by simp [hpartner],by simp [hpartner],hw',rfl,fun hpos => ⟨hle hpos,by simp [Active]⟩,
      by simp,by simp⟩
  · split
    · rename_i h hfind
      have hmem := List.mem_of_find?_eq_some hfind
      have hrr73 : stdMsg h.sender.chars "RR73".toList = some (.std h.sender rr73Text) :=
        stdMsg_eq _ rr73Text
      obtain ⟨r,hr⟩ : ∃ r, h.exchange = .rReport r := by
        have := List.find?_some hfind
        rw [Bool.and_eq_true] at this
        cases he : h.exchange <;> simp_all
      rw [hrr73]
      refine ⟨rfl,by simp [hpartner,hphase],by simp [hpartner],hw',rfl,htarget,by simp,?_⟩
      intro dest ex he
      obtain ⟨rfl,rfl⟩ : h.sender = dest ∧ rr73Text = ex := by simpa using he
      have hne : rr73Text ≠ s73Text := by decide
      exact ⟨hsrc h (hheard h hmem),fun _ => ⟨h,hheard h hmem,rfl,fun _ => ⟨r,hr⟩,fun he => absurd he hne⟩⟩
    · exact ⟨rfl,by simp [hpartner,hphase],by simp [hpartner],hw',rfl,htarget,by simp,by simp⟩

end Activator

namespace Activation

/-- A call heard since the start. -/
def Knows (s : Activation) (call : Call) : Prop := ∃ x ∈ s.log, x.2.sender = call

/-- The messages a decision may answer: heard now, or queued at most two periods ago. -/
def Answerable (s : Activation) (heard : List Heard) (h : Heard) : Prop :=
  h ∈ heard ∨ ∃ q, (h,q) ∈ s.act.pending ∧ s.period ≤ q + PENDING_TTL

/-- What holds between any two calls of an activation. -/
structure Sound (s : Activation) : Prop where
  partner_iff : s.act.partner.isSome ↔ s.act.phase = .working
  partner_ok : ∀ p, s.act.partner = some p → s.Knows p.call ∧
    ∃ ex, p.lastTx = .std p.call ex ∧ ex ≠ rr73Text ∧ ex ≠ s73Text
  waiting : Activator.Waiting (fun x => (x.2,x.1) ∈ s.log ∧
    ∀ p, s.act.partner = some p → x.1.sender ≠ p.call) s.act.pending
  total : s.act.logged = min s.contacts 65535
  onTarget : s.act.OnTarget

private theorem Sound.partner_none {s : Activation} (h : s.Sound) (hp : s.act.phase ≠ .working) :
    s.act.partner = none := by
  cases hs : s.act.partner with
  | none => rfl
  | some p => exact absurd (h.partner_iff.mp (by rw [hs]; rfl)) hp

theorem begin_sound (cfg : Config) (period : Nat) : (begin cfg period).Sound := by
  refine ⟨by simp [begin,Activator.new],by simp [begin,Activator.new],?_,rfl,?_⟩
  · exact ⟨by simp [begin,Activator.new],by simp [begin,Activator.new],by simp [begin,Activator.new]⟩
  · exact fun hpos => ⟨Nat.zero_le _,fun _ => hpos⟩

/-- Every decision of a sound activation has a sound outcome. -/
theorem Sound.decide_outcome {s : Activation} (h : s.Sound) (heard : List Heard) :
    let s' := s.track (.decide heard)
    let d := (s.act.decide s.period heard).2
    Activator.Outcome s'.Knows (s.Answerable heard)
      (fun x => (x.2,x.1) ∈ s'.log) s.act.cfg s.act.logged (s'.act,d.logged,d.tx) := by
  intro s' d
  have hlog : s'.log = heard.map (fun h => (s.period,h)) ++ s.log := rfl
  have hnow : ∀ g ∈ heard, (s.period,g) ∈ s'.log := by
    intro g hg
    rw [hlog]
    exact List.mem_append_left _ (List.mem_map_of_mem hg)
  have hold : ∀ x ∈ s.log, x ∈ s'.log := fun x hx => List.mem_append_right _ hx
  have hsrc : ∀ g, s.Answerable heard g → s'.Knows g.sender := by
    rintro g (hg | ⟨q,hq,-⟩)
    · exact ⟨_,hnow g hg,rfl⟩
    · exact ⟨_,hold _ (h.waiting.all_ok _ hq).1,rfl⟩
  have hheard : ∀ g ∈ heard, s.Answerable heard g := fun g hg => Or.inl hg
  have hw := h.waiting.mono (fun x _ hx => hold _ hx.1)
  have hactive : s.act.Active → Activator.Outcome s'.Knows (s.Answerable heard)
      (fun x => (x.2,x.1) ∈ s'.log) s.act.cfg s.act.logged (s'.act,d.logged,d.tx) := by
    intro hactive
    have hd : s.act.decide s.period heard = ((s.act.decideActive s.period heard).1,
        ⟨(s.act.decideActive s.period heard).2.2,(s.act.decideActive s.period heard).2.1,
          (s.act.decideActive s.period heard).1.phase,(s.act.decideActive s.period heard).1.logged⟩) := by
      rcases hactive with hphase | hphase <;> simp [Activator.decide,hphase]
    have hact : s'.act = (s.act.decideActive s.period heard).1 := by simp only [s',track,hd]
    simp only [d,hact,hd]
    refine Activator.decideActive_outcome hactive h.onTarget ?_ h.partner_iff.mp hsrc
      (fun g hg => ⟨hheard g hg,hnow g hg⟩) (h.waiting.mono ?_)
    · intro p hp
      obtain ⟨⟨x,hx,hc⟩,htx⟩ := h.partner_ok p hp
      exact ⟨⟨x,hold x hx,hc⟩,htx⟩
    · rintro x hx ⟨hxlog,hxp⟩
      refine ⟨⟨hold _ hxlog,?_⟩,hxp⟩
      intro hage
      exact Or.inr ⟨x.2,hx,by omega⟩
  cases hphase : s.act.phase with
  | stopped =>
    have hpartner := h.partner_none (by rw [hphase]; decide)
    have hd : s.act.decide s.period heard = (s.act,⟨none,none,s.act.phase,s.act.logged⟩) := by
      simp [Activator.decide,hphase]
    have hact : s'.act = s.act := by simp only [s',track,hd]
    simp only [d,hact,hd]
    refine ⟨rfl,h.partner_iff,by simp [hpartner],hw.mono fun x _ hx => ⟨hx,by simp [hpartner]⟩,rfl,
      h.onTarget,by simp,by simp⟩
  | done =>
    have hpartner := h.partner_none (by rw [hphase]; decide)
    have hd : s.act.decide s.period heard = ((s.act.decideDone s.period heard).1,
        ⟨(s.act.decideDone s.period heard).2,none,(s.act.decideDone s.period heard).1.phase,
          (s.act.decideDone s.period heard).1.logged⟩) := by
      simp [Activator.decide,hphase]
    have hact : s'.act = (s.act.decideDone s.period heard).1 := by simp only [s',track,hd]
    simp only [d,hact,hd]
    exact Activator.decideDone_outcome hphase hpartner h.onTarget hsrc hheard hw
  | cq => exact hactive (Or.inl hphase)
  | working => exact hactive (Or.inr hphase)

theorem Sound.step {s : Activation} (h : s.Sound) (op : ActivatorOp) : (s.track op).Sound := by
  cases op with
  | start =>
    refine ⟨by simp [track,Activator.start],by simp [track,Activator.start],?_,rfl,?_⟩
    · exact ⟨by simp [track,Activator.start],by simp [track,Activator.start],
        by simp [track,Activator.start]⟩
    · exact fun hpos => ⟨Nat.zero_le _,fun _ => hpos⟩
  | stop =>
    refine ⟨by simp [track,Activator.stop],by simp [track,Activator.stop],?_,h.total,?_⟩
    · exact ⟨by simp [track,Activator.stop],by simp [track,Activator.stop],
        by simp [track,Activator.stop]⟩
    · exact fun hpos => ⟨(h.onTarget hpos).1,by simp [track,Activator.stop,Activator.Active]⟩
  | decide heard =>
    have ho := h.decide_outcome heard
    refine ⟨ho.partner_iff,ho.partner_ok,ho.waiting,?_,ho.onTarget⟩
    have htotal := ho.total
    have hbefore := h.total
    simp only at htotal
    rw [htotal,hbefore]
    simp only [track]
    split
    · rw [succU16]
      omega
    · rfl

private theorem Sound.cfg_step {s : Activation} (h : s.Sound) (op : ActivatorOp) :
    (s.track op).act.cfg = s.act.cfg := by
  cases op with
  | start => rfl
  | stop => rfl
  | decide heard => exact (h.decide_outcome heard).cfg_eq

theorem run_sound (cfg : Config) (period : Nat) (ops : List ActivatorOp) :
    (run track (begin cfg period) ops).Sound ∧ (run track (begin cfg period) ops).act.cfg = cfg := by
  have hrun : ∀ s : Activation, s.Sound → (run track s ops).Sound ∧
      (run track s ops).act.cfg = s.act.cfg := by
    induction ops with
    | nil => exact fun s h => ⟨h,rfl⟩
    | cons op ops ih =>
      intro s h
      obtain ⟨hs,hc⟩ := ih _ (h.step op)
      exact ⟨hs,hc.trans (h.cfg_step op)⟩
  exact hrun _ (begin_sound cfg period)

/-- Every decision of every activation keeps phase and partner together, counts what it logs,
logs only what it closes on the air, and answers only what it has heard. -/
theorem run_safety (cfg : Config) (period : Nat) (ops : List ActivatorOp) (heard : List Heard) :
    let s := run track (begin cfg period) ops
    let d := (s.act.decide s.period heard).2
    let s' := s.track (.decide heard)
    (s'.act.Active → (s'.act.phase = .working ↔ s'.act.partner.isSome)) ∧
    (s'.act.phase = .done ∨ s'.act.phase = .stopped → s'.act.partner = none) ∧
    d.loggedTotal = min s'.contacts 65535 ∧
    (0 < cfg.targetQsos → d.loggedTotal ≤ cfg.targetQsos) ∧
    (∀ rec, d.logged = some rec → ∃ ex, d.tx = some (.std rec.call ex) ∧ (ex = rr73Text ∨ ex = s73Text)) ∧
    (∀ dest ex, d.tx = some (.std dest ex) → s'.Knows dest) ∧
    (∀ dest, d.tx = some (.std dest rr73Text) →
      ∃ h r, s.Answerable heard h ∧ h.sender = dest ∧ h.exchange = .rReport r) ∧
    (∀ dest, d.tx = some (.std dest s73Text) →
      ∃ h, s.Answerable heard h ∧ h.sender = dest ∧ (h.exchange = .rrr ∨ h.exchange = .rr73)) ∧
    (s'.act.pending.map (fun x => x.1.sender)).Nodup ∧
    ∀ x ∈ s'.act.pending, x.1.exchange ≠ .s73 ∧
      ∀ p, s'.act.partner = some p → x.1.sender ≠ p.call := by
  intro s d s'
  obtain ⟨hs,hcfg⟩ : s.Sound ∧ s.act.cfg = cfg := run_sound cfg period ops
  have ho := hs.decide_outcome heard
  have hs' : s'.Sound := hs.step _
  have hcfg' : s'.act.cfg = cfg := (hs.cfg_step _).trans hcfg
  have hlogged : d.loggedTotal = s'.act.logged := rfl
  refine ⟨fun _ => hs'.partner_iff.symm,?_,hlogged.trans hs'.total,?_,ho.closes,?_,?_,?_,
    hs'.waiting.distinct,?_⟩
  · intro hphase
    apply hs'.partner_none
    rcases hphase with hphase | hphase <;> rw [hphase] <;> decide
  · rw [← hcfg']
    exact fun hpos => (hs'.onTarget hpos).1
  · exact fun dest ex htx => (ho.sends dest ex htx).1
  · intro dest htx
    obtain ⟨h,hsrc,hfrom,hcl⟩ := (ho.sends dest _ htx).2 (Or.inl rfl)
    obtain ⟨r,hr⟩ := hcl.1 rfl
    exact ⟨h,r,hsrc,hfrom,hr⟩
  · intro dest htx
    obtain ⟨h,hsrc,hfrom,hcl⟩ := (ho.sends dest _ htx).2 (Or.inr rfl)
    exact ⟨h,hsrc,hfrom,hcl.2 rfl⟩
  · exact fun x hx => ⟨hs'.waiting.owed x hx,(hs'.waiting.all_ok x hx).2⟩

/-- One station that calls and rogers, over and over. -/
def w1aw : Call := ⟨"W1AW".toList,by decide⟩
def opening : Heard := ⟨w1aw,.none,-7⟩
def closer : Heard := ⟨w1aw,.rReport (-12),-7⟩

private theorem opening_step (n period : Nat) (recent : List Recent) (hr : ∀ r ∈ recent, r.call = w1aw) :
    ∃ p d, p.call = w1aw ∧ d.logged = none ∧
    (⟨⟨0,2,2,0⟩,.cq,none,[],recent,[],n,0,0⟩ : Activator).decide period [opening] =
      (⟨⟨0,2,2,0⟩,.working,some p,[],[],[],n,0,0⟩,d) := by
  have hpick : ∀ recent, (⟨⟨0,2,2,0⟩,.cq,none,[],recent,[],n,0,0⟩ : Activator).pick [opening] =
    some opening := fun _ => rfl
  have hnil : (recent.filter (fun r => period - r.period ≤ RECENT_TTL)).filter
      (fun r => r.call ≠ opening.sender) = [] := by
    rw [List.filter_eq_nil_iff]
    intro r h
    have hc : r.call = opening.sender := hr r (List.mem_filter.mp h).1
    simp [hc]
  have hcontact : ∀ recent, (⟨⟨0,2,2,0⟩,.cq,none,[],recent,[],n,0,0⟩ : Activator).contact period opening =
      (⟨w1aw,.empty,clampReport (-7),none,period,period,.cq⟩,[]) := fun _ => rfl
  have hreply : ∀ recent, (⟨⟨0,2,2,0⟩,.cq,none,[],recent,[],n,0,0⟩ : Activator).reply period opening none =
      (⟨⟨0,2,2,0⟩,.working,some (Activator.opened ⟨w1aw,.empty,clampReport (-7),none,period,period,.cq⟩
        period opening),[],recent.filter (fun r => r.call ≠ opening.sender),[],n,0,0⟩,none,
        some (Activator.opened ⟨w1aw,.empty,clampReport (-7),none,period,period,.cq⟩ period opening).lastTx) := by
    intro recent
    rw [Activator.reply_open period none (by decide) (Or.inl rfl),hcontact]
  refine ⟨Activator.opened ⟨w1aw,.empty,clampReport (-7),none,period,period,.cq⟩ period opening,
    ⟨some (Activator.opened ⟨w1aw,.empty,clampReport (-7),none,period,period,.cq⟩ period opening).lastTx,
      none,.working,n⟩,rfl,rfl,?_⟩
  simp only [Activator.decide,Activator.decideActive,Activator.expire,List.filter_nil,
    Activator.nextCallerOrCq,hpick,hreply,hnil]
  rfl

private theorem closing_step (n period : Nat) (p : Partner) (hp : p.call = w1aw) :
    ∃ recent d, (∀ r ∈ recent, r.call = w1aw) ∧ d.logged.isSome ∧ d.loggedTotal = succU16 n ∧
    (⟨⟨0,2,2,0⟩,.working,some p,[],[],[],n,0,0⟩ : Activator).decide period [closer] =
      (⟨⟨0,2,2,0⟩,.cq,none,[],recent,[],succU16 n,0,0⟩,d) := by
  have hbest : bestFrom [closer] p.call = some closer := by rw [hp]; rfl
  have hreply : (⟨⟨0,2,2,0⟩,.working,some p,[],[],[],n,0,0⟩ : Activator).reply period closer none =
      (⟨⟨0,2,2,0⟩,.cq,none,[],[⟨p.call,period⟩],[],succU16 n,0,0⟩,
        some ⟨p.call,p.grid,p.rstSent,some (-12),p.firstPeriod,period⟩,some (.std w1aw rr73Text)) := by
    rw [Activator.reply_close period none (by decide),Activator.contact_partner period rfl hp]
    rfl
  refine ⟨[⟨p.call,period⟩],⟨some (.std w1aw rr73Text),
    some ⟨p.call,p.grid,p.rstSent,some (-12),p.firstPeriod,period⟩,.cq,succU16 n⟩,?_,rfl,rfl,?_⟩
  · simp [hp]
  · simp only [Activator.decide,Activator.decideActive,Activator.expire,List.filter_nil,hbest,hreply]
    simp [Activator.queueOthers,Activator.queueOne,closer,hp]

def contactCycle : List ActivatorOp := [.decide [opening],.decide [closer]]

/-- `k` contacts have been made and the machine is calling again. -/
private def Cycled (k : Nat) (s : Activation) : Prop :=
  s.contacts = k ∧ ∃ recent, (∀ r ∈ recent, r.call = w1aw) ∧
    s.act = ⟨⟨0,2,2,0⟩,.cq,none,[],recent,[],min k 65535,0,0⟩

private theorem track_decide {s : Activation} {heard : List Heard} {a : Activator} {d : Decision}
    (h : s.act.decide s.period heard = (a,d)) : (s.track (.decide heard)).act = a ∧
      (s.track (.decide heard)).contacts = if d.logged.isSome then s.contacts + 1 else s.contacts := by
  simp [track,h]

private theorem cycle_step {k : Nat} {s : Activation} (h : Cycled k s) :
    let s' := s.track (.decide [opening])
    (s'.act.decide s'.period [closer]).2.loggedTotal = min (k + 1) 65535 ∧
      Cycled (k + 1) (s'.track (.decide [closer])) := by
  intro s'
  obtain ⟨hk,recent,hr,ha⟩ := h
  obtain ⟨p,d,hp,hd,ho⟩ := opening_step (min k 65535) s.period recent hr
  obtain ⟨recent',d',hr',hd',htotal,hc⟩ := closing_step (min k 65535) s'.period p hp
  obtain ⟨hact,hcount⟩ := track_decide (ha ▸ ho)
  rw [hd,hk] at hcount
  have hc' : s'.act.decide s'.period [closer] = _ := hact ▸ hc
  obtain ⟨hact',hcount'⟩ := track_decide hc'
  rw [if_pos hd'] at hcount'
  have hsucc : succU16 (min k 65535) = min (k + 1) 65535 := by
    rw [succU16]
    omega
  refine ⟨?_,?_,recent',hr',?_⟩
  · rw [hc',htotal,hsucc]
  · rw [hcount']
    exact congrArg (· + 1) hcount
  · rw [hact',hsucc]

private theorem cycled_run (k : Nat) : Cycled k (run track (begin ⟨0,2,2,0⟩ 0)
    (.start :: (List.replicate k contactCycle).flatten)) := by
  induction k with
  | zero => exact ⟨rfl,[],by simp,rfl⟩
  | succ k ih =>
    have hcycle : run track (begin ⟨0,2,2,0⟩ 0) (.start :: (List.replicate (k + 1) contactCycle).flatten) =
        run track (run track (begin ⟨0,2,2,0⟩ 0) (.start :: (List.replicate k contactCycle).flatten))
          contactCycle := by
      rw [← run_append,List.replicate_succ',List.flatten_append]
      simp
    rw [hcycle]
    exact (cycle_step ih).2

private theorem cycled_total (k : Nat) :
    let s := run track (begin ⟨0,2,2,0⟩ 0)
      ((.start :: (List.replicate k contactCycle).flatten) ++ [.decide [opening]])
    (s.act.decide s.period [closer]).2.loggedTotal = min (k + 1) 65535 ∧
      (s.track (.decide [closer])).contacts = k + 1 := by
  intro s
  have hs : s = (run track (begin ⟨0,2,2,0⟩ 0)
      (.start :: (List.replicate k contactCycle).flatten)).track (.decide [opening]) :=
    run_append _ _ _ _
  rw [hs]
  obtain ⟨htotal,hcount,-⟩ := cycle_step (cycled_run k)
  exact ⟨htotal,hcount⟩

/-- The logged count is a `u16` and stays at its greatest value. -/
theorem logged_total_saturates :
    let s := run track (begin ⟨0,2,2,0⟩ 0)
      ((.start :: (List.replicate 65535 contactCycle).flatten) ++ [.decide [opening]])
    (s.act.decide s.period [closer]).2.loggedTotal = 65535 ∧
      (s.track (.decide [closer])).contacts = 65536 := by
  obtain ⟨htotal,hcount⟩ := cycled_total 65535
  exact ⟨htotal.trans (Nat.min_eq_right (by decide)),hcount⟩

end Activation
end MfskCore.App
