import MfskCore.App.Activator
import Mathlib.Data.List.Nodup

/-! What one decision of the activator can do: the message it answers, the record it opens,
continues or closes, and the callers it keeps waiting. -/
namespace MfskCore.App
open Rust Library

theorem maxByKey_mem {α κ : Type} [LE κ] [DecidableLE κ] {key : α → κ} {l : List α} {x : α}
    (h : maxByKey key l = some x) : x ∈ l := by
  have hfold : ∀ (l : List α) (a : α),
      l.foldl (fun best x => if key best ≤ key x then x else best) a ∈ a :: l := by
    intro l
    induction l with
    | nil => simp
    | cons b l ih =>
      intro a
      rw [List.foldl_cons]
      split
      · exact List.mem_cons_of_mem a (ih b)
      · rcases List.mem_cons.mp (ih a) with he | hm
        · rw [he]
          exact List.mem_cons_self
        · exact List.mem_cons_of_mem a (List.mem_cons_of_mem b hm)
  cases l with
  | nil => simp [maxByKey] at h
  | cons a l =>
    rw [maxByKey,Option.some_inj] at h
    exact h ▸ hfold l a

theorem bestFrom_mem {heard : List Heard} {call : Call} {h : Heard} (hb : bestFrom heard call = some h) :
    h ∈ heard ∧ h.sender = call := by
  have hm := maxByKey_mem hb
  simpa using hm

theorem pushCap_mem {α : Type} {cap : Nat} {l : List α} {x y : α} (h : y ∈ pushCap cap l x) :
    y ∈ l ∨ y = x := by
  rw [pushCap] at h
  split at h
  · simpa using h
  · exact Or.inl h

private theorem foldl_pushCap_mem {α : Type} {cap : Nat} {l acc : List α} {y : α}
    (h : y ∈ l.foldl (pushCap cap) acc) : y ∈ acc ∨ y ∈ l := by
  induction l generalizing acc with
  | nil => exact Or.inl h
  | cons x l ih =>
    rcases ih h with hacc | hl
    · rcases pushCap_mem hacc with ha | rfl
      · exact Or.inl ha
      · exact Or.inr List.mem_cons_self
    · exact Or.inr (List.mem_cons_of_mem x hl)

namespace Activator

/-- The caller picked is one of this period's or one that was waiting, and is owed an answer. -/
theorem pick_mem {a : Activator} {heard : List Heard} {h : Heard} (hp : a.pick heard = some h) :
    (h ∈ heard ∨ ∃ q, (h,q) ∈ a.pending) ∧ h.exchange ≠ .s73 := by
  have hm := maxByKey_mem hp
  rw [pool,List.mem_filter] at hm
  refine ⟨?_,by simpa using hm.2⟩
  have hfold : ∀ (l : List (Heard × Nat)) (acc : List Heard),
      h ∈ l.foldl (fun pool x => if pool.any (fun y => y.sender = x.1.sender) then pool
        else pushCap POOL_MAX pool x.1) acc → h ∈ acc ∨ ∃ q, (h,q) ∈ l := by
    intro l
    induction l with
    | nil => exact fun acc h => Or.inl h
    | cons x l ih =>
      intro acc h
      rcases ih _ h with hacc | ⟨q,hq⟩
      · dsimp only at hacc
        split at hacc
        · exact Or.inl hacc
        · rcases pushCap_mem hacc with ha | rfl
          · exact Or.inl ha
          · exact Or.inr ⟨x.2,List.mem_cons_self⟩
      · exact Or.inr ⟨q,List.mem_cons_of_mem x hq⟩
  rcases hfold _ _ hm.1 with hheard | hq
  · rcases foldl_pushCap_mem hheard with hnil | hh
    · simp at hnil
    · exact Or.inl hh
  · exact Or.inr hq

end Activator

/-- The text of the message that closes a contact, as the source writes it. -/
def rr73Text : HString 6 := ⟨"RR73".toList,by decide⟩

def s73Text : HString 6 := ⟨"73".toList,by decide⟩

theorem stdMsg_eq (dest : Call) (exchange : HString 6) :
    stdMsg dest.chars exchange.chars = some (.std dest exchange) := by
  simp [stdMsg,HString.ofStr,dest.fits,exchange.fits]

private theorem clampReport_range (snr : Int) : ∃ k : Fin 100, clampReport snr = (k : Nat) - 50 := by
  refine ⟨⟨(clampReport snr + 50).toNat,?_⟩,?_⟩
  · simp only [clampReport]
    omega
  · simp only [clampReport]
    omega

/-- A report never reads as a closing message. -/
theorem report_ne (snr : Int) (roger : Bool) :
    report snr roger ≠ rr73Text ∧ report snr roger ≠ s73Text := by
  obtain ⟨k,hk⟩ := clampReport_range snr
  have hclamp : report snr roger = report ((k : Nat) - 50) roger := by
    have hidem : clampReport ((k : Nat) - 50) = clampReport snr := by
      rw [← hk]
      simp only [clampReport]
      omega
    simp only [report,hidem]
  rw [hclamp]
  clear hclamp hk
  revert k roger
  decide

namespace Activator

/-- The callers kept waiting: one entry a call, each owed an answer, each meeting `ok`. -/
structure Waiting (ok : Heard × Nat → Prop) (pending : List (Heard × Nat)) : Prop where
  distinct : (pending.map (fun x => x.1.sender)).Nodup
  owed : ∀ x ∈ pending, x.1.exchange ≠ .s73
  all_ok : ∀ x ∈ pending, ok x

theorem Waiting.filter {ok : Heard × Nat → Prop} {pending : List (Heard × Nat)}
    (h : Waiting ok pending) (keep : Heard × Nat → Bool) : Waiting ok (pending.filter keep) := by
  refine ⟨h.distinct.sublist (List.filter_sublist.map _),?_,?_⟩
  · exact fun x hx => h.owed x (List.mem_filter.mp hx).1
  · exact fun x hx => h.all_ok x (List.mem_filter.mp hx).1

theorem Waiting.mono {ok ok' : Heard × Nat → Prop} {pending : List (Heard × Nat)}
    (h : Waiting ok pending) (hok : ∀ x ∈ pending, ok x → ok' x) : Waiting ok' pending :=
  ⟨h.distinct,h.owed,fun x hx => hok x hx (h.all_ok x hx)⟩

private theorem Waiting.set {ok : Heard × Nat → Prop} {pending : List (Heard × Nat)} {y : Heard × Nat}
    {i : Nat} (h : Waiting ok pending) (hy : y.1.exchange ≠ .s73) (hok : ok y)
    (hd : ((pending.map (fun x => x.1.sender)).set i y.1.sender).Nodup) :
    Waiting ok (pending.set i y) := by
  have hmem : ∀ x ∈ pending.set i y, x = y ∨ x ∈ pending := fun x hx =>
    (List.mem_or_eq_of_mem_set hx).symm
  refine ⟨?_,?_,?_⟩
  · rw [List.map_set]
    exact hd
  · intro x hx
    rcases hmem x hx with rfl | hx
    · exact hy
    · exact h.owed x hx
  · intro x hx
    rcases hmem x hx with rfl | hx
    · exact hok
    · exact h.all_ok x hx

private theorem Waiting.concat {ok : Heard × Nat → Prop} {pending : List (Heard × Nat)}
    {y : Heard × Nat} (h : Waiting ok pending) (hy : y.1.exchange ≠ .s73) (hok : ok y)
    (hnew : y.1.sender ∉ pending.map (fun x => x.1.sender)) : Waiting ok (pending ++ [y]) := by
  refine ⟨?_,?_,?_⟩
  · rw [List.map_append,List.map_singleton,← List.concat_eq_append]
    exact List.Nodup.concat hnew h.distinct
  · intro x hx
    rcases List.mem_append.mp hx with hx | hx
    · exact h.owed x hx
    · exact List.mem_singleton.mp hx ▸ hy
  · intro x hx
    rcases List.mem_append.mp hx with hx | hx
    · exact h.all_ok x hx
    · exact List.mem_singleton.mp hx ▸ hok

/-- Queueing one more caller keeps the queue in order, whichever place the caller takes. -/
theorem Waiting.queueOne {ok : Heard × Nat → Prop} {pending : List (Heard × Nat)} {period : Nat}
    {call : Call} {h : Heard} (hw : Waiting ok pending) (hok : h.sender ≠ call → ok (h,period)) :
    Waiting ok (queueOne period call pending h) := by
  rw [Activator.queueOne]
  split
  · exact hw
  · rename_i hskip
    obtain ⟨hcall,hs73⟩ := not_or.mp hskip
    split
    · rename_i i hi
      obtain ⟨hlt,he,-⟩ := List.findIdx?_eq_some_iff_getElem.mp hi
      have hsender : (pending.map (fun x => x.1.sender)).get ⟨i,by simpa using hlt⟩ = h.sender := by
        rw [List.get_eq_getElem,List.getElem_map]
        simpa using he
      have hsame : (pending.map (fun x => x.1.sender)).set i h.sender =
          pending.map (fun x => x.1.sender) := by
        rw [← hsender,List.get_eq_getElem,List.set_getElem_self]
      refine hw.set hs73 (hok hcall) ?_
      rw [hsame]
      exact hw.distinct
    · rename_i hnone
      have hnew : h.sender ∉ pending.map (fun x => x.1.sender) := by
        intro hm
        obtain ⟨x,hx,he⟩ := List.mem_map.mp hm
        have := List.findIdx?_eq_none_iff.mp hnone x hx
        simp [he] at this
      have hset : ∀ i, Waiting ok (pending.set i (h,period)) := fun i =>
        hw.set hs73 (hok hcall) (List.Nodup.set hw.distinct hnew)
      split
      · exact hw.concat hs73 (hok hcall) hnew
      · split
        · split
          · split
            · exact hset _
            · exact hw
          · exact hw
        · exact hw

theorem Waiting.queueOthers {ok : Heard × Nat → Prop} {a : Activator} {period : Nat}
    {heard : List Heard} {call : Call} (hw : Waiting ok a.pending)
    (hok : ∀ h ∈ heard, h.sender ≠ call → ok (h,period)) :
    Waiting ok (a.queueOthers period heard call).pending := by
  rw [Activator.queueOthers]
  dsimp only
  generalize a.pending = pending at hw ⊢
  induction heard generalizing pending with
  | nil => exact hw
  | cons h heard ih =>
    rw [List.foldl_cons]
    apply ih
    · exact fun x hx => hok x (List.mem_cons_of_mem h hx)
    · exact hw.queueOne (hok h List.mem_cons_self)

theorem contact_call (a : Activator) (period : Nat) (h : Heard) :
    (a.contact period h).1.call = h.sender := by
  rw [contact]
  split
  · rename_i p hp
    simpa using (Option.filter_eq_some_iff.mp hp).2
  · split
    · rename_i i hi
      obtain ⟨hlt,he,-⟩ := List.findIdx?_eq_some_iff_getElem.mp hi
      rw [List.getElem?_eq_getElem hlt]
      simpa using he
    · rfl

theorem contact_partner {a : Activator} {p : Partner} {h : Heard} (period : Nat)
    (hp : a.partner = some p) (hc : p.call = h.sender) : a.contact period h = (p,a.dropped) := by
  have hf : a.partner.filter (fun p => p.call = h.sender) = some p := by
    rw [hp,Option.filter_some,if_pos (by simpa using hc)]
  rw [contact,hf]

/-- The partner record a reply leaves open. -/
def opened (p : Partner) (period : Nat) (h : Heard) : Partner :=
  match h.exchange with
  | .grid g => { p with
      lastHeard := period
      grid := g
      rstSent := clampReport h.snr
      lastTx := .std h.sender (App.report (clampReport h.snr) false) }
  | .report r => { p with
      lastHeard := period
      rstRcvd := some r
      lastTx := .std h.sender (App.report p.rstSent true) }
  | _ => { p with
      lastHeard := period
      rstSent := clampReport h.snr
      lastTx := .std h.sender (App.report (clampReport h.snr) false) }

/-- The partner record a closing reply hands to `finish`. -/
def closing (p : Partner) (period : Nat) (h : Heard) : Partner :=
  match h.exchange with
  | .rReport r => { p with lastHeard := period,rstRcvd := some r }
  | _ => { p with lastHeard := period }

/-- The text that closes the contact in answer to `h`. -/
def closingText (h : Heard) : HString 6 :=
  match h.exchange with
  | .rReport _ => rr73Text
  | _ => s73Text

/-- Closing a contact retires the partner; it is logged unless its call was logged lately, and
the target is looked at either way. -/
theorem finish_cases {a : Activator} {p : Partner} (period : Nat) (logged : Option QsoRecord)
    (hp : a.partner = some p) : ∃ recent doneAt total logged',
      a.finish period logged = ({ a with
        partner := none
        recent := recent
        logged := total
        phase := if 0 < a.cfg.targetQsos ∧ a.cfg.targetQsos ≤ total then .done else .cq
        doneAt := doneAt },logged') ∧
      ((total = a.logged ∧ logged' = logged) ∨
        (total = succU16 a.logged ∧
          logged' = some ⟨p.call,p.grid,p.rstSent,p.rstRcvd,p.firstPeriod,period⟩)) := by
  cases halready : a.recent.any (fun r => r.call = p.call) with
  | true =>
    cases hi : a.recent.findIdx? (fun r => r.call = p.call) with
    | none =>
      refine ⟨a.recent,if 0 < a.cfg.targetQsos ∧ a.cfg.targetQsos ≤ a.logged then period else a.doneAt,
        a.logged,logged,?_,Or.inl ⟨rfl,rfl⟩⟩
      by_cases ht : 0 < a.cfg.targetQsos ∧ a.cfg.targetQsos ≤ a.logged <;>
        simp [finish,hp,halready,hi,ht]
    | some i =>
      refine ⟨a.recent.set i ⟨p.call,period⟩,
        if 0 < a.cfg.targetQsos ∧ a.cfg.targetQsos ≤ a.logged then period else a.doneAt,
        a.logged,logged,?_,Or.inl ⟨rfl,rfl⟩⟩
      by_cases ht : 0 < a.cfg.targetQsos ∧ a.cfg.targetQsos ≤ a.logged <;>
        simp [finish,hp,halready,hi,ht]
  | false =>
    refine ⟨pushEvict RECENT_MAX a.recent ⟨p.call,period⟩,
      if 0 < a.cfg.targetQsos ∧ a.cfg.targetQsos ≤ succU16 a.logged then period else a.doneAt,
      succU16 a.logged,_,?_,Or.inr ⟨rfl,rfl⟩⟩
    by_cases ht : 0 < a.cfg.targetQsos ∧ a.cfg.targetQsos ≤ succU16 a.logged <;>
      simp [finish,hp,halready,ht]

/-- A reply to a message that does not close the contact leaves it open. -/
theorem reply_open {a : Activator} {h : Heard} (period : Nat) (logged : Option QsoRecord)
    (hs : h.exchange.stage < 2) (hphase : a.phase = .cq ∨ a.phase = .working) :
    a.reply period h logged =
      ({ a with
        partner := some (opened (a.contact period h).1 period h)
        dropped := (a.contact period h).2
        recent := a.recent.filter (fun r => r.call ≠ h.sender)
        phase := .working },logged,
        some (opened (a.contact period h).1 period h).lastTx) := by
  cases he : h.exchange with
  | none => rcases hphase with hp | hp <;> simp [reply,he,opened,stdMsg_eq,hp]
  | grid g => rcases hphase with hp | hp <;> simp [reply,he,opened,stdMsg_eq,hp]
  | report r => rcases hphase with hp | hp <;> simp [reply,he,opened,stdMsg_eq,hp]
  | rReport r => simp [he,Exchange.stage] at hs
  | rrr => simp [he,Exchange.stage] at hs
  | rr73 => simp [he,Exchange.stage] at hs
  | s73 => simp [he,Exchange.stage] at hs

/-- A reply to a rogered report or to a roger closes the contact. -/
theorem reply_close {a : Activator} {h : Heard} (period : Nat) (logged : Option QsoRecord)
    (hs : h.exchange.stage = 2) :
    a.reply period h logged =
      (({ a with
          partner := some (closing (a.contact period h).1 period h)
          dropped := (a.contact period h).2 }.finish period logged).1,
        ({ a with
          partner := some (closing (a.contact period h).1 period h)
          dropped := (a.contact period h).2 }.finish period logged).2,
        some (.std h.sender (closingText h))) := by
  have h73 : stdMsg h.sender.chars "73".toList = some (.std h.sender s73Text) := stdMsg_eq _ s73Text
  have hrr73 : stdMsg h.sender.chars "RR73".toList = some (.std h.sender rr73Text) :=
    stdMsg_eq _ rr73Text
  have hretired : ∀ cfg phase p pending recent dropped n idle doneAt,
      ((⟨cfg,phase,some p,pending,recent,dropped,n,idle,doneAt⟩ : Activator).finish
        period logged).1.partner = none := by
    intro cfg phase p pending recent dropped n idle doneAt
    obtain ⟨_,_,_,_,hf,-⟩ := finish_cases
      (a := ⟨cfg,phase,some p,pending,recent,dropped,n,idle,doneAt⟩) period logged rfl
    rw [hf]
  cases he : h.exchange with
  | none => simp [he,Exchange.stage] at hs
  | grid g => simp [he,Exchange.stage] at hs
  | report r => simp [he,Exchange.stage] at hs
  | rReport r =>
    simp only [reply,he,closing,closingText,hrr73,hretired]
    rfl
  | rrr =>
    simp only [reply,he,closing,closingText,h73,hretired]
    rfl
  | rr73 =>
    simp only [reply,he,closing,closingText,h73,hretired]
    rfl
  | s73 => simp [he,Exchange.stage] at hs

theorem reply_s73 {a : Activator} {h : Heard} (period : Nat) (logged : Option QsoRecord)
    (hs : h.exchange = .s73) : a.reply period h logged =
      ({ a with partner := none,dropped := (a.contact period h).2 },logged,none) := by
  simp [reply,hs]

end Activator
end MfskCore.App
