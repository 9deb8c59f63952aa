import MfskCore.Msg.HashTableRuns
import Mathlib.Data.Finset.Card

/-! The callsign hash table of the `hash-table-small` build (`msg/hash_table.rs`): one LRU of
entries, each with its three hashes, scanned newest first. As long as no entry has been pushed
out it gives the answers of the default build. -/
namespace MfskCore.Msg
open Rust Library
open CallsignHashTable (Storable learned_storable ihashcall_toNat)

def N_ENTRIES : Nat := 256

/-- One learned callsign and the three hashes it answers to. -/
structure Entry where
  call : Call13
  h10 : UInt32
  h12 : UInt32
  h22 : UInt32
  deriving DecidableEq

structure SmallHashTable where
  entries : Option (List Entry)
  n22 : Nat
  deriving DecidableEq

namespace SmallHashTable

def new : SmallHashTable := ⟨none,0⟩

def insert (t : SmallHashTable) (call : Str) : SmallHashTable :=
  let base := baseCall call
  if skipsBase base then t
  else
    let n22 := ihashcall base 22
    let new : Entry := ⟨Call13.fromStr base,ihashcall base 10,ihashcall base 12,n22⟩
    let entries := t.entries.getD (List.replicate N_ENTRIES ⟨.EMPTY,0,0,0⟩)
    match (entries.take t.n22).findIdx? (·.h22 == n22) with
    | some pos => { t with entries := some (rotatePrefix (pos + 1) (entries.set pos new)) }
    | none =>
      let live := if t.n22 < N_ENTRIES then t.n22 + 1 else t.n22
      ⟨some ((rotatePrefix live entries).set 0 new),live⟩

/-- Most-recent-first scan of the table. -/
def scan (t : SmallHashTable) (pred : Entry → Bool) : Option Str :=
  t.entries.bind fun entries =>
    ((entries.take t.n22).find? fun e => !e.call.isEmpty && pred e).map fun e => e.call.asStr

def lookup10 (t : SmallHashTable) (n10 : UInt32) : Option Str := t.scan (·.h10 == n10)

def lookup12 (t : SmallHashTable) (n12 : UInt32) : Option Str := t.scan (·.h12 == n12)

def lookup22 (t : SmallHashTable) (n22 : UInt32) : Option Str := t.scan (·.h22 == n22)

def clear (t : SmallHashTable) : SmallHashTable :=
  ⟨t.entries.map (·.map fun e => { e with call := .EMPTY }),0⟩

def apply (t : SmallHashTable) : TableOp → SmallHashTable
  | .insert call => t.insert call
  | .clear => t.clear

/-- The entry a text is stored as. -/
def entryOf (base : Str) : Entry :=
  ⟨Call13.fromStr base,ihashcall base 10,ihashcall base 12,ihashcall base 22⟩

/-- Before the first insert there is no block and nothing has been learned. -/
def Holds (t : SmallHashTable) (hist : List Str) : Prop :=
  (t = new ∧ hist = []) ∨
    ∃ entries n22, Held N_ENTRIES entryOf entries n22 hist ∧ t = ⟨some entries,n22⟩

private theorem held_entries {t : SmallHashTable} {hist : List Str} (h : t.Holds hist) :
    Held N_ENTRIES entryOf (t.entries.getD (List.replicate N_ENTRIES ⟨.EMPTY,0,0,0⟩)) t.n22 hist := by
  rcases h with ⟨rfl,rfl⟩ | ⟨entries,n22,h,rfl⟩
  · exact held_nil _ List.length_replicate
  · exact h

private theorem map_h22 (live : List Str) :
    (live.map entryOf).map Entry.h22 = live.map (fun base => ihashcall base 22) := by
  rw [List.map_map]
  rfl

theorem apply_holds {t : SmallHashTable} {hist : List Str} (op : TableOp) (h : t.Holds hist) :
    (t.apply op).Holds (learn hist op) := by
  cases op with
  | insert call =>
    have hheld := held_entries h
    simp only [apply,insert,learn,hheld.texts]
    split
    · exact h
    · right
      split
      · rename_i pos hpos
        obtain ⟨hlt,he,-⟩ := List.findIdx?_eq_some_iff_getElem.mp hpos
        refine ⟨_,_,hheld.refresh (baseCall call) ?_,rfl⟩
        rw [← map_h22,List.getElem?_map,List.getElem?_eq_getElem hlt,Option.map_some,eq_of_beq he]
      · rename_i hnone
        refine ⟨_,_,hheld.push (baseCall call) (by decide) ?_ rfl,rfl⟩
        rw [← map_h22]
        intro hmem
        obtain ⟨e,he,heq⟩ := List.mem_map.1 hmem
        have hne := List.findIdx?_eq_none_iff.mp hnone e he
        simp [heq] at hne
  | clear =>
    rcases h with ⟨rfl,rfl⟩ | ⟨entries,n22,h,rfl⟩
    · exact .inl ⟨rfl,rfl⟩
    · refine .inr ⟨_,_,held_nil _ ?_,rfl⟩
      rw [List.length_map,h.size]

theorem run_holds (ops : List TableOp) {t : SmallHashTable} {hist : List Str} (h : t.Holds hist) :
    (run apply t ops).Holds (run learn hist ops) := by
  induction ops generalizing t hist with
  | nil => exact h
  | cons op ops ih => exact ih (apply_holds op h)

/-- A scan for entries that a text's 22-bit hash decides answers from the whole history. -/
private theorem scan_of_holds {t : SmallHashTable} {hist : List Str} (h : t.Holds hist)
    (hist_ok : ∀ base ∈ hist, Storable base)
    (hroom : (recent (fun base => ihashcall base 22) hist).length ≤ N_ENTRIES) {pred : Entry → Bool}
    (hpred : ∀ a b, ihashcall a 22 = ihashcall b 22 → pred (entryOf a) = pred (entryOf b)) :
    t.scan pred = (hist.find? fun base => pred (entryOf base)).map (List.take 13) := by
  rcases h with ⟨rfl,rfl⟩ | ⟨entries,n22,h,rfl⟩
  · rfl
  · have hall : newest N_ENTRIES hist = recent (fun base => ihashcall base 22) hist :=
      List.take_of_length_le hroom
    have hlive : ∀ base ∈ recent (fun base => ihashcall base 22) hist, Storable base := fun base hb =>
      hist_ok base (mem_of_mem_recent hb)
    have hkeep : ∀ base ∈ recent (fun base => ihashcall base 22) hist,
        (!(entryOf base).call.isEmpty && pred (entryOf base)) = pred (entryOf base) := by
      intro base hb
      obtain ⟨ha,h0,hne⟩ := hlive base hb
      simp [entryOf,Call13.isEmpty_fromStr ha h0 hne]
    have htext : ∀ base ∈ recent (fun base => ihashcall base 22) hist,
        (entryOf base).call.asStr = base.take 13 := by
      intro base hb
      obtain ⟨ha,h0,-⟩ := hlive base hb
      exact Call13.asStr_fromStr ha h0
    rw [scan,Option.bind_some,h.texts,hall,List.find?_map,Option.map_map,
      ← recent_find?_of_key (fun base => ihashcall base 22) hpred]
    generalize recent (fun base => ihashcall base 22) hist = live at hkeep htext ⊢
    have hfind : live.find? ((fun e : Entry => !e.call.isEmpty && pred e) ∘ entryOf) =
        live.find? fun base => pred (entryOf base) := by
      clear htext
      induction live with
      | nil => rfl
      | cons base live ih =>
        rw [List.find?_cons,List.find?_cons,Function.comp_apply,hkeep base List.mem_cons_self,
          ih fun b hb => hkeep b (List.mem_cons_of_mem base hb)]
    rw [hfind]
    apply Option.map_congr
    intro base hb
    exact htext base (List.mem_of_find?_eq_some hb)

private theorem ihashcall_congr {a b : Str} {m : Nat} (h0 : 0 < m) (hm : m ≤ 22)
    (h : ihashcall a 22 = ihashcall b 22) : ihashcall a m = ihashcall b m := by
  rw [← UInt32.toNat_inj,ihashcall_toNat a h0 hm,ihashcall_toNat b h0 hm,h]

theorem lookups_of_holds {t : SmallHashTable} {hist : List Str} (h : t.Holds hist)
    (hist_ok : ∀ base ∈ hist, Storable base)
    (hroom : (recent (fun base => ihashcall base 22) hist).length ≤ N_ENTRIES) (n : UInt32) :
    t.lookup10 n = (hist.find? (fun base => ihashcall base 10 = n)).map (List.take 13) ∧
    t.lookup12 n = (hist.find? (fun base => ihashcall base 12 = n)).map (List.take 13) ∧
    t.lookup22 n = (hist.find? (fun base => ihashcall base 22 = n)).map (List.take 13) := by
  refine ⟨?_,?_,?_⟩
  · refine scan_of_holds h hist_ok hroom fun a b hab => ?_
    exact congrArg (· == n) (ihashcall_congr (by decide) (by decide) hab)
  · refine scan_of_holds h hist_ok hroom fun a b hab => ?_
    exact congrArg (· == n) (ihashcall_congr (by decide) (by decide) hab)
  · refine scan_of_holds h hist_ok hroom fun a b hab => ?_
    exact congrArg (· == n) hab

/-- How many 22-bit hashes a history has used. -/
def hashCount (hist : List Str) : Nat := (hist.map fun base => ihashcall base 22).toFinset.card

private theorem length_recent_le (hist : List Str) :
    (recent (fun base => ihashcall base 22) hist).length ≤ hashCount hist := by
  have hnodup := recent_keys_nodup (fun base => ihashcall base 22) hist
  rw [← List.length_map (fun base => ihashcall base 22),← List.toFinset_card_of_nodup hnodup]
  apply Finset.card_le_card
  intro k hk
  rw [List.mem_toFinset] at hk ⊢
  obtain ⟨base,hb,rfl⟩ := List.mem_map.1 hk
  exact List.mem_map_of_mem (mem_of_mem_recent hb)

/-- While no more than 256 hashes have been used since the last clear, the two builds give the
same answers. -/
theorem lookups_agree (ops : List TableOp)
    (hops : ∀ call, TableOp.insert call ∈ ops → ∀ c ∈ call, 0 < c.toNat ∧ c.toNat < 128)
    (hcount : hashCount (learned ops) ≤ 256) (n : UInt32) :
    let small := run apply new ops
    let table := run CallsignHashTable.apply CallsignHashTable.new ops
    small.lookup10 n = table.lookup10 n ∧ small.lookup12 n = table.lookup12 n ∧
      small.lookup22 n = table.lookup22 n := by
  have hist_ok : ∀ base ∈ learned ops, Storable base := learned_storable (by simp) hops
  have hsmall : (run apply new ops).Holds (learned ops) := run_holds ops (.inl ⟨rfl,rfl⟩)
  have htable : (run CallsignHashTable.apply CallsignHashTable.new ops).Holds (learned ops) :=
    CallsignHashTable.run_holds ops (.inl ⟨rfl,rfl⟩)
  have hroom := (length_recent_le (learned ops)).trans hcount
  obtain ⟨h10,h12,h22⟩ := lookups_of_holds hsmall hist_ok hroom n
  obtain ⟨t10,t12,t22⟩ := CallsignHashTable.lookups_of_holds htable hist_ok n
  have hlive : liveTexts (learned ops) = recent (fun base => ihashcall base 22) (learned ops) :=
    List.take_of_length_le (hroom.trans (by decide))
  rw [hlive,recent_find?] at t22
  exact ⟨h10.trans t10.symm,h12.trans t12.symm,h22.trans t22.symm⟩

/-- Three texts, one of them twice, with a clear before. -/
theorem lookups_agree_after_clear :
    let ops : List TableOp := [.insert "W1AW".toList,.clear,.insert "JA1ABC".toList,
      .insert "<PJ4/K1ABC>".toList,.insert "JA1ABC/P".toList]
    (run apply new ops).lookup12 5 =
      (run CallsignHashTable.apply CallsignHashTable.new ops).lookup12 5 := by
  refine (lookups_agree _ ?_ ?_ 5).2.1
  · intro call hc
    have hcalls : call ∈ ["W1AW".toList,"JA1ABC".toList,"<PJ4/K1ABC>".toList,"JA1ABC/P".toList] := by
      simpa using hc
    have hall : ["W1AW".toList,"JA1ABC".toList,"<PJ4/K1ABC>".toList,"JA1ABC/P".toList].all
        (fun call => call.all fun c => 0 < c.toNat && c.toNat < 128) = true := by decide
    intro c hmem
    have hchar := List.all_eq_true.mp (List.all_eq_true.mp hall call hcalls) c hmem
    simpa using hchar
  · refine (List.toFinset_card_le _).trans ?_
    decide

end SmallHashTable
end MfskCore.Msg
