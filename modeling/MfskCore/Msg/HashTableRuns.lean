import MfskCore.Msg.HashTable

/-! What the callsign table holds after any sequence of inserts and clears: the texts learned
since the last clear, by recency in the 22-bit LRU and by last writer in the other two tables. -/
namespace MfskCore.Msg
open Rust Library

namespace Call13

private theorem fromStr_bytes {s : Str} (h : isAscii s) : (fromStr s).bytes =
    (s.take 13).map (fun c => UInt8.ofNat c.toNat) ++ List.replicate (13 - s.length) 0 := by
  simp only [fromStr,asBytes_ascii h,List.length_map]
  congr 1
  · rw [← List.map_take]
    congr 1
    rcases Nat.le_total s.length 13 with hle | hle
    · rw [Nat.min_eq_left hle,List.take_of_length_le hle,List.take_length]
    · rw [Nat.min_eq_right hle]
  · congr 1
    omega

private theorem byte_ne_zero {c : Char} (h : c.toNat < 128) (h0 : 0 < c.toNat) :
    UInt8.ofNat c.toNat ≠ 0 := by
  intro he
  have := congrArg UInt8.toNat he
  rw [UInt8.toNat_ofNat'] at this
  simp at this
  omega

private theorem isAscii_take {s : Str} (h : isAscii s) (n : Nat) : isAscii (s.take n) := by
  simp only [isAscii,List.all_eq_true] at h ⊢
  intro c hc
  exact h c (List.mem_of_mem_take hc)

/-- ASCII text without NUL comes back whole, up to thirteen characters. -/
theorem asStr_fromStr {s : Str} (h : isAscii s) (h0 : ∀ c ∈ s, 0 < c.toNat) :
    (fromStr s).asStr = s.take 13 := by
  have hbytes := fromStr_bytes h
  have htext := asBytes_ascii (isAscii_take h 13)
  rw [← htext] at hbytes
  have hnone : (asBytes (s.take 13)).findIdx? (· == 0) = none := by
    rw [htext,List.findIdx?_eq_none_iff]
    intro b hb
    obtain ⟨c,hc,rfl⟩ := List.mem_map.mp hb
    simp only [isAscii,List.all_eq_true,decide_eq_true_eq] at h
    have hc' := List.mem_of_mem_take hc
    simpa using byte_ne_zero (h c hc') (h0 c hc')
  have hlen : (asBytes (s.take 13)).length = min 13 s.length := by rw [htext]; simp
  have hend : ((fromStr s).bytes.findIdx? (· == 0)).getD 13 = (asBytes (s.take 13)).length := by
    rw [hbytes,List.findIdx?_append,hnone,hlen]
    rcases Nat.lt_or_ge s.length 13 with hlt | hge
    · obtain ⟨k,hk⟩ := Nat.exists_eq_add_of_lt hlt
      have : 13 - s.length = k + 1 := by omega
      rw [this,List.replicate_succ]
      simp [List.findIdx?_cons]
    · have : 13 - s.length = 0 := by omega
      rw [this]
      simp [hge]
  rw [asStr,hend,hbytes,List.take_left,fromUtf8_asBytes]
  rfl

theorem isEmpty_fromStr {s : Str} (h : isAscii s) (h0 : ∀ c ∈ s, 0 < c.toNat) (hs : s ≠ []) :
    (fromStr s).isEmpty = false := by
  obtain ⟨c,s,rfl⟩ := List.exists_cons_of_ne_nil hs
  have hbytes := fromStr_bytes h
  simp only [isAscii,List.all_cons,Bool.and_eq_true,decide_eq_true_eq] at h
  have hc := byte_ne_zero h.1 (h0 c List.mem_cons_self)
  rw [isEmpty,hbytes]
  simpa using hc

end Call13

section Rotate
variable {α : Type}

private theorem rotateRight_concat (l : List α) (x : α) : (l ++ [x]).rotateRight 1 = x :: l := by
  unfold List.rotateRight
  cases l with
  | nil => simp
  | cons a l => simp

private theorem rotatePrefix_succ {k : Nat} {l : List α} {x : α} (h : l[k]? = some x) :
    rotatePrefix (k + 1) l = x :: l.eraseIdx k := by
  rw [rotatePrefix,List.take_add_one,h,List.eraseIdx_eq_take_drop_succ]
  simp only [Option.toList_some,rotateRight_concat,List.cons_append]

private theorem take_rotatePrefix {k n : Nat} {l : List α} {x : α} (h : l[k]? = some x) (hk : k < n) :
    (rotatePrefix (k + 1) l).take n = x :: (l.take n).eraseIdx k := by
  obtain ⟨n,rfl⟩ := Nat.exists_eq_succ_of_ne_zero (Nat.ne_zero_of_lt hk)
  rw [rotatePrefix_succ h,List.take_succ_cons]
  congr 1
  apply List.ext_getElem?
  intro i
  rw [List.getElem?_take,List.getElem?_eraseIdx,List.getElem?_eraseIdx,List.getElem?_take,
    List.getElem?_take]
  grind

private theorem take_rotatePrefix_set {k : Nat} {l : List α} (x : α) (hk : k < l.length) :
    ((rotatePrefix (k + 1) l).set 0 x).take (k + 1) = x :: l.take k := by
  rw [rotatePrefix_succ (List.getElem?_eq_getElem hk),List.set_cons_zero,List.take_succ_cons,
    List.eraseIdx_eq_take_drop_succ,List.take_append_of_le_length (by simp; omega),List.take_take,
    Nat.min_self]

theorem length_rotatePrefix (k : Nat) (l : List α) : (rotatePrefix k l).length = l.length := by
  have hlen : ∀ l : List α, (l.rotateRight 1).length = l.length := by
    intro l
    rcases List.eq_nil_or_concat l with rfl | ⟨l,x,rfl⟩
    · rfl
    · rw [List.concat_eq_append,rotateRight_concat,List.length_cons,List.length_append,List.length_singleton]
  rw [rotatePrefix,List.length_append,hlen,← List.length_append,List.take_append_drop]

private theorem map_eraseIdx {β : Type} (f : α → β) (l : List α) (k : Nat) :
    (l.map f).eraseIdx k = (l.eraseIdx k).map f := by
  simp only [List.eraseIdx_eq_take_drop_succ,List.map_append,List.map_take,List.map_drop]

/-- The first position of a key in one array names the same entry in the other. -/
private theorem findIdx?_getElem? {β κ : Type} [DecidableEq κ] (key : α → κ) (f : α → β) (l : List α)
    (k : κ) : (((l.map key).findIdx? (· == k)).bind fun pos => (l.map f)[pos]?) =
      (l.find? (fun a => key a = k)).map f := by
  induction l with
  | nil => rfl
  | cons a l ih =>
    rw [List.map_cons,List.map_cons,List.findIdx?_cons]
    by_cases h : key a = k
    · simp [h]
    · have hk : (key a == k) = false := by simpa using h
      rw [hk,List.find?_cons_of_neg (by simpa using h),← ih]
      cases (l.map key).findIdx? (· == k) with
      | none => rfl
      | some pos => rfl

end Rotate

inductive TableOp where
  | insert (call : Str)
  | clear
  deriving DecidableEq

/-- The texts learned since the last clear, newest first. -/
def learn (hist : List Str) : TableOp → List Str
  | .insert call => if skipsBase (baseCall call) then hist else baseCall call :: hist
  | .clear => []

def learned (ops : List TableOp) : List Str := run learn [] ops

/-- The text last learned under each 22-bit hash, the thousand newest hashes, newest first. -/
def liveTexts (hist : List Str) : List Str :=
  (recent (fun base => ihashcall base 22) hist).take MAX_HASH22

/-- What a table indexed by the `m`-bit hash has in slot `n`: the text last learned there. -/
def slotText (m : Nat) (hist : List Str) (n : Nat) : Call13 :=
  ((hist.find? (fun base => (ihashcall base m).toNat = n)).map Call13.fromStr).getD .EMPTY

section Held
variable {β : Type} {N n pos live : Nat} {f : Str → β} {cells : List β} {hist : List Str}

/-- The text last learned under each 22-bit hash, the `N` newest hashes, newest first. -/
def newest (N : Nat) (hist : List Str) : List Str :=
  (recent (fun base => ihashcall base 22) hist).take N

/-- The live part of an array of `N` cells is what the history says. -/
structure Held (N : Nat) (f : Str → β) (cells : List β) (n : Nat) (hist : List Str) : Prop where
  size : cells.length = N
  count : n = (newest N hist).length
  texts : cells.take n = (newest N hist).map f

theorem newest_cons (N : Nat) (base : Str) (hist : List Str) :
    newest N (base :: hist) = touch (fun base => ihashcall base 22) N base (newest N hist) :=
  (touch_recent _ _ _ _).symm

theorem newest_length (N : Nat) (hist : List Str) : (newest N hist).length ≤ N := List.length_take_le _ _

theorem newest_nodup (N : Nat) (hist : List Str) :
    ((newest N hist).map (fun base => ihashcall base 22)).Nodup :=
  (recent_keys_nodup _ hist).sublist ((List.take_sublist _ _).map _)

theorem mem_hist_of_newest {base : Str} (h : base ∈ newest N hist) : base ∈ hist :=
  mem_of_mem_recent (List.mem_of_mem_take h)

theorem held_nil (f : Str → β) (h : cells.length = N) : Held N f cells 0 [] := by
  refine ⟨h,?_,?_⟩ <;> simp [newest,recent]

/-- A hash that is live: its cell moves to the front with the new text. -/
theorem Held.refresh (base : Str) (h : Held N f cells n hist)
    (hpos : ((newest N hist).map (fun base => ihashcall base 22))[pos]? = some (ihashcall base 22)) :
    Held N f (rotatePrefix (pos + 1) (cells.set pos (f base))) n (base :: hist) := by
  have hlive : newest N (base :: hist) = base :: (newest N hist).eraseIdx pos := by
    rw [newest_cons]
    exact touch_known (newest_nodup N hist) (newest_length N hist) hpos
  have hlt : pos < (newest N hist).length := by
    obtain ⟨hlt,-⟩ := List.getElem?_eq_some_iff.mp hpos
    simpa using hlt
  have hcount := h.count
  have hcell : (cells.set pos (f base))[pos]? = some (f base) := by
    have := h.size
    have := newest_length N hist
    rw [List.getElem?_set_self (by omega)]
  refine ⟨?_,?_,?_⟩
  · rw [length_rotatePrefix,List.length_set,h.size]
  · rw [hlive,List.length_cons,List.length_eraseIdx_of_lt hlt]
    omega
  · rw [take_rotatePrefix hcell (by omega),List.take_set,List.eraseIdx_set_eq,h.texts,hlive,List.map_cons,
      map_eraseIdx]

/-- A hash that is not live: the front is taken, and a full array loses its last cell. -/
theorem Held.push (base : Str) (h : Held N f cells n hist) (hN : 0 < N)
    (hnew : ihashcall base 22 ∉ (newest N hist).map (fun base => ihashcall base 22))
    (hlive : live = if n < N then n + 1 else n) :
    Held N f ((rotatePrefix live cells).set 0 (f base)) live (base :: hist) := by
  have htexts : newest N (base :: hist) = (base :: newest N hist).take N := by
    rw [newest_cons]
    exact touch_new hnew
  have hle := newest_length N hist
  have hc := h.count
  obtain ⟨k,rfl,hk,hmax,hcut⟩ : ∃ k, live = k + 1 ∧ k ≤ n ∧ k < N ∧
      newest N (base :: hist) = base :: (newest N hist).take k := by
    rw [htexts]
    split at hlive
    · rename_i hroom
      refine ⟨n,hlive,le_refl _,hroom,?_⟩
      rw [List.take_of_length_le (by rw [List.length_cons]; omega),List.take_of_length_le (by omega)]
    · obtain ⟨m,rfl⟩ := Nat.exists_eq_succ_of_ne_zero (Nat.ne_zero_of_lt hN)
      exact ⟨m,by omega,by omega,by omega,rfl⟩
  refine ⟨?_,?_,?_⟩
  · rw [List.length_set,length_rotatePrefix,h.size]
  · rw [hcut,List.length_cons,List.length_take]
    omega
  · have htake : cells.take k = (cells.take n).take k := by rw [List.take_take,Nat.min_eq_left hk]
    rw [take_rotatePrefix_set _ (by rw [h.size]; exact hmax),htake,h.texts,hcut,List.map_cons,List.map_take]

end Held

namespace CallsignHashTable

def apply (t : CallsignHashTable) : TableOp → CallsignHashTable
  | .insert call => t.insert call
  | .clear => t.clear

/-- The live part of the two parallel arrays is what the history says. -/
structure LruHolds (calls22 : List Call13) (hash22 : List UInt32) (n22 : Nat) (hist : List Str) :
    Prop where
  size_calls : calls22.length = MAX_HASH22
  size_hash : hash22.length = MAX_HASH22
  count : n22 = (liveTexts hist).length
  hashes : hash22.take n22 = (liveTexts hist).map (fun base => ihashcall base 22)
  texts : calls22.take n22 = (liveTexts hist).map Call13.fromStr

/-- Before the first insert there are no blocks and nothing has been learned. -/
def Holds (t : CallsignHashTable) (hist : List Str) : Prop :=
  (t = new ∧ hist = []) ∨
    ∃ calls22 hash22 n22, LruHolds calls22 hash22 n22 hist ∧
      t = ⟨some ((List.range N_HASH10).map (slotText 10 hist)),
        some ((List.range N_HASH12).map (slotText 12 hist)),some calls22,some hash22,n22⟩

private theorem slotText_cons (m : Nat) (base : Str) (hist : List Str) (N : Nat) :
    ((List.range N).map (slotText m hist)).set (ihashcall base m).toNat (Call13.fromStr base) =
      (List.range N).map (slotText m (base :: hist)) := by
  apply List.ext_getElem?
  intro n
  rw [List.getElem?_set]
  by_cases hn : (ihashcall base m).toNat = n
  · subst hn
    by_cases hN : (ihashcall base m).toNat < N
    · simp [hN,slotText]
    · simp [hN]
  · have hs : slotText m (base :: hist) n = slotText m hist n := by simp [slotText,hn]
    by_cases hN : n < N
    · simp [hn,hN,hs]
    · simp [hn,hN]

private theorem slotText_nil (m N : Nat) :
    (List.range N).map (slotText m []) = List.replicate N Call13.EMPTY := by
  rw [List.eq_replicate_iff]
  constructor
  · simp
  · intro c hc
    obtain ⟨n,-,rfl⟩ := List.mem_map.mp hc
    rfl

theorem lruHolds_iff {calls22 : List Call13} {hash22 : List UInt32} {n22 : Nat} {hist : List Str} :
    LruHolds calls22 hash22 n22 hist ↔ Held MAX_HASH22 Call13.fromStr calls22 n22 hist ∧
      Held MAX_HASH22 (fun base => ihashcall base 22) hash22 n22 hist := by
  constructor
  · intro h
    exact ⟨⟨h.size_calls,h.count,h.texts⟩,⟨h.size_hash,h.count,h.hashes⟩⟩
  · rintro ⟨hc,hh⟩
    exact ⟨hc.size,hh.size,hc.count,hh.texts,hc.texts⟩

/-- A hash that is live: its slot moves to the front in both arrays with the new text. -/
private theorem LruHolds.refresh {calls22 : List Call13} {hash22 : List UInt32} {n22 pos : Nat}
    {hist : List Str} {base : Str} (h : LruHolds calls22 hash22 n22 hist)
    (hpos : (hash22.take n22)[pos]? = some (ihashcall base 22)) :
    LruHolds (rotatePrefix (pos + 1) (calls22.set pos (.fromStr base)))
      (rotatePrefix (pos + 1) hash22) n22 (base :: hist) := by
  obtain ⟨hc,hh⟩ := lruHolds_iff.1 h
  obtain ⟨hlt,hhash⟩ : pos < n22 ∧ hash22[pos]? = some (ihashcall base 22) := by
    simpa [List.getElem?_take] using hpos
  have hset : hash22.set pos (ihashcall base 22) = hash22 := by
    obtain ⟨hin,heq⟩ := List.getElem?_eq_some_iff.1 hhash
    rw [← heq,List.set_getElem_self]
  rw [hh.texts] at hpos
  have hrot := hh.refresh base hpos
  rw [hset] at hrot
  exact lruHolds_iff.2 ⟨hc.refresh base hpos,hrot⟩

/-- A hash that is not live: the front is taken, and a full array loses its last entry. -/
private theorem LruHolds.push {calls22 : List Call13} {hash22 : List UInt32} {n22 live : Nat}
    {hist : List Str} {base : Str} (h : LruHolds calls22 hash22 n22 hist)
    (hnew : ihashcall base 22 ∉ hash22.take n22)
    (hlive : live = if n22 < MAX_HASH22 then n22 + 1 else n22) :
    LruHolds ((rotatePrefix live calls22).set 0 (.fromStr base))
      ((rotatePrefix live hash22).set 0 (ihashcall base 22)) live (base :: hist) := by
  obtain ⟨hc,hh⟩ := lruHolds_iff.1 h
  rw [hh.texts] at hnew
  have hN : 0 < MAX_HASH22 := by decide
  exact lruHolds_iff.2 ⟨hc.push base hN hnew hlive,hh.push base hN hnew hlive⟩

private theorem insert22_holds {calls22 : List Call13} {hash22 : List UInt32} {n22 : Nat}
    {hist : List Str} (calls10 calls12 : Option (List Call13)) (base : Str)
    (h : LruHolds calls22 hash22 n22 hist) : ∃ calls22' hash22' n22',
      LruHolds calls22' hash22' n22' (base :: hist) ∧
      insert22 ⟨calls10,calls12,some calls22,some hash22,n22⟩ (ihashcall base 22) (.fromStr base) =
        ⟨calls10,calls12,some calls22',some hash22',n22'⟩ := by
  simp only [insert22]
  split
  · rename_i pos hpos
    obtain ⟨hlt,he,-⟩ := List.findIdx?_eq_some_iff_getElem.mp hpos
    refine ⟨_,_,_,h.refresh ?_,rfl⟩
    rw [List.getElem?_eq_getElem hlt,eq_of_beq he]
  · rename_i hnone
    refine ⟨_,_,_,h.push ?_ rfl,rfl⟩
    intro hmem
    have := List.findIdx?_eq_none_iff.mp hnone _ hmem
    simp at this

private theorem lruHolds_nil {calls22 : List Call13} {hash22 : List UInt32}
    (hc : calls22.length = MAX_HASH22) (hh : hash22.length = MAX_HASH22) :
    LruHolds calls22 hash22 0 [] :=
  lruHolds_iff.2 ⟨held_nil _ hc,held_nil _ hh⟩

theorem allocate_holds {t : CallsignHashTable} {hist : List Str} (h : t.Holds hist) :
    ∃ calls22 hash22 n22, LruHolds calls22 hash22 n22 hist ∧
      t.allocate = ⟨some ((List.range N_HASH10).map (slotText 10 hist)),
        some ((List.range N_HASH12).map (slotText 12 hist)),some calls22,some hash22,n22⟩ := by
  rcases h with ⟨rfl,rfl⟩ | ⟨calls22,hash22,n22,h,rfl⟩
  · refine ⟨List.replicate MAX_HASH22 .EMPTY,List.replicate MAX_HASH22 0,0,lruHolds_nil ?_ ?_,?_⟩
    · exact List.length_replicate
    · exact List.length_replicate
    · rw [slotText_nil,slotText_nil]
      rfl
  · exact ⟨calls22,hash22,n22,h,rfl⟩

theorem apply_holds {t : CallsignHashTable} {hist : List Str} (op : TableOp) (h : t.Holds hist) :
    (t.apply op).Holds (learn hist op) := by
  cases op with
  | insert call =>
    simp only [apply,insert,learn]
    split
    · exact h
    · obtain ⟨calls22,hash22,n22,hl,ht⟩ := allocate_holds h
      obtain ⟨calls22',hash22',n22',hl',ht'⟩ := insert22_holds
        (some ((List.range N_HASH10).map (slotText 10 (baseCall call :: hist))))
        (some ((List.range N_HASH12).map (slotText 12 (baseCall call :: hist)))) (baseCall call) hl
      refine Or.inr ⟨calls22',hash22',n22',hl',?_⟩
      rw [ht]
      simp only [setSlot,Option.map_some,slotText_cons]
      exact ht'
  | clear =>
    rcases h with ⟨rfl,rfl⟩ | ⟨calls22,hash22,n22,h,rfl⟩
    · exact Or.inl ⟨rfl,rfl⟩
    · refine Or.inr ⟨calls22.map (fun _ => .EMPTY),hash22,0,lruHolds_nil ?_ h.size_hash,?_⟩
      · rw [List.length_map,h.size_calls]
      · simp only [learn,slotText_nil]
        simp [apply,clear]

theorem run_holds (ops : List TableOp) {t : CallsignHashTable} {hist : List Str} (h : t.Holds hist) :
    (run apply t ops).Holds (run learn hist ops) := by
  induction ops generalizing t hist with
  | nil => exact h
  | cons op ops ih => exact ih (apply_holds op h)

private theorem toNat_topBits (x : UInt64) {m : Nat} (h0 : 0 < m) :
    (x >>> UInt64.ofNat (64 - m)).toUInt32.toNat = x.toNat / 2^(64 - m) % 2^32 := by
  rw [UInt64.toNat_toUInt32,UInt64.toNat_shiftRight,
    UInt64.toNat_ofNat_of_lt' (Nat.lt_of_le_of_lt (Nat.sub_le 64 m) (by decide)),
    Nat.mod_eq_of_lt (show 64 - m < 64 by omega),Nat.shiftRight_eq_div_pow]

private theorem div_topBits_lt (x : UInt64) (m : Nat) : x.toNat / 2^(64 - m) < 2^m := by
  rw [Nat.div_lt_iff_lt_mul (Nat.two_pow_pos _),← Nat.pow_add]
  exact lt_of_lt_of_le x.toNat_lt (Nat.pow_le_pow_right (by decide) (by omega))

theorem ihashcall_lt (base : Str) {m : Nat} (h0 : 0 < m) :
    (ihashcall base m).toNat < 2^m := by
  rw [ihashcall,toNat_topBits _ h0]
  exact lt_of_le_of_lt (Nat.mod_le _ _) (div_topBits_lt _ m)

/-- A narrower hash is the top of the 22-bit one. -/
theorem ihashcall_toNat (base : Str) {m : Nat} (h0 : 0 < m) (hm : m ≤ 22) :
    (ihashcall base m).toNat = (ihashcall base 22).toNat / 2^(22 - m) := by
  have hlt : ∀ (x : UInt64) {k : Nat}, k ≤ 22 → x.toNat / 2^(64 - k) % 2^32 = x.toNat / 2^(64 - k) := by
    intro x k hk
    apply Nat.mod_eq_of_lt
    exact lt_of_lt_of_le (div_topBits_lt x k) (Nat.pow_le_pow_right (by decide) (by omega))
  have hexp : 64 - m = 64 - 22 + (22 - m) := by omega
  rw [ihashcall,ihashcall,toNat_topBits _ h0,toNat_topBits _ (by decide),hlt _ hm,hlt _ le_rfl,hexp,
    Nat.pow_add,Nat.div_div_eq_div_mul]

/-- Text the table can give back: ASCII, without NUL, not empty. -/
def Storable (base : Str) : Prop := isAscii base ∧ (∀ c ∈ base, 0 < c.toNat) ∧ base ≠ []

/-- What a slot answers that holds a text. -/
def slotAnswer (base : Str) : Option Str :=
  if (Call13.fromStr base).isEmpty then none else some (Call13.fromStr base).asStr

theorem slotAnswer_eq {base : Str} (h : Storable base) : slotAnswer base = some (base.take 13) := by
  obtain ⟨ha,h0,hne⟩ := h
  rw [slotAnswer,Call13.isEmpty_fromStr ha h0 hne,Call13.asStr_fromStr ha h0]
  rfl

private theorem lookupSlot_eq {m N : Nat} (hm : 0 < m) (hN : N = 2^m) (hist : List Str) (n : UInt32) :
    lookupSlot (some ((List.range N).map (slotText m hist))) n =
      (hist.find? (fun base => ihashcall base m = n)).bind slotAnswer := by
  have hfind : hist.find? (fun base => (ihashcall base m).toNat = n.toNat) =
      hist.find? (fun base => ihashcall base m = n) := by
    congr 1
    funext base
    simp [UInt32.toNat_inj]
  rw [← hfind]
  by_cases hn : n.toNat < N
  · simp only [lookupSlot,Option.bind_some,List.getElem?_map,List.getElem?_range hn,Option.map_some,slotText]
    cases hist.find? (fun base => (ihashcall base m).toNat = n.toNat) with
    | none => rfl
    | some base => rfl
  · have hnone : hist.find? (fun base => (ihashcall base m).toNat = n.toNat) = none := by
      rw [List.find?_eq_none]
      intro base _
      have := ihashcall_lt base hm
      simp
      omega
    rw [hnone]
    simp [lookupSlot,hn]

private theorem lookup22_eq {calls22 : List Call13} {hash22 : List UInt32} {n22 : Nat}
    {live : List Str} (calls10 calls12 : Option (List Call13)) (hcount : n22 = live.length)
    (hhashes : hash22.take n22 = live.map (fun base => ihashcall base 22))
    (htexts : calls22.take n22 = live.map Call13.fromStr) (n : UInt32) :
    lookup22 ⟨calls10,calls12,some calls22,some hash22,n22⟩ n =
      (live.find? (fun base => ihashcall base 22 = n)).map (Call13.asStr ∘ Call13.fromStr) := by
  have hcalls : ∀ pos ∈ (live.map fun base => ihashcall base 22).findIdx? (· == n),
      calls22[pos]? = (live.map Call13.fromStr)[pos]? := by
    intro pos hpos
    have hlt := (List.findIdx?_eq_some_iff_findIdx_eq.mp hpos).1
    rw [← htexts,List.getElem?_take_of_lt (by rw [hcount]; simpa using hlt)]
  have hfind := findIdx?_getElem? (fun base => ihashcall base 22) Call13.fromStr live n
  simp only [lookup22,Option.bind_some,hhashes]
  calc ((live.map fun base => ihashcall base 22).findIdx? (· == n)).bind
        (fun pos => (calls22[pos]?).map Call13.asStr)
      = (((live.map fun base => ihashcall base 22).findIdx? (· == n)).bind
          (fun pos => (live.map Call13.fromStr)[pos]?)).map Call13.asStr := by
        rw [Option.map_bind]
        apply Option.bind_congr
        intro pos hpos
        rw [hcalls pos hpos]
        rfl
    _ = (live.find? (fun base => ihashcall base 22 = n)).map (Call13.asStr ∘ Call13.fromStr) := by
        rw [hfind,Option.map_map]

/-- The three lookups of a table, whatever texts it was given. -/
theorem lookups_find {t : CallsignHashTable} {hist : List Str} (h : t.Holds hist) (n : UInt32) :
    t.lookup10 n = (hist.find? (fun base => ihashcall base 10 = n)).bind slotAnswer ∧
    t.lookup12 n = (hist.find? (fun base => ihashcall base 12 = n)).bind slotAnswer ∧
    t.lookup22 n = ((liveTexts hist).find? (fun base => ihashcall base 22 = n)).map
      (Call13.asStr ∘ Call13.fromStr) := by
  rcases h with ⟨rfl,rfl⟩ | ⟨calls22,hash22,n22,h,rfl⟩
  · exact ⟨rfl,rfl,rfl⟩
  · exact ⟨lookupSlot_eq (by decide) rfl hist n,lookupSlot_eq (by decide) rfl hist n,
      lookup22_eq _ _ h.count h.hashes h.texts n⟩

private theorem baseCall_subset (call : Str) : baseCall call ⊆ trim call := by
  have hopen : ∀ s : Str, (stripPrefix ['<'] s).getD s ⊆ s := by
    intro s
    simp only [stripPrefix]
    split
    · exact List.drop_subset _ _
    · exact List.Subset.refl _
  have hclose : ∀ s : Str, (stripSuffix ['>'] s).getD s ⊆ s := by
    intro s
    simp only [stripSuffix]
    split
    · exact List.take_subset _ _
    · exact List.Subset.refl _
  have hbody := List.Subset.trans (hclose _) (hopen (trim call))
  simp only [baseCall]
  split
  · exact List.Subset.trans (List.take_subset _ _) hbody
  · exact hbody

/-- What `insert` keeps of a plain text can be stored. -/
theorem storable_baseCall {call : Str} (hcall : ∀ c ∈ trim call, 0 < c.toNat ∧ c.toNat < 128)
    (hskip : ¬skipsBase (baseCall call) = true) : Storable (baseCall call) := by
  have hchars : ∀ c ∈ baseCall call, 0 < c.toNat ∧ c.toNat < 128 := fun c hc =>
    hcall c (baseCall_subset call hc)
  refine ⟨?_,fun c hc => (hchars c hc).1,?_⟩
  · simp only [isAscii,List.all_eq_true,decide_eq_true_eq]
    exact fun c hc => (hchars c hc).2
  · rintro he
    rw [he] at hskip
    exact hskip (by decide)

theorem learned_storable {hist : List Str} {ops : List TableOp}
    (hist_ok : ∀ base ∈ hist, Storable base)
    (hops : ∀ call, TableOp.insert call ∈ ops → ∀ c ∈ call, 0 < c.toNat ∧ c.toNat < 128) :
    ∀ base ∈ run learn hist ops, Storable base := by
  induction ops generalizing hist with
  | nil => exact hist_ok
  | cons op ops ih =>
    apply ih
    · intro base hb
      cases op with
      | insert call =>
        have hcall := hops call List.mem_cons_self
        simp only [learn] at hb
        split at hb
        · exact hist_ok base hb
        · rename_i hskip
          rcases List.mem_cons.mp hb with rfl | hb
          · exact storable_baseCall (fun c hc => hcall c (trim_subset call hc)) hskip
          · exact hist_ok base hb
      | clear => simp [learn] at hb
    · intro call hc
      exact hops call (List.mem_cons_of_mem op hc)

/-- The three lookups of a table, from the history it holds. -/
theorem lookups_of_holds {t : CallsignHashTable} {hist : List Str} (h : t.Holds hist)
    (hist_ok : ∀ base ∈ hist, Storable base) (n : UInt32) :
    t.lookup10 n = (hist.find? (fun base => ihashcall base 10 = n)).map (List.take 13) ∧
    t.lookup12 n = (hist.find? (fun base => ihashcall base 12 = n)).map (List.take 13) ∧
    t.lookup22 n = ((liveTexts hist).find? (fun base => ihashcall base 22 = n)).map (List.take 13) := by
  have hslot : ∀ p : Str → Bool, (hist.find? p).bind slotAnswer = (hist.find? p).map (List.take 13) := by
    intro p
    cases hf : hist.find? p with
    | none => rfl
    | some base => exact slotAnswer_eq (hist_ok base (List.mem_of_find?_eq_some hf))
  obtain ⟨h10,h12,h22⟩ := lookups_find h n
  refine ⟨h10.trans (hslot _),h12.trans (hslot _),h22.trans (Option.map_congr fun base hb => ?_)⟩
  obtain ⟨ha,h0,-⟩ := hist_ok base (mem_hist_of_newest (List.mem_of_find?_eq_some hb))
  exact Call13.asStr_fromStr ha h0

/-- Two tables that answer every lookup alike. -/
def SameAnswers (t t' : CallsignHashTable) : Prop :=
  ∀ n, t'.lookup10 n = t.lookup10 n ∧ t'.lookup12 n = t.lookup12 n ∧ t'.lookup22 n = t.lookup22 n

/-- The answers of a table to the hashes of some texts are what it will say once it has learned
them: under each hash the newest of the texts that have it. -/
def Knows (t : CallsignHashTable) (new : List Str) : Prop :=
  ∀ c ∈ new,
    t.lookup10 (ihashcall c 10) =
      (new.find? (fun b => ihashcall b 10 = ihashcall c 10)).map (List.take 13) ∧
    t.lookup12 (ihashcall c 12) =
      (new.find? (fun b => ihashcall b 12 = ihashcall c 12)).map (List.take 13) ∧
    t.lookup22 (ihashcall c 22) =
      (new.find? (fun b => ihashcall b 22 = ihashcall c 22)).map (List.take 13)

section Teaching
variable {t t' : CallsignHashTable} {new hist : List Str}

/-- Texts whose hashes are live keep the others where they are. -/
private theorem liveTexts_append (hlive : ∀ c ∈ new,
    ihashcall c 22 ∈ (liveTexts hist).map (fun base => ihashcall base 22)) (n : UInt32) :
    (liveTexts (new ++ hist)).find? (fun base => ihashcall base 22 = n) =
      (new.find? (fun base => ihashcall base 22 = n)).or
        ((liveTexts hist).find? (fun base => ihashcall base 22 = n)) := by
  have hkeys : ∀ new : List Str, (∀ c ∈ new, ihashcall c 22 ∈
      (liveTexts hist).map (fun base => ihashcall base 22)) → ∀ k ∈ (liveTexts hist).map
        (fun base => ihashcall base 22), k ∈ (liveTexts (new ++ hist)).map (fun base => ihashcall base 22) := by
    intro new
    induction new with
    | nil => exact fun _ k hk => hk
    | cons c new ih =>
      intro hlive k hk
      have hrest := ih (fun b hb => hlive b (List.mem_cons_of_mem c hb))
      rw [List.cons_append,liveTexts,← newest,newest_cons]
      exact touch_known_keys (newest_nodup _ _) (newest_length _ _)
        (hrest _ (hlive c List.mem_cons_self)) (hrest k hk)
  induction new with
  | nil => rfl
  | cons c new ih =>
    have hrest : ∀ b ∈ new, ihashcall b 22 ∈ (liveTexts hist).map (fun base => ihashcall base 22) :=
      fun b hb => hlive b (List.mem_cons_of_mem c hb)
    have htouch := touch_known_find? (newest_nodup MAX_HASH22 (new ++ hist)) (newest_length _ _)
      (hkeys new hrest _ (hlive c List.mem_cons_self)) n
    rw [List.cons_append,liveTexts,← newest,newest_cons,htouch]
    by_cases hc : ihashcall c 22 = n
    · rw [if_pos hc,List.find?_cons_of_pos (by simpa using hc)]
      rfl
    · rw [if_neg hc,List.find?_cons_of_neg (by simpa using hc)]
      exact ih hrest

private theorem find?_self {new : List Str} {m : Nat} {c : Str} (hc : c ∈ new) :
    ∃ x ∈ new, new.find? (fun b => ihashcall b m = ihashcall c m) = some x := by
  have hsome : (new.find? (fun b => ihashcall b m = ihashcall c m)).isSome :=
    List.find?_isSome.2 ⟨c,hc,by simp⟩
  obtain ⟨x,hx⟩ := Option.isSome_iff_exists.1 hsome
  exact ⟨x,List.mem_of_find?_eq_some hx,hx⟩

/-- A slot after some texts have been learned. -/
private theorem find?_append_slot (hnew : ∀ b ∈ new, Storable b) {m : Nat} (n : UInt32) :
    ((new ++ hist).find? (fun base => ihashcall base m = n)).bind slotAnswer =
      ((new.find? (fun base => ihashcall base m = n)).map (List.take 13)).or
        ((hist.find? (fun base => ihashcall base m = n)).bind slotAnswer) := by
  rw [List.find?_append]
  cases hf : new.find? (fun base => ihashcall base m = n) with
  | none => rfl
  | some x =>
    rw [Option.map_some,Option.some_or,Option.some_or,Option.bind_some,
      slotAnswer_eq (hnew x (List.mem_of_find?_eq_some hf))]

private theorem text_of_storable (hnew : ∀ b ∈ new, Storable b) :
    ∀ x ∈ new, (Call13.asStr ∘ Call13.fromStr) x = x.take 13 := fun x hx =>
  Call13.asStr_fromStr (hnew x hx).1 (hnew x hx).2.1

/-- A table that has just learned some texts knows them. -/
theorem knows_of_holds (h : t.Holds (new ++ hist)) (hnew : ∀ b ∈ new, Storable b)
    (hlen : new.length ≤ MAX_HASH22) : Knows t new := by
  intro c hc
  refine ⟨?_,?_,?_⟩
  · obtain ⟨x,-,hx⟩ := find?_self (m := 10) hc
    rw [(lookups_find h _).1,find?_append_slot hnew,hx]
    rfl
  · obtain ⟨x,-,hx⟩ := find?_self (m := 12) hc
    rw [(lookups_find h _).2.1,find?_append_slot hnew,hx]
    rfl
  · obtain ⟨x,hmem,hx⟩ := find?_self (m := 22) hc
    have hfind := find?_take_recent (fun base => ihashcall base 22) new hist hlen _ hx
    rw [(lookups_find h _).2.2,liveTexts,hfind,hx,Option.map_some,Option.map_some,
      text_of_storable hnew x hmem]

/-- Learning some texts leaves every answer as it was exactly when the table knew them. -/
theorem sameAnswers_iff (h : t.Holds hist) (h' : t'.Holds (new ++ hist)) (hnew : ∀ b ∈ new, Storable b)
    (hlen : new.length ≤ MAX_HASH22) : SameAnswers t t' ↔ Knows t new := by
  constructor
  · intro hsame c hc
    obtain ⟨h10,h12,h22⟩ := knows_of_holds h' hnew hlen c hc
    exact ⟨(hsame _).1.symm.trans h10,(hsame _).2.1.symm.trans h12,(hsame _).2.2.symm.trans h22⟩
  · intro hknows n
    have hor : ∀ {o p : Option Str}, (∀ x, o = some x → p = some x) → o.or p = p := by
      intro o p hop
      cases o with
      | none => rfl
      | some x => rw [hop x rfl,Option.some_or]
    refine ⟨?_,?_,?_⟩
    · rw [(lookups_find h' n).1,find?_append_slot hnew,← (lookups_find h n).1]
      refine hor fun text htext => ?_
      obtain ⟨x,hx,rfl⟩ := Option.map_eq_some_iff.1 htext
      obtain rfl : ihashcall x 10 = n := by simpa using List.find?_some hx
      rw [(hknows x (List.mem_of_find?_eq_some hx)).1,hx,Option.map_some]
    · rw [(lookups_find h' n).2.1,find?_append_slot hnew,← (lookups_find h n).2.1]
      refine hor fun text htext => ?_
      obtain ⟨x,hx,rfl⟩ := Option.map_eq_some_iff.1 htext
      obtain rfl : ihashcall x 12 = n := by simpa using List.find?_some hx
      rw [(hknows x (List.mem_of_find?_eq_some hx)).2.1,hx,Option.map_some]
    · have hlive : ∀ c ∈ new, ihashcall c 22 ∈ (liveTexts hist).map (fun base => ihashcall base 22) := by
        intro c hc
        obtain ⟨x,-,hx⟩ := find?_self (m := 22) hc
        have hc22 := (hknows c hc).2.2
        rw [(lookups_find h _).2.2,hx,Option.map_some,Option.map_eq_some_iff] at hc22
        obtain ⟨b,hb,-⟩ := hc22
        have hkey : ihashcall b 22 = ihashcall c 22 := by simpa using List.find?_some hb
        exact List.mem_map.2 ⟨b,List.mem_of_find?_eq_some hb,hkey⟩
      rw [(lookups_find h' n).2.2,liveTexts_append hlive,Option.map_or,← (lookups_find h n).2.2]
      refine hor fun text htext' => ?_
      obtain ⟨x,hx,rfl⟩ := Option.map_eq_some_iff.1 htext'
      have hmem := List.mem_of_find?_eq_some hx
      obtain rfl : ihashcall x 22 = n := by simpa using List.find?_some hx
      rw [(hknows x hmem).2.2,hx,Option.map_some,text_of_storable hnew x hmem]

end Teaching

/-- The live slots of a table, from the history it holds. -/
private theorem slots_of_holds {t : CallsignHashTable} {hist : List Str} (h : t.Holds hist)
    (hist_ok : ∀ base ∈ hist, Storable base) :
    t.n22 = (liveTexts hist).length ∧
    (t.hash22.getD []).take t.n22 = (liveTexts hist).map (fun base => ihashcall base 22) ∧
    ((t.calls22.getD []).take t.n22).map Call13.asStr = (liveTexts hist).map (List.take 13) := by
  rcases h with ⟨rfl,rfl⟩ | ⟨calls22,hash22,n22,h,rfl⟩
  · exact ⟨rfl,rfl,rfl⟩
  · refine ⟨h.count,h.hashes,?_⟩
    simp only [Option.getD_some,h.texts,List.map_map]
    apply List.map_congr_left
    intro base hb
    obtain ⟨ha,h0,-⟩ := hist_ok base (mem_hist_of_newest hb)
    exact Call13.asStr_fromStr ha h0

/-- After any inserts and clears the live slots are the newest distinct 22-bit hashes with the
text last learned under each, and the three lookups answer from the history since the clear. -/
theorem lru_law (ops : List TableOp)
    (hops : ∀ call, TableOp.insert call ∈ ops → ∀ c ∈ call, 0 < c.toNat ∧ c.toNat < 128) :
    let t := run apply new ops
    let hist := learned ops
    let live := liveTexts hist
    let hashes := (t.hash22.getD []).take t.n22
    let calls := (t.calls22.getD []).take t.n22
    t.n22 = live.length ∧ t.n22 ≤ 1000 ∧
    hashes = live.map (fun base => ihashcall base 22) ∧ hashes.Nodup ∧
    calls.map Call13.asStr = live.map (List.take 13) ∧
    (∀ base ∈ live, hist.find? (fun b => ihashcall b 22 = ihashcall base 22) = some base) ∧
    (∀ n text, t.lookup22 n = some text ↔ ∃ base ∈ live, ihashcall base 22 = n ∧ text = base.take 13) ∧
    (∀ n, t.lookup10 n = (hist.find? (fun base => ihashcall base 10 = n)).map (List.take 13)) ∧
    (∀ n, t.lookup12 n = (hist.find? (fun base => ihashcall base 12 = n)).map (List.take 13)) := by
  have hist_ok : ∀ base ∈ learned ops, Storable base := learned_storable (by simp) hops
  have hholds : (run apply new ops).Holds (learned ops) := run_holds ops (Or.inl ⟨rfl,rfl⟩)
  generalize run apply new ops = t at hholds ⊢
  generalize learned ops = hist at hist_ok hholds ⊢
  have hlookups := lookups_of_holds hholds hist_ok
  have hmax : (liveTexts hist).length ≤ MAX_HASH22 := newest_length MAX_HASH22 hist
  have hnodup : ((liveTexts hist).map (fun base => ihashcall base 22)).Nodup :=
    newest_nodup MAX_HASH22 hist
  have hfirst : ∀ base ∈ liveTexts hist,
      hist.find? (fun b => ihashcall b 22 = ihashcall base 22) = some base := by
    intro base hb
    rw [← recent_find?,find?_eq_some_iff_of_nodup (recent_keys_nodup _ hist)]
    exact ⟨List.mem_of_mem_take hb,rfl⟩
  have hlookup22 : ∀ n text, t.lookup22 n = some text ↔
      ∃ base ∈ liveTexts hist, ihashcall base 22 = n ∧ text = base.take 13 := by
    intro n text
    rw [(hlookups n).2.2,Option.map_eq_some_iff]
    constructor
    · rintro ⟨base,hb,rfl⟩
      obtain ⟨hmem,hk⟩ := (find?_eq_some_iff_of_nodup hnodup).mp hb
      exact ⟨base,hmem,hk,rfl⟩
    · rintro ⟨base,hmem,hk,rfl⟩
      exact ⟨base,(find?_eq_some_iff_of_nodup hnodup).mpr ⟨hmem,hk⟩,rfl⟩
  obtain ⟨hcount,hhashes,hcalls⟩ := slots_of_holds hholds hist_ok
  refine ⟨hcount,hcount ▸ hmax,hhashes,?_,hcalls,hfirst,hlookup22,fun n => (hlookups n).1,
    fun n => (hlookups n).2.1⟩
  rw [hhashes]
  exact hnodup

/-- A run with a clear, a bracketed call, a skipped token and a refresh under another suffix. -/
theorem lru_law_bracketed :
    let ops : List TableOp := [.insert "W1AW".toList,.clear,.insert "JA1ABC/P".toList,
      .insert "<PJ4/K1ABC>".toList,.insert "CQ".toList,.insert "JA1ABC".toList]
    learned ops = ["JA1ABC".toList,"PJ4/K1ABC".toList,"JA1ABC".toList] ∧
    ∀ n, (run apply new ops).lookup10 n =
      ((learned ops).find? (fun base => ihashcall base 10 = n)).map (List.take 13) := by
  refine ⟨by decide,(lru_law _ ?_).2.2.2.2.2.2.2.1⟩
  intro call hc
  have hcalls : call ∈ ["W1AW".toList,"JA1ABC/P".toList,"<PJ4/K1ABC>".toList,"CQ".toList,
      "JA1ABC".toList] := by simpa using hc
  have hall : ["W1AW".toList,"JA1ABC/P".toList,"<PJ4/K1ABC>".toList,"CQ".toList,
      "JA1ABC".toList].all (fun call => call.all fun c => 0 < c.toNat && c.toNat < 128) = true := by decide
  intro c hmem
  have hchar := List.all_eq_true.mp (List.all_eq_true.mp hall call hcalls) c hmem
  simpa using hchar

end CallsignHashTable
end MfskCore.Msg
