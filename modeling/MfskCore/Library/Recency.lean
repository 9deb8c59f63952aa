import Mathlib.Data.List.Basic
import Mathlib.Data.List.Nodup

/-! Entries kept by recency. A history is read newest first; of the entries that share a key
only the newest one counts, and a bounded table holds a prefix of what is left. -/
namespace MfskCore.Library
variable {α κ : Type*} [DecidableEq κ]

/-- The newest entry of every key, newest first. -/
def recent (key : α → κ) : List α → List α
  | [] => []
  | a :: older => a :: (recent key older).filter (fun b => key b ≠ key a)

/-- What a table of `n` entries, newest first, becomes when `a` is used. -/
def touch (key : α → κ) (n : Nat) (a : α) (l : List α) : List α :=
  (a :: l.filter (fun b => key b ≠ key a)).take n

theorem recent_keys_nodup (key : α → κ) (hist : List α) : ((recent key hist).map key).Nodup := by
  induction hist with
  | nil => simp [recent]
  | cons a older ih =>
    rw [recent,List.map_cons,List.nodup_cons]
    constructor
    · simp
    · exact ih.sublist (List.filter_sublist.map key)

/-- A question that entries of one key answer alike is answered by the newest of them. -/
theorem recent_find?_of_key (key : α → κ) {p : α → Bool} (hp : ∀ a b, key a = key b → p a = p b)
    (hist : List α) : (recent key hist).find? p = hist.find? p := by
  induction hist with
  | nil => rfl
  | cons a older ih =>
    by_cases h : p a = true
    · rw [recent,List.find?_cons_of_pos h,List.find?_cons_of_pos h]
    · rw [recent,List.find?_cons_of_neg h,List.find?_cons_of_neg h,← ih,List.find?_filter]
      congr 1
      funext b
      by_cases hb : key b = key a
      · rw [hp b a hb]
        simp [h]
      · simp [hb]

/-- The newest entry of a key is the first one in the history. -/
theorem recent_find? (key : α → κ) (hist : List α) (k : κ) :
    (recent key hist).find? (fun a => key a = k) = hist.find? (fun a => key a = k) :=
  recent_find?_of_key key (fun a b h => by rw [h]) hist

theorem mem_of_mem_recent {key : α → κ} {hist : List α} {a : α} (h : a ∈ recent key hist) :
    a ∈ hist := by
  induction hist with
  | nil => exact h
  | cons b older ih =>
    rcases List.mem_cons.mp h with rfl | h
    · exact List.mem_cons_self
    · exact List.mem_cons_of_mem b (ih (List.mem_filter.mp h).1)

/-- Where no key repeats, looking a key up finds the one entry that has it. -/
theorem find?_eq_some_iff_of_nodup {key : α → κ} {l : List α} (hl : (l.map key).Nodup) {k : κ}
    {a : α} : l.find? (fun b => key b = k) = some a ↔ a ∈ l ∧ key a = k := by
  constructor
  · intro h
    exact ⟨List.mem_of_find?_eq_some h,by simpa using List.find?_some h⟩
  · rintro ⟨ha,rfl⟩
    induction l with
    | nil => simp at ha
    | cons b l ih =>
      rw [List.map_cons,List.nodup_cons] at hl
      rcases List.mem_cons.mp ha with rfl | ha
      · simp
      · have hb : key b ≠ key a := fun he => hl.1 (he ▸ List.mem_map_of_mem ha)
        rw [List.find?_cons_of_neg (by simpa using hb),ih hl.2 ha]

private theorem filter_eq_self_of_notMem {key : α → κ} {l : List α} {k : κ} (h : k ∉ l.map key) :
    l.filter (fun b => key b ≠ k) = l := by
  rw [List.filter_eq_self]
  intro b hb
  have hne : key b ≠ k := fun he => h (he ▸ List.mem_map_of_mem hb)
  simpa using hne

/-- Removing one key loses at most one entry, so the first `n` entries left over are found among
the first `n + 1`. -/
private theorem take_filter_take {key : α → κ} {l : List α} (hl : (l.map key).Nodup) (k : κ)
    (n : Nat) : ((l.take (n + 1)).filter (fun b => key b ≠ k)).take n =
      (l.filter (fun b => key b ≠ k)).take n := by
  induction l generalizing n with
  | nil => simp
  | cons a l ih =>
    rw [List.map_cons,List.nodup_cons] at hl
    by_cases ha : key a = k
    · have hk : k ∉ l.map key := ha ▸ hl.1
      have hk' : k ∉ (l.take n).map key := fun hm => hk ((List.take_sublist n l).map key |>.mem hm)
      rw [List.take_succ_cons,List.filter_cons_of_neg (by simpa using ha),
        List.filter_cons_of_neg (by simpa using ha),filter_eq_self_of_notMem hk,
        filter_eq_self_of_notMem hk',List.take_take,Nat.min_self]
    · rw [List.take_succ_cons,List.filter_cons_of_pos (by simpa using ha),
        List.filter_cons_of_pos (by simpa using ha)]
      cases n with
      | zero => simp
      | succ n => rw [List.take_succ_cons,List.take_succ_cons,ih hl.2]

/-- A table of `n` entries that is touched on every use holds the `n` newest keys. -/
theorem touch_recent (key : α → κ) (n : Nat) (a : α) (hist : List α) :
    touch key n a ((recent key hist).take n) = (recent key (a :: hist)).take n := by
  cases n with
  | zero => simp [touch]
  | succ n => rw [touch,recent,List.take_succ_cons,List.take_succ_cons,
      take_filter_take (recent_keys_nodup key hist)]

private theorem filter_eq_eraseIdx {key : α → κ} {l : List α} {k : κ} {pos : Nat}
    (hl : (l.map key).Nodup) (hpos : (l.map key)[pos]? = some k) :
    l.filter (fun b => key b ≠ k) = l.eraseIdx pos := by
  induction l generalizing pos with
  | nil => simp at hpos
  | cons c l ih =>
    rw [List.map_cons,List.nodup_cons] at hl
    cases pos with
    | zero =>
      have hc : key c = k := by simpa using hpos
      rw [List.filter_cons_of_neg (by simpa using hc),List.eraseIdx_cons_zero]
      exact filter_eq_self_of_notMem (hc ▸ hl.1)
    | succ pos =>
      have hrest : (l.map key)[pos]? = some k := by simpa using hpos
      have hc : key c ≠ k := fun he => hl.1 (he ▸ List.mem_of_getElem? hrest)
      rw [List.filter_cons_of_pos (by simpa using hc),List.eraseIdx_cons_succ,ih hl.2 hrest]

/-- A known key moves to the front and the others keep their order. -/
theorem touch_known {key : α → κ} {n : Nat} {a : α} {l : List α} (hl : (l.map key).Nodup)
    (hn : l.length ≤ n) {pos : Nat} (hpos : (l.map key)[pos]? = some (key a)) :
    touch key n a l = a :: l.eraseIdx pos := by
  have hlt : pos < l.length := by
    obtain ⟨h,-⟩ := List.getElem?_eq_some_iff.mp hpos
    simpa using h
  rw [touch,filter_eq_eraseIdx hl hpos]
  apply List.take_of_length_le
  rw [List.length_cons,List.length_eraseIdx_of_lt hlt]
  omega

/-- A new key takes the front, and the oldest entry leaves a full table. -/
theorem touch_new {key : α → κ} {n : Nat} {a : α} {l : List α} (h : key a ∉ l.map key) :
    touch key n a l = (a :: l).take n := by
  rw [touch,filter_eq_self_of_notMem h]

/-- Using a key that is already there changes the answer for that key only. -/
theorem touch_known_find? {key : α → κ} {n : Nat} {a : α} {l : List α} (hl : (l.map key).Nodup)
    (hn : l.length ≤ n) (ha : key a ∈ l.map key) (k : κ) :
    (touch key n a l).find? (fun b => key b = k) =
      if key a = k then some a else l.find? (fun b => key b = k) := by
  obtain ⟨pos,hpos⟩ := List.getElem?_of_mem ha
  have htouch : touch key n a l = a :: l.filter (fun b => key b ≠ key a) := by
    rw [touch_known hl hn hpos,filter_eq_eraseIdx hl hpos]
  rw [htouch]
  by_cases h : key a = k
  · rw [if_pos h,List.find?_cons_of_pos (by simpa using h)]
  · rw [if_neg h,List.find?_cons_of_neg (by simpa using h),List.find?_filter]
    congr 1
    funext b
    by_cases hb : key b = k
    · subst hb
      simp [Ne.symm h]
    · simp [hb]

theorem touch_known_keys {key : α → κ} {n : Nat} {a : α} {l : List α} (hl : (l.map key).Nodup)
    (hn : l.length ≤ n) (ha : key a ∈ l.map key) {k : κ} (hk : k ∈ l.map key) :
    k ∈ (touch key n a l).map key := by
  have hfind := touch_known_find? hl hn ha k
  have hsome : ((touch key n a l).find? (fun b => key b = k)).isSome := by
    rw [hfind]
    split
    · rfl
    · obtain ⟨b,hb,rfl⟩ := List.mem_map.1 hk
      exact List.find?_isSome.2 ⟨b,hb,by simp⟩
  obtain ⟨b,hb,heq⟩ := List.find?_isSome.1 hsome
  exact List.mem_map.2 ⟨b,hb,by simpa using heq⟩

private theorem find?_take_filter {p q : α → Bool} {l : List α} {k : Nat} {x : α} (hpq : ∀ b, q b → p b)
    (h : (l.take k).find? q = some x) : ((l.filter p).take k).find? q = some x := by
  have hsplit : l.filter p = (l.take k).filter p ++ (l.drop k).filter p := by
    rw [← List.filter_append,List.take_append_drop]
  have hle : ((l.take k).filter p).length ≤ k :=
    Nat.le_trans (List.length_filter_le _ _) (List.length_take_le _ _)
  rw [hsplit,List.take_append,List.take_of_length_le hle,List.find?_append,List.find?_filter]
  have hsame : (l.take k).find? (fun b => decide (p b = true ∧ q b = true)) = (l.take k).find? q := by
    congr 1
    funext b
    by_cases hb : q b = true
    · simp [hb,hpq b hb]
    · simp [hb]
  rw [hsame,h]
  rfl

/-- The newest entries are never pushed out by each other. -/
theorem find?_take_recent (key : α → κ) {n : Nat} (new hist : List α) (hn : new.length ≤ n) (k : κ) {x : α}
    (h : new.find? (fun b => key b = k) = some x) :
    ((recent key (new ++ hist)).take n).find? (fun b => key b = k) = some x := by
  induction new generalizing n with
  | nil => simp at h
  | cons a new ih =>
    obtain ⟨n,rfl⟩ : ∃ j, n = j + 1 := ⟨n - 1,by rw [List.length_cons] at hn; omega⟩
    rw [List.cons_append,recent,List.take_succ_cons]
    by_cases ha : key a = k
    · rw [List.find?_cons_of_pos (by simpa using ha)] at h ⊢
      exact h
    · rw [List.find?_cons_of_neg (by simpa using ha)] at h ⊢
      refine find?_take_filter (fun b hb => ?_) (ih (by rw [List.length_cons] at hn; omega) h)
      have hb' : key b = k := by simpa using hb
      simpa [hb'] using Ne.symm ha

end MfskCore.Library
