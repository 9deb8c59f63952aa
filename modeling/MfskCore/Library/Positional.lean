import Mathlib.Algebra.Group.Nat.Defs
import Mathlib.Data.List.Basic
import Mathlib.Data.Nat.Bits

/-! Positional notation in a buffer: a run of cells written one by one, and a number read back
from its bits, most significant first. -/
namespace MfskCore.Library
variable {α : Type*}

theorem length_foldl_set (f : Nat → α) (start : Nat) (ks : List Nat) (l : List α) :
    (ks.foldl (fun m i => m.set (start + i) (f i)) l).length = l.length := by
  induction ks generalizing l with
  | nil => rfl
  | cons i ks ih => rw [List.foldl_cons,ih,List.length_set]

/-- A run of writes changes the cells it covers and no others. -/
theorem getElem?_foldl_set (f : Nat → α) (start k : Nat) (l : List α) (j : Nat) :
    ((List.range k).foldl (fun m i => m.set (start + i) (f i)) l)[j]? =
      if start ≤ j ∧ j < start + k ∧ j < l.length then some (f (j - start)) else l[j]? := by
  induction k with
  | zero =>
    have hempty : ¬(start ≤ j ∧ j < start + 0 ∧ j < l.length) := by omega
    rw [if_neg hempty]
    rfl
  | succ k ih =>
    rw [List.range_succ,List.foldl_append,List.foldl_cons,List.foldl_nil,List.getElem?_set,ih,
      length_foldl_set]
    by_cases hj : start + k = j
    · by_cases hl : j < l.length
      · have hin : start ≤ j ∧ j < start + (k + 1) ∧ j < l.length := by omega
        have hk : j - start = k := by omega
        rw [if_pos hj,if_pos (by omega),if_pos hin,hk]
      · have hout : ¬(start ≤ j ∧ j < start + (k + 1) ∧ j < l.length) := by omega
        rw [if_pos hj,if_neg (by omega),if_neg hout,List.getElem?_eq_none (by omega)]
    · have hiff : (start ≤ j ∧ j < start + k ∧ j < l.length) ↔
          (start ≤ j ∧ j < start + (k + 1) ∧ j < l.length) := by omega
      rw [if_neg hj,if_congr hiff rfl rfl]

/-- `for i in 0..n`, write `f i` to cell `idx i`. -/
def scatterTo (n : Nat) (idx : Nat → Nat) (f : Nat → α) (buf : List α) : List α :=
  (List.range n).foldl (fun b i => b.set (idx i) (f i)) buf

@[simp] theorem length_scatterTo (n : Nat) (idx : Nat → Nat) (f : Nat → α) (buf : List α) :
    (scatterTo n idx f buf).length = buf.length := by
  unfold scatterTo
  induction n with
  | zero => rfl
  | succ n ih => rw [List.range_succ,List.foldl_append,List.foldl_cons,List.foldl_nil,List.length_set,ih]

/-- A cell addressed once keeps what was written. -/
theorem getElem?_scatterTo {n : Nat} (idx : Nat → Nat) (f : Nat → α) (buf : List α) {c : Nat}
    (hinj : ∀ a < n, ∀ b < n, idx a = idx b → a = b) (hc : c < n) (hlength : idx c < buf.length) :
    (scatterTo n idx f buf)[idx c]? = some (f c) := by
  induction n with
  | zero => omega
  | succ n ih =>
    have hsplit : scatterTo (n + 1) idx f buf = (scatterTo n idx f buf).set (idx n) (f n) := by
      rw [scatterTo,List.range_succ,List.foldl_append,List.foldl_cons,List.foldl_nil,scatterTo]
    rw [hsplit,List.getElem?_set,length_scatterTo]
    rcases Nat.lt_succ_iff_lt_or_eq.mp hc with hlt | rfl
    · have hne : idx n ≠ idx c := fun h => by
        have heq := hinj n (Nat.lt_succ_self n) c hc h
        omega
      rw [if_neg hne]
      exact ih (fun a ha b hb => hinj a (by omega) b (by omega)) hlt
    · rw [if_pos rfl,if_pos hlength]

/-- `for i in 0..n`, write `f i` to cell `i`. -/
def fill (n : Nat) (f : Nat → α) (buf : List α) : List α :=
  (List.range n).foldl (fun b i => b.set i (f i)) buf

/-- `for j in 0..m`, `for i in 0..w j`, write `f j i` to cell `j * stride + i`. -/
def fillRows (m stride : Nat) (w : Nat → Nat) (f : Nat → Nat → α) (buf : List α) : List α :=
  (List.range m).foldl (fun b j => (List.range (w j)).foldl (fun b i => b.set (j * stride + i) (f j i)) b) buf

@[simp] theorem length_fill (n : Nat) (f : Nat → α) (buf : List α) : (fill n f buf).length = buf.length := by
  have h := length_foldl_set f 0 (List.range n) buf
  simpa [fill] using h

@[simp] theorem length_fillRows (m stride : Nat) (w : Nat → Nat) (f : Nat → Nat → α) (buf : List α) :
    (fillRows m stride w f buf).length = buf.length := by
  unfold fillRows
  induction List.range m generalizing buf with
  | nil => rfl
  | cons j ks ih => rw [List.foldl_cons,ih,length_foldl_set]

/-- A run of writes from the start leaves the rest of the buffer. -/
theorem fill_eq_append {n : Nat} (f : Nat → α) {buf : List α} (h : n ≤ buf.length) :
    fill n f buf = (List.range n).map f ++ buf.drop n := by
  apply List.ext_getElem?
  intro j
  have hget := getElem?_foldl_set f 0 n buf j
  simp only [Nat.zero_add,Nat.zero_le,true_and,Nat.sub_zero] at hget
  rw [fill,hget]
  by_cases hj : j < n
  · rw [if_pos ⟨hj,Nat.lt_of_lt_of_le hj h⟩,List.getElem?_append_left (by simpa using hj),List.getElem?_map,List.getElem?_range hj]
    rfl
  · rw [if_neg fun hn => hj hn.1,List.getElem?_append_right (by simpa using hj),List.getElem?_drop,List.length_map,
      List.length_range,Nat.add_sub_cancel' (Nat.not_lt.1 hj)]

/-- A buffer written from end to end keeps nothing of what it held. -/
theorem fill_eq_map {n : Nat} (f : Nat → α) {buf : List α} (h : buf.length = n) :
    fill n f buf = (List.range n).map f := by
  apply List.ext_getElem?
  intro j
  have hget := getElem?_foldl_set f 0 n buf j
  simp only [Nat.zero_add,Nat.zero_le,true_and,Nat.sub_zero] at hget
  rw [fill,hget,List.getElem?_map]
  by_cases hj : j < n
  · rw [if_pos ⟨hj,h ▸ hj⟩,List.getElem?_range hj]
    rfl
  · rw [if_neg (fun hn => hj hn.1),List.getElem?_eq_none (by omega),List.getElem?_eq_none (by simpa using hj)]
    rfl

/-- A cell written in its row keeps what was written when the rows do not overlap. -/
theorem getElem?_fillRows {m stride : Nat} {w : Nat → Nat} (f : Nat → Nat → α) {buf : List α} {j i : Nat}
    (hw : ∀ j < m, w j ≤ stride) (hj : j < m) (hi : i < w j) (hlength : m * stride ≤ buf.length) :
    (fillRows m stride w f buf)[j * stride + i]? = some (f j i) := by
  induction m with
  | zero => omega
  | succ m ih =>
    have hwidth := hw j hj
    have hnext : (m + 1) * stride = m * stride + stride := Nat.succ_mul m stride
    have hsplit : fillRows (m + 1) stride w f buf =
        (List.range (w m)).foldl (fun b i => b.set (m * stride + i) (f m i)) (fillRows m stride w f buf) := by
      rw [fillRows,List.range_succ,List.foldl_append,List.foldl_cons,List.foldl_nil,fillRows]
    rw [hsplit,getElem?_foldl_set,length_fillRows]
    rcases Nat.lt_succ_iff_lt_or_eq.mp hj with hlt | rfl
    · have hrow : (j + 1) * stride ≤ m * stride := Nat.mul_le_mul_right stride hlt
      rw [Nat.succ_mul] at hrow
      rw [if_neg (by omega)]
      exact ih (fun j hj => hw j (by omega)) hlt (by omega)
    · rw [if_pos (by omega),Nat.add_sub_cancel_left]

/-- Reading `len` consecutive bits of `val`, most significant first, gives `val` modulo `2^len`. -/
theorem foldl_bits (b : Nat → Nat) (val start len : Nat)
    (h : ∀ i < len, b (start + i) = (val >>> (len - 1 - i)) % 2) :
    (List.range' start len).foldl (fun n i => 2 * n + b i) 0 = val % 2^len := by
  have haux : ∀ k ≤ len, (List.range' start k).foldl (fun n i => 2 * n + b i) 0 =
      (val >>> (len - k)) % 2^k := by
    intro k
    induction k with
    | zero =>
      intro _
      simp [Nat.mod_one]
    | succ k ih =>
      intro hk
      have hs : len - k = (len - (k + 1)) + 1 := by omega
      have hi : len - 1 - k = len - (k + 1) := by omega
      rw [List.range'_concat,List.foldl_append,ih (by omega),List.foldl_cons,List.foldl_nil,Nat.one_mul,
        h k (by omega),hi,hs,Nat.shiftRight_succ,Nat.pow_succ']
      rw [Nat.mod_mul,Nat.add_comm]
  have hfull := haux len (Nat.le_refl len)
  rwa [Nat.sub_self,Nat.shiftRight_zero] at hfull

/-- Bits put beside a multiple of a higher power are added to it. -/
theorem or_eq_add {a b : Nat} (k : Nat) (ha : 2^k ∣ a) (hb : b < 2^k) : a ||| b = a + b := by
  obtain ⟨c,rfl⟩ := ha
  have h := Nat.shiftLeft_add_eq_or_of_lt hb c
  rw [Nat.shiftLeft_eq,Nat.mul_comm] at h
  exact h.symm

end MfskCore.Library
