import Mathlib.Data.List.GetD
import Mathlib.Data.List.Nodup
import Mathlib.Data.Nat.ModEq
import Mathlib.Logic.Equiv.Basic

/-! A matrix of `n` columns kept row by row in one list: entry `(i,c)` is cell `i * n + c`. Loops
over the columns that exchange two rows, or combine one row into another, in place. -/
namespace MfskCore.Library

theorem rowMajor_inj {n i j c e : Nat} (hc : c < n) (he : e < n) : i * n + c = j * n + e ↔ i = j ∧ c = e := by
  constructor
  · intro h
    have hdiv : ∀ {a b : Nat}, b < n → (a * n + b) / n = a := by
      intro a b hb
      rw [Nat.mul_comm,Nat.mul_add_div (Nat.zero_lt_of_lt hb),Nat.div_eq_of_lt hb,Nat.add_zero]
    have hij : i = j := (hdiv hc).symm.trans ((congrArg (· / n) h).trans (hdiv he))
    subst hij
    exact ⟨rfl,Nat.add_left_cancel h⟩
  · rintro ⟨rfl,rfl⟩
    rfl

theorem rowMajor_lt {n k i c : Nat} (hi : i < k) (hc : c < n) : i * n + c < k * n := by
  have hrow : (i + 1) * n ≤ k * n := Nat.mul_le_mul_right n hi
  rw [Nat.succ_mul] at hrow
  omega

theorem getD_map_range {β : Type*} (f : Nat → β) {n i : Nat} (d : β) (h : i < n) :
    ((List.range n).map f).getD i d = f i := by
  rw [List.getD_eq_getElem _ _ (by rwa [List.length_map,List.length_range]),List.getElem_map,List.getElem_range]

/-- Listing a matrix row by row. -/
theorem map_range_mul {β : Type*} (f : Nat → β) (k n : Nat) :
    (List.range (k * n)).map f = (List.range k).flatMap fun i => (List.range n).map fun c => f (i * n + c) := by
  induction k with
  | zero => rw [Nat.zero_mul]; rfl
  | succ k ih =>
    rw [Nat.succ_mul,List.range_add,List.map_append,ih,List.range_succ,List.flatMap_append,List.flatMap_singleton,
      List.map_map]
    rfl

theorem length_flatMap_range {β : Type*} {f : Nat → List β} {n m : Nat} (hf : ∀ i < n, (f i).length = m) :
    ((List.range n).flatMap f).length = n * m := by
  induction n with
  | zero => rw [Nat.zero_mul]; rfl
  | succ n ih =>
    rw [List.range_succ,List.flatMap_append,List.length_append,ih fun i hi => hf i (Nat.lt_succ_of_lt hi),
      List.flatMap_singleton,hf n (Nat.lt_succ_self n),Nat.succ_mul]

/-- A row of a matrix that is written row by row. -/
theorem take_drop_flatMap {β : Type*} {f : Nat → List β} {n m k : Nat} (hf : ∀ i < n, (f i).length = m) (hk : k < n) :
    (((List.range n).flatMap f).drop (k * m)).take m = f k := by
  induction n with
  | zero => exact absurd hk (Nat.not_lt_zero k)
  | succ n ih =>
    have hlen := length_flatMap_range fun i (hi : i < n) => hf i (Nat.lt_succ_of_lt hi)
    rw [List.range_succ,List.flatMap_append,List.flatMap_singleton]
    rcases Nat.lt_succ_iff_lt_or_eq.1 hk with hlt | rfl
    · have hrow : (k + 1) * m ≤ n * m := Nat.mul_le_mul_right m hlt
      rw [Nat.succ_mul] at hrow
      rw [List.drop_append_of_le_length (by omega),List.take_append_of_le_length (by rw [List.length_drop]; omega)]
      exact ih (fun i hi => hf i (Nat.lt_succ_of_lt hi)) hlt
    · rw [List.drop_left' hlen,← hf k (Nat.lt_succ_self k),List.take_length]

/-- The cell that column-by-column reading of an `n` by `m` matrix takes at place `k`. -/
def transposeCell (n m k : Nat) : Nat := k % n * m + k / n

theorem transposeCell_lt {n m k : Nat} (hk : k < n * m) : transposeCell n m k < n * m := by
  have hn : 0 < n := Nat.pos_of_ne_zero fun h => by simp [h] at hk
  exact rowMajor_lt (Nat.mod_lt k hn) (Nat.div_lt_of_lt_mul hk)

theorem transposeCell_mod {n m k : Nat} (hk : k < n * m) : transposeCell n m k % m = k / n := by
  rw [transposeCell,Nat.mul_comm,Nat.mul_add_mod,Nat.mod_eq_of_lt (Nat.div_lt_of_lt_mul hk)]

theorem transposeCell_div {n m k : Nat} (hk : k < n * m) : transposeCell n m k / m = k % n := by
  have hcol : k / n < m := Nat.div_lt_of_lt_mul hk
  rw [transposeCell,Nat.mul_comm,Nat.mul_add_div (Nat.zero_lt_of_lt hcol),Nat.div_eq_of_lt hcol,Nat.add_zero]

/-- Reading the columns of the transposed matrix undoes it. -/
theorem transposeCell_transposeCell {n m k : Nat} (hk : k < n * m) :
    transposeCell m n (transposeCell n m k) = k := by
  rw [transposeCell.eq_def m n,transposeCell_mod hk,transposeCell_div hk,Nat.mul_comm,Nat.div_add_mod]

/-- In one round of residues each of them comes up at most once. -/
private theorem countP_round_le_one {n len : Nat} (r start : Nat) (hlen : len ≤ n) :
    (List.range' start len).countP (fun k => k % n = r) ≤ 1 := by
  rw [List.countP_eq_length_filter]
  have hmem (k : Nat) : k ∈ (List.range' start len).filter (fun k => k % n = r) →
      start ≤ k ∧ k < start + len ∧ k % n = r := by
    simp [List.mem_range'_1,and_assoc]
  have hnodup := (List.nodup_range' (s := start) (n := len)).filter fun k => decide (k % n = r)
  match hl : (List.range' start len).filter (fun k => k % n = r) with
  | [] => exact Nat.zero_le 1
  | [_] => exact Nat.le_refl 1
  | a :: b :: rest =>
    rw [hl] at hmem hnodup
    obtain ⟨ha1,ha2,har⟩ := hmem a (by simp)
    obtain ⟨hb1,hb2,hbr⟩ := hmem b (by simp)
    have hne : a ≠ b := fun h => (List.nodup_cons.1 hnodup).1 (h ▸ List.mem_cons_self)
    have hclose : |(b : Int) - a| < n := by
      rw [abs_lt]
      omega
    exact absurd (Nat.ModEq.eq_of_abs_lt (har.trans hbr.symm) hclose) hne

/-- Places of one residue in a window of at most `q` rounds. -/
theorem countP_window_mod_le {n q len : Nat} (r start : Nat) (hlen : len ≤ q * n) :
    (List.range' start len).countP (fun k => k % n = r) ≤ q := by
  induction q generalizing start len with
  | zero =>
    rw [Nat.zero_mul,Nat.le_zero] at hlen
    rw [hlen]
    exact Nat.le_refl 0
  | succ q ih =>
    have hsplit : List.range' start len =
        List.range' start (min n len) ++ List.range' (start + min n len) (len - min n len) := by
      rw [List.range'_append_1]
      congr 1
      omega
    rw [hsplit,List.countP_append,Nat.add_comm q]
    rw [Nat.succ_mul] at hlen
    exact Nat.add_le_add (countP_round_le_one r start (Nat.min_le_left n len)) (ih _ (by omega))

section
variable {α : Type*} (d : α)

/-- `g.swap(x, y)`. -/
def swapCells (g : List α) (x y : Nat) : List α := (g.set x (g.getD y d)).set y (g.getD x d)

/-- The exchange of two rows, cell by cell over the first `m` columns. -/
def swapRowCells (n a b m : Nat) (g : List α) : List α :=
  (List.range m).foldl (fun g c => swapCells d g (a * n + c) (b * n + c)) g

/-- Row `p` combined into row `t`, cell by cell over the first `m` columns. -/
def combineRow (f : α → α → α) (n t p m : Nat) (g : List α) : List α :=
  (List.range m).foldl (fun g c => g.set (t * n + c) (f (g.getD (t * n + c) d) (g.getD (p * n + c) d))) g

variable {d}

theorem getD_set {g : List α} {x : Nat} (hx : x < g.length) (a : α) (y : Nat) :
    (g.set x a).getD y d = if x = y then a else g.getD y d := by
  rw [List.getD_eq_getElem?_getD,List.getElem?_set]
  by_cases h : x = y
  · rw [if_pos h,if_pos h,if_pos hx]
    rfl
  · rw [if_neg h,if_neg h,List.getD_eq_getElem?_getD]

theorem length_swapCells (g : List α) (x y : Nat) : (swapCells d g x y).length = g.length := by
  rw [swapCells,List.length_set,List.length_set]

theorem getD_swapCells {g : List α} {x y : Nat} (hx : x < g.length) (hy : y < g.length) (z : Nat) :
    (swapCells d g x y).getD z d = g.getD (Equiv.swap x y z) d := by
  rw [swapCells,getD_set (by rwa [List.length_set]),getD_set hx,Equiv.swap_apply_def]
  by_cases hzy : z = y
  · subst hzy
    by_cases hzx : z = x
    · rw [if_pos rfl,if_pos hzx,hzx]
    · rw [if_pos rfl,if_neg hzx,if_pos rfl]
  · rw [if_neg (Ne.symm hzy)]
    by_cases hzx : z = x
    · rw [if_pos hzx.symm,if_pos hzx]
    · rw [if_neg (Ne.symm hzx),if_neg hzx,if_neg hzy]

variable {n k : Nat} {g : List α}

theorem length_swapRowCells (n a b m : Nat) (g : List α) : (swapRowCells d n a b m g).length = g.length := by
  induction m with
  | zero => rfl
  | succ m ih => rw [swapRowCells,List.range_succ,List.foldl_append,← swapRowCells,List.foldl_cons,List.foldl_nil,
      length_swapCells,ih]

/-- The first `m` columns are exchanged, the others wait. -/
theorem getD_swapRowCells {a b m : Nat} (hlen : g.length = k * n) (ha : a < k) (hb : b < k) (hm : m ≤ n) {i c : Nat}
    (hc : c < n) : (swapRowCells d n a b m g).getD (i * n + c) d =
      g.getD ((if c < m then Equiv.swap a b i else i) * n + c) d := by
  induction m generalizing i c with
  | zero => rw [if_neg (Nat.not_lt_zero c)]; rfl
  | succ m ih =>
    have hlt : ∀ {r : Nat}, r < k → r * n + m < (swapRowCells d n a b m g).length := by
      intro r hr
      rw [length_swapRowCells,hlen]
      exact rowMajor_lt hr hm
    have hstep : swapRowCells d n a b (m + 1) g = swapCells d (swapRowCells d n a b m g) (a * n + m) (b * n + m) := by
      rw [swapRowCells,List.range_succ,List.foldl_append]
      rfl
    rw [hstep,getD_swapCells (hlt ha) (hlt hb),Equiv.swap_apply_def]
    simp only [rowMajor_inj hc hm]
    by_cases hcm : c = m
    · subst hcm
      simp only [and_true,Nat.lt_succ_self,if_true]
      rw [Equiv.swap_apply_def]
      split
      · rw [ih (Nat.le_of_lt hm) hm,if_neg (Nat.lt_irrefl c)]
      · split
        · rw [ih (Nat.le_of_lt hm) hm,if_neg (Nat.lt_irrefl c)]
        · rw [ih (Nat.le_of_lt hm) hm,if_neg (Nat.lt_irrefl c)]
    · have hiff : c < m + 1 ↔ c < m := by omega
      simp only [hcm,and_false,if_false,hiff]
      exact ih (Nat.le_of_lt hm) hc

theorem length_combineRow (f : α → α → α) (n t p m : Nat) (g : List α) :
    (combineRow d f n t p m g).length = g.length := by
  induction m with
  | zero => rfl
  | succ m ih => rw [combineRow,List.range_succ,List.foldl_append,← combineRow,List.foldl_cons,List.foldl_nil,
      List.length_set,ih]

/-- The first `m` columns of row `t` are combined, the others wait. -/
theorem getD_combineRow (f : α → α → α) {t p m : Nat} (hlen : g.length = k * n) (ht : t < k) (hm : m ≤ n)
    {i c : Nat} (hc : c < n) : (combineRow d f n t p m g).getD (i * n + c) d =
      if i = t ∧ c < m then f (g.getD (t * n + c) d) (g.getD (p * n + c) d) else g.getD (i * n + c) d := by
  induction m generalizing i c with
  | zero => rw [if_neg fun h => Nat.not_lt_zero c h.2]; rfl
  | succ m ih =>
    have hin : t * n + m < (combineRow d f n t p m g).length := by
      rw [length_combineRow,hlen]
      exact rowMajor_lt ht hm
    have hstep : combineRow d f n t p (m + 1) g = (combineRow d f n t p m g).set (t * n + m)
        (f ((combineRow d f n t p m g).getD (t * n + m) d) ((combineRow d f n t p m g).getD (p * n + m) d)) := by
      rw [combineRow,List.range_succ,List.foldl_append]
      rfl
    have htarget : (combineRow d f n t p m g).getD (t * n + m) d = g.getD (t * n + m) d := by
      rw [ih (Nat.le_of_lt hm) hm,if_neg fun h => Nat.lt_irrefl m h.2]
    have hsource : (combineRow d f n t p m g).getD (p * n + m) d = g.getD (p * n + m) d := by
      rw [ih (Nat.le_of_lt hm) hm,if_neg fun h => Nat.lt_irrefl m h.2]
    rw [hstep,getD_set hin,htarget,hsource,ih (Nat.le_of_lt hm) hc]
    simp only [rowMajor_inj hm hc]
    by_cases hcm : m = c
    · subst hcm
      by_cases hit : t = i
      · subst hit
        rw [if_pos ⟨rfl,rfl⟩,if_pos ⟨rfl,Nat.lt_succ_self m⟩]
      · rw [if_neg fun h => hit h.1,if_neg fun h => hit h.1.symm,if_neg fun h => hit h.1.symm]
    · have hiff : c < m + 1 ↔ c < m := by omega
      rw [if_neg fun h => hcm h.2]
      simp only [hiff]

end
end MfskCore.Library
