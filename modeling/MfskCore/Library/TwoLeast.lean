import Mathlib.Data.List.Basic
import Mathlib.Order.Lattice
import Mathlib.Order.MinMax

/-! The least entry of a sequence without one of its slots, for every slot, from a single pass that keeps
the two least entries and the slot of the least. -/
namespace MfskCore.Library
variable {α : Type*} [LinearOrder α]

/-- The two least entries so far, and the slot of the least. -/
structure TwoLeast (α : Type*) where
  least : α
  second : α
  slot : Nat

/-- The next entry, at slot `s`. Only a strictly smaller one displaces what is kept. -/
def TwoLeast.push (c : TwoLeast α) (s : Nat) (x : α) : TwoLeast α :=
  if x < c.least then ⟨x,c.least,s⟩ else if x < c.second then ⟨c.least,x,c.slot⟩ else c

/-- The entry that stands for the least of the others. -/
def TwoLeast.without (c : TwoLeast α) (s : Nat) : α := if s = c.slot then c.second else c.least

/-- The pass over the first `n` entries, from a sentinel. -/
def twoLeast (top : α) (v : Nat → α) (n : Nat) : TwoLeast α :=
  (List.range n).foldl (fun c s => c.push s (v s)) ⟨top,top,0⟩

theorem twoLeast_succ (top : α) (v : Nat → α) (n : Nat) :
    twoLeast top v (n + 1) = (twoLeast top v n).push n (v n) := by
  simp [twoLeast,List.range_succ]

/-- The least entry of the slots, or the sentinel when they are none. -/
def leastOf (top : α) (v : Nat → α) (slots : List Nat) : α := (slots.map v).foldr min top

/-- The slots below `n` but one. -/
def otherSlots (n s : Nat) : List Nat := (List.range n).eraseIdx s

theorem leastOf_append (top : α) (v : Nat → α) (slots : List Nat) (s : Nat) :
    leastOf top v (slots ++ [s]) = min (leastOf top v slots) (v s) := by
  unfold leastOf
  induction slots with
  | nil => simp [min_comm]
  | cons t slots ih => simpa [min_assoc] using congrArg (min (v t)) ih

theorem otherSlots_succ {n s : Nat} (h : s < n) : otherSlots (n + 1) s = otherSlots n s ++ [n] := by
  rw [otherSlots,List.range_succ,List.eraseIdx_append_of_lt_length (by simpa using h),otherSlots]

theorem otherSlots_last (n : Nat) : otherSlots (n + 1) n = List.range n := by
  rw [otherSlots,List.range_succ,List.eraseIdx_append_of_length_le (by simp)]
  simp

/-- What the pass keeps: the order of its two entries, and the least entry without each slot. Before the
first entry both are the sentinel. -/
private theorem twoLeast_invariant (top : α) (v : Nat → α) (n : Nat) :
    (twoLeast top v n).least = leastOf top v (List.range n) ∧
      (twoLeast top v n).least ≤ (twoLeast top v n).second ∧
      (n = 0 → (twoLeast top v n).least = (twoLeast top v n).second) ∧
      (twoLeast top v n).slot ≤ n - 1 ∧
      ∀ s < n, (twoLeast top v n).without s = leastOf top v (otherSlots n s) := by
  induction n with
  | zero => exact ⟨rfl,le_refl _,fun _ => rfl,le_refl _,fun s h => absurd h (by omega)⟩
  | succ n ih =>
    obtain ⟨hleast,horder,hempty,hslot,hwithout⟩ := ih
    rw [twoLeast_succ,List.range_succ,leastOf_append,← hleast]
    generalize twoLeast top v n = c at *
    have hothers : ∀ s < n, leastOf top v (otherSlots (n + 1) s) = min (c.without s) (v n) := by
      intro s hs
      rw [otherSlots_succ hs,leastOf_append,hwithout s hs]
    have hlast : leastOf top v (otherSlots (n + 1) n) = c.least := by
      rw [otherSlots_last,hleast]
    unfold TwoLeast.push
    by_cases hfirst : v n < c.least
    · rw [if_pos hfirst]
      refine ⟨(min_eq_right hfirst.le).symm,hfirst.le,fun h => absurd h (by omega),le_refl n,?_⟩
      intro s hs
      rcases Nat.lt_succ_iff_lt_or_eq.mp hs with hlt | rfl
      · have hle : v n ≤ c.without s := by
          unfold TwoLeast.without
          split
          · exact hfirst.le.trans horder
          · exact hfirst.le
        rw [hothers s hlt,min_eq_right hle]
        exact if_neg hlt.ne
      · rw [hlast]
        exact if_pos rfl
    · have hge : c.least ≤ v n := le_of_not_gt hfirst
      rw [if_neg hfirst,min_eq_left hge]
      by_cases hsecond : v n < c.second
      · have hpos : n ≠ 0 := fun hzero => hfirst (hempty hzero ▸ hsecond)
        rw [if_pos hsecond]
        refine ⟨rfl,hge,fun h => absurd h (by omega),by simp only; omega,?_⟩
        intro s hs
        rcases Nat.lt_succ_iff_lt_or_eq.mp hs with hlt | rfl
        · rw [hothers s hlt]
          unfold TwoLeast.without
          dsimp only
          split
          · exact (min_eq_right hsecond.le).symm
          · exact (min_eq_left hge).symm
        · rw [hlast]
          exact if_neg (by simp only; omega)
      · have hle : c.second ≤ v n := le_of_not_gt hsecond
        rw [if_neg hsecond]
        refine ⟨rfl,horder,fun h => absurd h (by omega),by omega,?_⟩
        intro s hs
        rcases Nat.lt_succ_iff_lt_or_eq.mp hs with hlt | rfl
        · rw [hothers s hlt,min_eq_left]
          unfold TwoLeast.without
          split
          · exact hle
          · exact hge
        · rw [hlast]
          unfold TwoLeast.without
          split
          · exact (hempty (by omega)).symm
          · rfl

/-- The pass gives the least of the others at every slot. -/
theorem twoLeast_without (top : α) (v : Nat → α) {n s : Nat} (h : s < n) :
    (twoLeast top v n).without s = leastOf top v (otherSlots n s) :=
  (twoLeast_invariant top v n).2.2.2.2 s h

/-- A sentinel that no entry exceeds does not show in a least entry. -/
theorem leastOf_eq_min? {top : α} {v : Nat → α} {slots : List Nat} (hne : slots ≠ [])
    (htop : ∀ s ∈ slots, v s ≤ top) : (slots.map v).min? = some (leastOf top v slots) := by
  induction slots with
  | nil => exact absurd rfl hne
  | cons s slots ih =>
    rcases slots with _ | ⟨t,slots⟩
    · simp [leastOf,min_eq_left (htop s (by simp))]
    · have htail := ih (by simp) fun u hu => htop u (by simp [hu])
      rw [List.map_cons,List.min?_cons,htail]
      rfl

end MfskCore.Library
