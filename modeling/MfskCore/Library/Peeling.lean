import Mathlib.Data.Finset.Card
import Mathlib.Order.Interval.Finset.Nat

/-! Peeling of erasures on a graph of variables and checks: in each round a variable becomes known when one of its
checks has no other unknown variable. -/
namespace MfskCore.Library
variable {V C : Type*} [DecidableEq V] (checks : V → List C) (members : C → List V) (known : V → Bool)

/-- Whether a variable is known after a number of rounds. -/
def peel : Nat → V → Bool
  | 0, v => known v
  | k + 1, v => peel k v || (checks v).any fun c => (members c).all fun u => u = v || peel k u

/-- The round a variable becomes known in, or a mark if that is after the last round. -/
def peelLevel (mark : Nat) : Nat → V → Nat
  | 0, v => if known v then 0 else mark
  | k + 1, v =>
    if peel checks members known k v then peelLevel mark k v
    else if peel checks members known (k + 1) v then k + 1 else mark

/-- The first round after which a variable is known. -/
def FirstRound (k : Nat) (v : V) : Prop :=
  peel checks members known k v = true ∧ ∀ j < k, peel checks members known j v = false

variable {checks members known} {v : V} {k : Nat}

theorem peel_succ_of_peel (h : peel checks members known k v = true) : peel checks members known (k + 1) v = true := by
  rw [peel,h,Bool.true_or]

theorem peel_mono {j : Nat} (hjk : j ≤ k) (h : peel checks members known j v = true) :
    peel checks members known k v = true := by
  induction hjk with
  | refl => exact h
  | step _ ih => exact peel_succ_of_peel ih

theorem firstRound_succ_iff : FirstRound checks members known (k + 1) v ↔
    peel checks members known (k + 1) v = true ∧ peel checks members known k v = false := by
  refine ⟨fun h => ⟨h.1,h.2 k (Nat.lt_succ_self k)⟩,fun h => ⟨h.1,fun j hj => eq_false_of_ne_true fun hp => ?_⟩⟩
  exact Bool.false_ne_true (h.2.symm.trans (peel_mono (Nat.lt_succ_iff.1 hj) hp))

theorem FirstRound.eq {j : Nat} (hj : FirstRound checks members known j v) (hk : FirstRound checks members known k v) :
    j = k := by
  rcases Nat.lt_trichotomy j k with h | h | h
  · exact absurd hj.1 (Bool.eq_false_iff.1 (hk.2 j h))
  · exact h
  · exact absurd hk.1 (Bool.eq_false_iff.1 (hj.2 k h))

theorem peelLevel_of_not_peel (mark : Nat) (h : peel checks members known k v = false) :
    peelLevel checks members known mark k v = mark := by
  cases k with
  | zero => exact if_neg (Bool.eq_false_iff.1 h)
  | succ k =>
    have hk : ¬peel checks members known k v = true := fun hk => Bool.eq_false_iff.1 h (peel_succ_of_peel hk)
    rw [peelLevel,if_neg hk,if_neg (Bool.eq_false_iff.1 h)]

/-- The level of a variable that is known is its first round. -/
theorem peelLevel_spec (mark : Nat) (h : peel checks members known k v = true) :
    peelLevel checks members known mark k v ≤ k ∧
      FirstRound checks members known (peelLevel checks members known mark k v) v := by
  induction k with
  | zero =>
    have hlevel : peelLevel checks members known mark 0 v = 0 := if_pos h
    rw [hlevel]
    exact ⟨Nat.le_refl 0,h,fun j hj => absurd hj (Nat.not_lt_zero j)⟩
  | succ k ih =>
    rw [peelLevel]
    split
    · rename_i hk
      exact ⟨Nat.le_succ_of_le (ih hk).1,(ih hk).2⟩
    · rename_i hk
      exact ⟨Nat.le_refl _,firstRound_succ_iff.2 ⟨h,eq_false_of_ne_true hk⟩⟩

theorem peelLevel_eq_iff {mark j : Nat} (hj : j ≤ k) (hmark : j ≠ mark) :
    peelLevel checks members known mark k v = j ↔ FirstRound checks members known j v := by
  by_cases h : peel checks members known k v = true
  · have hfirst := (peelLevel_spec mark h).2
    exact ⟨fun heq => heq ▸ hfirst,fun hj => hfirst.eq hj⟩
  · rw [peelLevel_of_not_peel mark (eq_false_of_ne_true h)]
    exact iff_of_false hmark.symm fun hfirst => h (peel_mono hj hfirst.1)

/-- A variable of a later round has a neighbour of the round before. -/
theorem FirstRound.exists_before (hfirst : FirstRound checks members known (k + 2) v) :
    ∃ c ∈ checks v, ∃ u ∈ members c, FirstRound checks members known (k + 1) u := by
  obtain ⟨hnow,hbefore⟩ := firstRound_succ_iff.1 hfirst
  rw [peel,hbefore,Bool.false_or,List.any_eq_true] at hnow
  obtain ⟨c,hc,hall⟩ := hnow
  rw [peel,Bool.or_eq_false_iff,List.any_eq_false] at hbefore
  have hlate := hbefore.2 c hc
  rw [List.all_eq_true] at hall hlate
  push Not at hlate
  obtain ⟨u,hu,hunknown⟩ := hlate
  have hnow := hall u hu
  rw [Bool.or_eq_true] at hnow
  rw [ne_eq,Bool.or_eq_true] at hunknown
  exact ⟨c,hc,u,hu,firstRound_succ_iff.2 ⟨hnow.resolve_left fun h => hunknown (Or.inl h),
    eq_false_of_ne_true fun h => hunknown (Or.inr h)⟩⟩

/-- No round comes later than there are variables. -/
theorem FirstRound.le_card {s : Finset V} (hclosed : ∀ u ∈ s, ∀ c ∈ checks u, ∀ w ∈ members c, w ∈ s) (hv : v ∈ s)
    (hfirst : FirstRound checks members known k v) : k ≤ s.card := by
  have hearlier : ∀ m j, 1 ≤ j → j + m = k → ∃ u ∈ s, FirstRound checks members known j u := by
    intro m
    induction m with
    | zero => rintro j - rfl; exact ⟨v,hv,hfirst⟩
    | succ m ih =>
      intro j hj hk
      obtain ⟨u,hu,hround⟩ := ih (j + 1) (Nat.le_succ_of_le hj) (by omega)
      obtain ⟨i,rfl⟩ := Nat.exists_eq_add_of_le' hj
      obtain ⟨c,hc,w,hw,hbefore⟩ := hround.exists_before
      exact ⟨w,hclosed u hu c hc w hw,hbefore⟩
  have : Nonempty V := ⟨v⟩
  choose! pick hpick hround using fun j (hj : 1 ≤ j ∧ j ≤ k) => hearlier (k - j) j hj.1 (by omega)
  have hcard := Finset.card_le_card_of_injOn (s := Finset.Icc 1 k) (t := s) pick
    (fun j hj => hpick j (Finset.mem_Icc.1 hj)) fun i hi j hj hij =>
      (hround i (Finset.mem_Icc.1 hi)).eq (hij ▸ hround j (Finset.mem_Icc.1 hj))
  rwa [Nat.card_Icc,Nat.add_sub_cancel] at hcard

end MfskCore.Library
