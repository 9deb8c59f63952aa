import Mathlib.Data.List.Induction
import Mathlib.Order.Lattice

/-! A search that keeps the first of the best candidates that pass a test. -/
namespace MfskCore.Library
variable {α K : Type*}

section Search
variable [LT K] [DecidableLT K] (ok : α → Bool) (score : α → K)

/-- A candidate replaces the best one only when it passes and scores strictly lower. -/
def keepBest (best : Option α) (a : α) : Option α :=
  if ok a then if best.all fun b => score a < score b then some a else best else best

/-- The search over a list of candidates. -/
def searchBest (l : List α) : Option α := l.foldl (keepBest ok score) none

theorem searchBest_append (l : List α) (a : α) :
    searchBest ok score (l ++ [a]) = keepBest ok score (searchBest ok score l) a := by
  simp [searchBest]

/-- Something is found exactly when a candidate passes, and what is found passes. -/
theorem searchBest_eq_none (l : List α) : searchBest ok score l = none ↔ ∀ a ∈ l, ok a = false := by
  induction l using List.reverseRecOn with
  | nil => simp [searchBest]
  | append_singleton l a ih =>
    rw [searchBest_append,keepBest]
    by_cases ha : ok a
    · rw [if_pos ha]
      have hnot : ¬∀ b ∈ l ++ [a], ok b = false := fun h => by simp [h a] at ha
      refine iff_of_false ?_ hnot
      split
      · simp
      · rename_i hkept
        cases hbest : searchBest ok score l with
        | none => simp [hbest] at hkept
        | some b => simp
    · rw [Bool.not_eq_true] at ha
      simp only [ha,Bool.false_eq_true,if_false,ih,List.mem_append,List.mem_singleton]
      exact ⟨fun h b hb => hb.elim (h b) fun hba => hba ▸ ha,fun h b hb => h b (Or.inl hb)⟩

theorem searchBest_mem {l : List α} {b : α} (h : searchBest ok score l = some b) : b ∈ l ∧ ok b = true := by
  induction l using List.reverseRecOn with
  | nil => simp [searchBest] at h
  | append_singleton l a ih =>
    rw [searchBest_append,keepBest] at h
    split at h
    · rename_i ha
      split at h
      · obtain rfl := Option.some.inj h
        exact ⟨List.mem_append_right _ (List.mem_singleton_self a),ha⟩
      · exact ⟨List.mem_append_left _ (ih h).1,(ih h).2⟩
    · exact ⟨List.mem_append_left _ (ih h).1,(ih h).2⟩

end Search

/-- No candidate that passes scores lower than the one found. -/
theorem searchBest_le [LinearOrder K] (ok : α → Bool) (score : α → K) {l : List α} {b : α}
    (h : searchBest ok score l = some b) : ∀ a ∈ l, ok a = true → score b ≤ score a := by
  induction l using List.reverseRecOn generalizing b with
  | nil => simp [searchBest] at h
  | append_singleton l c ih =>
    rw [searchBest_append,keepBest] at h
    intro a ha hok
    rcases List.mem_append.mp ha with hmem | hlast
    · split at h
      · rename_i hc
        split at h
        · rename_i hless
          obtain rfl := Option.some.inj h
          cases hbest : searchBest ok score l with
          | none => exact absurd hok (by simp [(searchBest_eq_none ok score l).mp hbest a hmem])
          | some d =>
            have hlt : score c < score d := by simpa [hbest] using hless
            exact le_trans (le_of_lt hlt) (ih hbest a hmem hok)
        · exact ih h a hmem hok
      · exact ih h a hmem hok
    · obtain rfl := List.mem_singleton.mp hlast
      rw [if_pos hok] at h
      split at h
      · obtain rfl := Option.some.inj h
        exact le_refl _
      · rename_i hless
        rw [h] at hless
        simpa using hless

end MfskCore.Library
