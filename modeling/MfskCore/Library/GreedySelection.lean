import Mathlib.Data.List.Induction

/-! A greedy selection: an element is kept unless it is close to one that is kept already. -/
namespace MfskCore.Library
variable {α : Type*} (close : α → α → Bool)

def greedyStep (kept : List α) (a : α) : List α := if kept.any (close a) then kept else kept ++ [a]

/-- The elements kept, in the order they are met. -/
def greedySelect (l : List α) : List α := l.foldl (greedyStep close) []

theorem greedySelect_append (l : List α) (a : α) :
    greedySelect close (l ++ [a]) = greedyStep close (greedySelect close l) a := by
  rw [greedySelect,List.foldl_append]
  rfl

theorem greedySelect_sublist (l : List α) : (greedySelect close l).Sublist l := by
  induction l using List.reverseRecOn with
  | nil => exact List.Sublist.refl _
  | append_singleton l a ih =>
    rw [greedySelect_append,greedyStep]
    split
    · exact ih.trans (List.sublist_append_left l [a])
    · exact ih.append (List.Sublist.refl _)

/-- No element kept is close to one kept before it. -/
theorem greedySelect_pairwise (l : List α) : (greedySelect close l).Pairwise fun b a => close a b = false := by
  induction l using List.reverseRecOn with
  | nil => exact List.Pairwise.nil
  | append_singleton l a ih =>
    rw [greedySelect_append,greedyStep]
    split
    · exact ih
    · rename_i hfar
      rw [List.pairwise_append]
      refine ⟨ih,List.pairwise_singleton _ _,fun b hb c hc => ?_⟩
      obtain rfl := List.mem_singleton.1 hc
      rw [List.any_eq_true] at hfar
      exact eq_false_of_ne_true fun hclose => hfar ⟨b,hb,hclose⟩

/-- An element that is not kept is close to a kept one that comes before it. -/
theorem greedySelect_covers {l : List α} {a : α} (ha : a ∈ l) (hnot : a ∉ greedySelect close l) :
    ∃ b ∈ greedySelect close l, close a b = true ∧ [b,a].Sublist l := by
  induction l using List.reverseRecOn with
  | nil => cases ha
  | append_singleton l c ih =>
    have hgrow : (greedySelect close l).Sublist (greedySelect close (l ++ [c])) := by
      rw [greedySelect_append,greedyStep]
      split
      · exact List.Sublist.refl _
      · exact List.sublist_append_left _ _
    by_cases hal : a ∈ l
    · obtain ⟨b,hb,hclose,hbefore⟩ := ih hal fun hkept => hnot (hgrow.subset hkept)
      exact ⟨b,hgrow.subset hb,hclose,hbefore.trans (List.sublist_append_left l [c])⟩
    · obtain rfl : a = c := List.mem_singleton.1 ((List.mem_append.1 ha).resolve_left hal)
      rw [greedySelect_append,greedyStep] at hnot ⊢
      split at hnot
      · rename_i hany
        obtain ⟨b,hb,hclose⟩ := List.any_eq_true.1 hany
        have hbl : b ∈ l := (greedySelect_sublist close l).subset hb
        rw [if_pos hany]
        exact ⟨b,hb,hclose,(List.singleton_sublist.2 hbl).append (List.Sublist.refl [a])⟩
      · exact absurd (List.mem_append_right _ (List.mem_singleton_self a)) hnot

end MfskCore.Library
