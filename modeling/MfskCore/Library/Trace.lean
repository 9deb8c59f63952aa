import Mathlib.Data.List.DropRight

/-! What a trace says about the time since its last event of a kind. -/
namespace MfskCore.Library
variable {ε : Type*}

/-- Some event of the one kind, and none of the other kind after it. -/
def Since (occurs ends : ε → Prop) (t : List ε) : Prop :=
  ∃ before e after, t = before ++ e :: after ∧ occurs e ∧ ∀ x ∈ after, ¬ ends x

theorem not_since_nil (occurs ends : ε → Prop) : ¬ Since occurs ends [] := by
  rintro ⟨before,e,after,h,_⟩
  simp at h

theorem since_concat (occurs ends : ε → Prop) (t : List ε) (e : ε) :
    Since occurs ends (t ++ [e]) ↔ occurs e ∨ (Since occurs ends t ∧ ¬ ends e) := by
  constructor
  · rintro ⟨before,x,after,h,hx,hafter⟩
    rcases List.eq_nil_or_concat after with rfl | ⟨after,y,rfl⟩
    · rw [List.append_inj_right' h rfl |> List.singleton_inj.mp]
      exact Or.inl hx
    · rw [List.concat_eq_append] at h hafter
      rw [← List.cons_append,← List.append_assoc] at h
      obtain ⟨ht,he⟩ := List.append_inj' h rfl
      obtain rfl := List.singleton_inj.mp he
      refine Or.inr ⟨⟨before,x,after,ht,hx,?_⟩,hafter _ (by simp)⟩
      exact fun z hz => hafter z (List.mem_append_left _ hz)
  · rintro (he | ⟨⟨before,x,after,rfl,hx,hafter⟩,he⟩)
    · exact ⟨t,e,[],rfl,he,by simp⟩
    · refine ⟨before,x,after ++ [e],by simp,hx,?_⟩
      intro z hz
      rcases List.mem_append.mp hz with hz | hz
      · exact hafter z hz
      · rw [List.mem_singleton.mp hz]
        exact he

/-- The events of one kind since the last one that starts the count over; a count that was never
started over begins at `initial`. -/
def countSince (initial : Nat) (counts resets : ε → Bool) (t : List ε) : Nat :=
  (t.rtakeWhile fun e => !resets e).countP counts + if t.any resets then 0 else initial

@[simp] theorem countSince_nil (initial : Nat) (counts resets : ε → Bool) :
    countSince initial counts resets [] = initial := by
  simp [countSince]

theorem countSince_concat (initial : Nat) (counts resets : ε → Bool) (t : List ε) (e : ε) :
    countSince initial counts resets (t ++ [e]) =
      if resets e then 0
      else if counts e then countSince initial counts resets t + 1
      else countSince initial counts resets t := by
  unfold countSince
  cases hr : resets e with
  | true => simp [List.rtakeWhile_concat_neg,hr]
  | false =>
    rw [List.rtakeWhile_concat_pos _ _ _ (by simp [hr]),List.countP_append,List.countP_singleton,
      List.any_append]
    cases hc : counts e with
    | true =>
      simp [hr]
      omega
    | false => simp [hr]

end MfskCore.Library
