import Mathlib.Data.List.Basic
import Mathlib.Data.Option.Basic

/-! Attempts one after another, up to the first with a result. Each works on a state that it hands on to the next, and
may end the whole computation. -/
namespace MfskCore.Library

/-- An attempt ends everything, or leaves a state and perhaps a result. -/
abbrev Attempt (S R : Type*) := S → Option (Option R × S)

namespace Attempt
variable {S T R A B : Type*}

def nothing : Attempt S R := fun s => some (none,s)

def found (x : R) : Attempt S R := fun s => some (some x,s)

/-- What the first gives is taken further. -/
def andThen (a : Attempt S A) (f : A → Attempt S R) : Attempt S R := fun s =>
  (a s).bind fun r => match r.1 with
    | some x => f x r.2
    | none => some (none,r.2)

/-- The second is made where the first has no result. -/
def orNext (first next : Attempt S R) : Attempt S R := fun s =>
  (first s).bind fun r => match r.1 with
    | some _ => some r
    | none => next r.2

/-- An attempt with a value that has to be worked out before it. -/
def after (a : Option A) (f : A → Attempt S R) : Attempt S R := fun s => a.bind fun a => f a s

/-- One after another. -/
def firstOf : List (Attempt S R) → Attempt S R
  | [] => nothing
  | a :: rest => a.orNext (firstOf rest)

section Yields
variable {Q : R → Prop} {a b : Attempt S R}

/-- Whatever the state, a result has the property. -/
def Yields (Q : R → Prop) (a : Attempt S R) : Prop := ∀ s x s', a s = some (some x,s') → Q x

theorem yields_nothing : Yields Q (nothing : Attempt S R) := fun s x s' h => by cases h

theorem yields_found {x : R} (h : Q x) : Yields Q (found x : Attempt S R) := by
  intro s y s' hrun
  obtain ⟨hsame,-⟩ := Prod.mk.inj (Option.some.inj hrun)
  exact Option.some.inj hsame ▸ h

theorem Yields.andThen {Q' : A → Prop} {a : Attempt S A} {f : A → Attempt S R} (ha : Yields Q' a)
    (hf : ∀ x, Q' x → Yields Q (f x)) : Yields Q (a.andThen f) := by
  intro s y s' h
  obtain ⟨⟨r,s₁⟩,hrun,hnext⟩ := Option.bind_eq_some_iff.1 h
  cases r with
  | some x => exact hf x (ha s x s₁ hrun) s₁ y s' hnext
  | none => cases hnext

theorem Yields.imp {Q' : R → Prop} (ha : Yields Q a) (h : ∀ x, Q x → Q' x) : Yields Q' a :=
  fun s x s' hrun => h x (ha s x s' hrun)

theorem Yields.orNext (ha : Yields Q a) (hb : Yields Q b) : Yields Q (a.orNext b) := by
  intro s x s' h
  obtain ⟨⟨r,s₁⟩,hrun,hnext⟩ := Option.bind_eq_some_iff.1 h
  cases r with
  | some y =>
    obtain ⟨hsame,-⟩ := Prod.mk.inj (Option.some.inj hnext)
    exact ha s x s₁ (hsame ▸ hrun)
  | none => exact hb s₁ x s' hnext

theorem Yields.after {o : Option A} {f : A → Attempt S R} (h : ∀ x ∈ o, Yields Q (f x)) : Yields Q (after o f) := by
  intro s y s' hrun
  obtain ⟨x,hx,hrun⟩ := Option.bind_eq_some_iff.1 hrun
  exact h x hx s y s' hrun

theorem yields_firstOf {l : List (Attempt S R)} (h : ∀ a ∈ l, Yields Q a) : Yields Q (firstOf l) := by
  induction l with
  | nil => exact yields_nothing
  | cons a l ih => exact (h a List.mem_cons_self).orNext (ih fun b hb => h b (List.mem_cons_of_mem a hb))

end Yields

section Extends
variable {a b c : Attempt S R}

/-- What has a result has the same one in the other. -/
def Extends (a b : Attempt S R) : Prop := ∀ s x s', a s = some (some x,s') → b s = some (some x,s')

theorem Extends.refl (a : Attempt S R) : Extends a a := fun _ _ _ h => h

theorem extends_nothing (b : Attempt S R) : Extends nothing b := fun s x s' h => by cases h

/-- More attempts behind the others. -/
theorem Extends.orNext (a : Attempt S R) (h : Extends b c) : Extends (a.orNext b) (a.orNext c) := by
  intro s x s' hrun
  obtain ⟨⟨r,s₁⟩,hfirst,hnext⟩ := Option.bind_eq_some_iff.1 hrun
  rw [Attempt.orNext,hfirst,Option.bind_some]
  cases r with
  | some y => exact hnext
  | none => exact h s₁ x s' hnext

/-- A longer series. -/
theorem extends_firstOf {l m : List (Attempt S R)} (h : l <+: m) : Extends (firstOf l) (firstOf m) := by
  obtain ⟨rest,rfl⟩ := h
  induction l with
  | nil => exact extends_nothing _
  | cons a l ih => exact .orNext a ih

theorem Extends.after (o : Option A) {f g : A → Attempt S R} (h : ∀ x, Extends (f x) (g x)) :
    Extends (after o f) (after o g) := by
  intro s y s' hrun
  obtain ⟨x,rfl,hrun⟩ := Option.bind_eq_some_iff.1 hrun
  exact h x s y s' hrun

end Extends

section Total
variable {a b : Attempt S R}

/-- The attempt never ends everything. -/
def Total (a : Attempt S R) : Prop := ∀ s, ∃ r, a s = some r

theorem total_nothing : Total (nothing : Attempt S R) := fun s => ⟨(none,s),rfl⟩

theorem total_found (x : R) : Total (found x : Attempt S R) := fun s => ⟨(some x,s),rfl⟩

theorem Total.andThen {Q : A → Prop} {a : Attempt S A} {f : A → Attempt S R} (ha : Total a) (hQ : Yields Q a)
    (hf : ∀ x, Q x → Total (f x)) : Total (a.andThen f) := by
  intro s
  obtain ⟨⟨r,s₁⟩,hrun⟩ := ha s
  rw [Attempt.andThen,hrun,Option.bind_some]
  cases r with
  | some x => exact hf x (hQ s x s₁ hrun) s₁
  | none => exact ⟨_,rfl⟩

theorem Total.orNext (ha : Total a) (hb : Total b) : Total (a.orNext b) := by
  intro s
  obtain ⟨⟨r,s₁⟩,hrun⟩ := ha s
  rw [Attempt.orNext,hrun,Option.bind_some]
  cases r with
  | some x => exact ⟨_,rfl⟩
  | none => exact hb s₁

theorem Total.after {o : Option A} {f : A → Attempt S R} (h : ∃ x, o = some x ∧ Total (f x)) : Total (after o f) := by
  obtain ⟨x,rfl,hf⟩ := h
  exact hf

theorem total_firstOf {l : List (Attempt S R)} (h : ∀ a ∈ l, Total a) : Total (firstOf l) := by
  induction l with
  | nil => exact total_nothing
  | cons a l ih => exact (h a List.mem_cons_self).orNext (ih fun b hb => h b (List.mem_cons_of_mem a hb))

end Total

section Agree
variable {rel : S → T → Prop} {a₁ b₁ : Attempt S R} {a₂ b₂ : Attempt T R}

/-- From related states two attempts have the same result and leave related states. -/
def Agree (rel : S → T → Prop) (a₁ : Attempt S R) (a₂ : Attempt T R) : Prop :=
  ∀ s t, rel s t → Option.Rel (fun x y => x.1 = y.1 ∧ rel x.2 y.2) (a₁ s) (a₂ t)

theorem agree_nothing : Agree rel (nothing : Attempt S R) nothing := fun _ _ h => .some ⟨rfl,h⟩

theorem agree_found (x : R) : Agree rel (found x : Attempt S R) (found x) := fun _ _ h => .some ⟨rfl,h⟩

/-- Both panic, or both give the same and leave related states. -/
theorem Agree.run {s : S} {t : T} (ha : Agree rel a₁ a₂) (hst : rel s t) :
    (a₁ s = none ∧ a₂ t = none) ∨ ∃ r s' t', a₁ s = some (r,s') ∧ a₂ t = some (r,t') ∧ rel s' t' := by
  have hrun := ha s t hst
  cases h₁ : a₁ s with
  | none =>
    cases h₂ : a₂ t with
    | none => exact Or.inl ⟨rfl,rfl⟩
    | some y => rw [h₁,h₂] at hrun; cases hrun
  | some x =>
    cases h₂ : a₂ t with
    | none => rw [h₁,h₂] at hrun; cases hrun
    | some y =>
      rw [h₁,h₂] at hrun
      obtain ⟨r,s'⟩ := x
      obtain ⟨r',t'⟩ := y
      obtain ⟨rfl,hrel⟩ := Option.rel_some_some.1 hrun
      exact Or.inr ⟨r,s',t',rfl,rfl,hrel⟩

theorem Agree.andThen {a₁ : Attempt S A} {a₂ : Attempt T A} {f : A → Attempt S R} {g : A → Attempt T R}
    (ha : Agree rel a₁ a₂) (hf : ∀ x, Agree rel (f x) (g x)) : Agree rel (a₁.andThen f) (a₂.andThen g) := by
  intro s t hst
  rw [Attempt.andThen,Attempt.andThen]
  obtain ⟨h₁,h₂⟩ | ⟨r,s',t',h₁,h₂,hrel⟩ := ha.run hst
  · rw [h₁,h₂]
    exact .none
  · rw [h₁,h₂,Option.bind_some,Option.bind_some]
    cases r with
    | some x => exact hf x s' t' hrel
    | none => exact .some ⟨rfl,hrel⟩

theorem Agree.orNext (ha : Agree rel a₁ a₂) (hb : Agree rel b₁ b₂) : Agree rel (a₁.orNext b₁) (a₂.orNext b₂) := by
  intro s t hst
  rw [Attempt.orNext,Attempt.orNext]
  obtain ⟨h₁,h₂⟩ | ⟨r,s',t',h₁,h₂,hrel⟩ := ha.run hst
  · rw [h₁,h₂]
    exact .none
  · rw [h₁,h₂]
    cases r with
    | some x => exact .some ⟨rfl,hrel⟩
    | none => exact hb s' t' hrel

theorem Agree.after (o : Option A) {f : A → Attempt S R} {g : A → Attempt T R} (h : ∀ x, Agree rel (f x) (g x)) :
    Agree rel (after o f) (after o g) := by
  intro s t hst
  cases o with
  | none => exact .none
  | some x => exact h x s t hst

theorem agree_firstOf {l : List B} {f : B → Attempt S R} {g : B → Attempt T R} (h : ∀ b, Agree rel (f b) (g b)) :
    Agree rel (firstOf (l.map f)) (firstOf (l.map g)) := by
  induction l with
  | nil => exact agree_nothing
  | cons b l ih => exact (h b).orNext ih

/-- Related states give the same result. -/
theorem Agree.result {s : S} {t : T} (h : Agree rel a₁ a₂) (hst : rel s t) :
    (a₁ s).map Prod.fst = (a₂ t).map Prod.fst := by
  obtain ⟨h₁,h₂⟩ | ⟨r,s',t',h₁,h₂,-⟩ := h.run hst
  · rw [h₁,h₂]
    rfl
  · rw [h₁,h₂]
    rfl

end Agree

end Attempt

end MfskCore.Library
