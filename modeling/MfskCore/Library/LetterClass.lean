import Mathlib.Computability.Language

/-! Languages over classes of letters: a letter of a class, a bounded run of them, and the words in which one letter
of a class is followed by letters of another. Two disjoint classes leave one way to cut such a word. -/
namespace MfskCore.Library
variable {α : Type*}

/-- One letter of the class. -/
def oneOf (p : α → Bool) : Language α := {w | ∃ a, p a = true ∧ w = [a]}

/-- At most `n` letters of the class. -/
def upTo (n : Nat) (p : α → Bool) : Language α := {w | w.length ≤ n ∧ ∀ a ∈ w, p a = true}

theorem mem_oneOf {p : α → Bool} {w : List α} : w ∈ oneOf p ↔ ∃ a, p a = true ∧ w = [a] := Iff.rfl

theorem mem_upTo {n : Nat} {p : α → Bool} {w : List α} :
    w ∈ upTo n p ↔ w.length ≤ n ∧ ∀ a ∈ w, p a = true := Iff.rfl

theorem mem_oneOf_mul {p : α → Bool} {l : Language α} {w : List α} :
    w ∈ oneOf p * l ↔ ∃ a v, p a = true ∧ v ∈ l ∧ w = a :: v := by
  constructor
  · intro h
    obtain ⟨_,⟨a,ha,rfl⟩,v,hv,rfl⟩ := Language.mem_mul.1 h
    exact ⟨a,v,ha,hv,rfl⟩
  · rintro ⟨a,v,ha,hv,rfl⟩
    exact Language.mem_mul.2 ⟨[a],⟨a,ha,rfl⟩,v,hv,rfl⟩

theorem mem_mul_oneOf_mul {p : α → Bool} {l m : Language α} {w : List α} :
    w ∈ l * (oneOf p * m) ↔ ∃ u a v, u ∈ l ∧ p a = true ∧ v ∈ m ∧ w = u ++ a :: v := by
  constructor
  · intro h
    obtain ⟨u,hu,_,hright,rfl⟩ := Language.mem_mul.1 h
    obtain ⟨a,v,ha,hv,rfl⟩ := mem_oneOf_mul.1 hright
    exact ⟨u,a,v,hu,ha,hv,rfl⟩
  · rintro ⟨u,a,v,hu,ha,hv,rfl⟩
    exact Language.mem_mul.2 ⟨u,hu,_,mem_oneOf_mul.2 ⟨a,v,ha,hv,rfl⟩,rfl⟩

theorem mem_oneOf_mul_oneOf {p q : α → Bool} {w : List α} :
    w ∈ oneOf p * oneOf q ↔ ∃ a b, p a = true ∧ q b = true ∧ w = [a,b] := by
  constructor
  · intro h
    obtain ⟨a,_,ha,⟨b,hb,rfl⟩,rfl⟩ := mem_oneOf_mul.1 h
    exact ⟨a,b,ha,hb,rfl⟩
  · rintro ⟨a,b,ha,hb,rfl⟩
    exact mem_oneOf_mul.2 ⟨a,[b],ha,⟨b,hb,rfl⟩,rfl⟩

/-- The words of the language have letters of the class only. -/
def Over (p : α → Prop) (l : Language α) : Prop := ∀ w ∈ l, ∀ a ∈ w, p a

section Over
variable {p : α → Prop} {q : α → Bool} {l m : Language α}

theorem Over.add (hl : Over p l) (hm : Over p m) : Over p (l + m) := fun w hw => hw.elim (hl w) (hm w)

theorem Over.mul (hl : Over p l) (hm : Over p m) : Over p (l * m) := by
  intro w hw
  obtain ⟨u,hu,v,hv,rfl⟩ := Language.mem_mul.1 hw
  exact List.forall_mem_append.2 ⟨hl u hu,hm v hv⟩

theorem over_oneOf (h : ∀ a, q a = true → p a) : Over p (oneOf q) := by
  rintro _ ⟨a,ha,rfl⟩
  exact List.forall_mem_singleton.2 (h a ha)

theorem over_upTo (h : ∀ a, q a = true → p a) (n : Nat) : Over p (upTo n q) := fun _ hw a ha => h a (hw.2 a ha)

end Over

/-- The last letter of the first class is where the word is cut. -/
theorem cut_unique {p q : α → Bool} (hdisjoint : ∀ a, p a = true → ¬ q a = true) {u v u' v' : List α} {a a' : α}
    (ha : p a = true) (hv : ∀ b ∈ v, q b = true) (ha' : p a' = true) (hv' : ∀ b ∈ v', q b = true)
    (h : u ++ a :: v = u' ++ a' :: v') : u = u' ∧ a = a' ∧ v = v' := by
  rcases List.append_eq_append_iff.1 h with ⟨w,rfl,hw⟩ | ⟨w,rfl,hw⟩
  · rcases w with _ | ⟨b,w⟩
    · rw [List.nil_append,List.cons.injEq] at hw
      exact ⟨(List.append_nil u).symm,hw⟩
    · rw [List.cons_append,List.cons.injEq] at hw
      exact absurd (hv a' (hw.2 ▸ List.mem_append_right w List.mem_cons_self)) (hdisjoint a' ha')
  · rcases w with _ | ⟨b,w⟩
    · rw [List.nil_append,List.cons.injEq] at hw
      exact ⟨List.append_nil u',hw.1.symm,hw.2.symm⟩
    · rw [List.cons_append,List.cons.injEq] at hw
      exact absurd (hv' a (hw.2 ▸ List.mem_append_right w List.mem_cons_self)) (hdisjoint a ha)

end MfskCore.Library
