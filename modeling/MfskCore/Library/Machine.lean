import Mathlib.Logic.Basic

/-! Runs of a deterministic step function, and the rules that lift one-step facts to them. -/
namespace MfskCore.Library
variable {σ ι : Type*}

/-- The state after the inputs, taken from left to right. -/
def run (step : σ → ι → σ) (s : σ) (ops : List ι) : σ := ops.foldl step s

@[simp] theorem run_nil (step : σ → ι → σ) (s : σ) : run step s [] = s := rfl

@[simp] theorem run_cons (step : σ → ι → σ) (s : σ) (i : ι) (ops : List ι) :
    run step s (i :: ops) = run step (step s i) ops := rfl

theorem run_append (step : σ → ι → σ) (s : σ) (first second : List ι) :
    run step s (first ++ second) = run step (run step s first) second := by
  simp [run]

/-- What every step keeps, every run keeps. -/
theorem run_invariant {I : σ → Prop} {step : σ → ι → σ} (hstep : ∀ s i, I s → I (step s i)) {s : σ}
    {ops : List ι} (hs : I s) : I (run step s ops) := by
  induction ops generalizing s with
  | nil => exact hs
  | cons i ops ih => exact ih (hstep s i hs)

/-- Every step of the run is taken in a state that permits it. -/
def AllSteps (ok : σ → ι → Prop) (step : σ → ι → σ) : σ → List ι → Prop
  | _, [] => True
  | s, i :: ops => ok s i ∧ AllSteps ok step (step s i) ops

instance AllSteps.decidable (ok : σ → ι → Prop) [∀ s i, Decidable (ok s i)] (step : σ → ι → σ) (s : σ)
    (ops : List ι) : Decidable (AllSteps ok step s ops) :=
  match ops with
  | [] => isTrue trivial
  | i :: ops =>
    have := AllSteps.decidable ok step (step s i) ops
    inferInstanceAs (Decidable (ok s i ∧ AllSteps ok step (step s i) ops))

theorem allSteps_append (ok : σ → ι → Prop) (step : σ → ι → σ) (s : σ) (first second : List ι) :
    AllSteps ok step s (first ++ second) ↔
      AllSteps ok step s first ∧ AllSteps ok step (run step s first) second := by
  induction first generalizing s with
  | nil => simp [AllSteps]
  | cons i first ih => rw [List.cons_append,AllSteps,ih,AllSteps,run_cons,and_assoc]

/-- What every step satisfies, whatever the state, every run satisfies. -/
theorem allSteps_of_forall {ok : σ → ι → Prop} {step : σ → ι → σ} {ops : List ι} (h : ∀ s, ∀ i ∈ ops, ok s i) (s : σ) :
    AllSteps ok step s ops := by
  induction ops generalizing s with
  | nil => exact trivial
  | cons i ops ih => exact ⟨h s i List.mem_cons_self,ih (fun s j hj => h s j (List.mem_cons_of_mem i hj)) _⟩

theorem allSteps_true (step : σ → ι → σ) (s : σ) (ops : List ι) : AllSteps (fun _ _ => True) step s ops :=
  allSteps_of_forall (fun _ _ _ => trivial) s

/-- Every state of the run has the property, the first and the last one included. -/
def Always (P : σ → Prop) (step : σ → ι → σ) : σ → List ι → Prop
  | s, [] => P s
  | s, i :: ops => P s ∧ Always P step (step s i) ops

theorem Always.head {P : σ → Prop} {step : σ → ι → σ} {s : σ} {ops : List ι}
    (h : Always P step s ops) : P s := by
  cases ops with
  | nil => exact h
  | cons i ops => exact h.1

theorem Always.last {P : σ → Prop} {step : σ → ι → σ} {s : σ} {ops : List ι}
    (h : Always P step s ops) : P (run step s ops) := by
  induction ops generalizing s with
  | nil => exact h
  | cons i ops ih => exact ih h.2

/-- One permitted step preserves the property, so every permitted run does. -/
theorem always_of_allSteps {P : σ → Prop} {ok : σ → ι → Prop} {step : σ → ι → σ}
    (hstep : ∀ s i, P s → ok s i → P (step s i)) {s : σ} {ops : List ι}
    (hs : P s) (hok : AllSteps ok step s ops) : Always P step s ops := by
  induction ops generalizing s with
  | nil => exact hs
  | cons i ops ih => exact ⟨hs,ih (hstep s i hs hok.1) hok.2⟩

/-- When a step keeps the property exactly if it is permitted, the property holds throughout
exactly the permitted runs. The side invariant is one that every permitted step keeps. -/
theorem always_iff_allSteps {I P : σ → Prop} {ok : σ → ι → Prop} {step : σ → ι → σ}
    (hinv : ∀ s i, I s → ok s i → I (step s i))
    (hstep : ∀ s i, I s → P s → (P (step s i) ↔ ok s i)) {s : σ} {ops : List ι}
    (hi : I s) (hs : P s) : Always P step s ops ↔ AllSteps ok step s ops := by
  induction ops generalizing s with
  | nil => exact ⟨fun _ => trivial,fun _ => hs⟩
  | cons i ops ih =>
    constructor
    · intro h
      have hn := h.2.head
      have hok := (hstep s i hi hs).mp hn
      exact ⟨hok,(ih (hinv s i hi hok) hn).mp h.2⟩
    · intro h
      have hn := (hstep s i hi hs).mpr h.1
      exact ⟨hs,(ih (hinv s i hi h.1) hn).mpr h.2⟩

section Outputs
variable {ο : Type*}

/-- The outputs of a machine that answers every input, in order. -/
def outputs (step : σ → ι → σ × ο) : σ → List ι → List ο
  | _, [] => []
  | s, i :: ops => (step s i).2 :: outputs step (step s i).1 ops

/-- The state after the inputs, the outputs dropped. -/
def final (step : σ → ι → σ × ο) (s : σ) (ops : List ι) : σ := run (fun s i => (step s i).1) s ops

@[simp] theorem outputs_nil (step : σ → ι → σ × ο) (s : σ) : outputs step s [] = [] := rfl

@[simp] theorem outputs_cons (step : σ → ι → σ × ο) (s : σ) (i : ι) (ops : List ι) :
    outputs step s (i :: ops) = (step s i).2 :: outputs step (step s i).1 ops := rfl

@[simp] theorem final_nil (step : σ → ι → σ × ο) (s : σ) : final step s [] = s := rfl

@[simp] theorem final_cons (step : σ → ι → σ × ο) (s : σ) (i : ι) (ops : List ι) :
    final step s (i :: ops) = final step (step s i).1 ops := rfl

theorem outputs_append (step : σ → ι → σ × ο) (s : σ) (first second : List ι) :
    outputs step s (first ++ second) = outputs step s first ++ outputs step (final step s first) second := by
  induction first generalizing s with
  | nil => rfl
  | cons i first ih => rw [List.cons_append,outputs_cons,ih,outputs_cons,final_cons,List.cons_append]

/-- What every permitted step keeps and shows, every permitted run shows. -/
theorem outputs_of_allSteps {I : σ → Prop} {Q : ο → Prop} {ok : σ → ι → Prop} {step : σ → ι → σ × ο}
    (hstep : ∀ s i, I s → ok s i → I (step s i).1 ∧ Q (step s i).2) {s : σ} {ops : List ι} (hs : I s)
    (hok : AllSteps ok (fun s i => (step s i).1) s ops) : ∀ o ∈ outputs step s ops, Q o := by
  induction ops generalizing s with
  | nil => exact fun o ho => absurd ho List.not_mem_nil
  | cons i ops ih =>
    obtain ⟨hnext,hout⟩ := hstep s i hs hok.1
    exact List.forall_mem_cons.2 ⟨hout,ih hnext hok.2⟩

end Outputs

end MfskCore.Library
