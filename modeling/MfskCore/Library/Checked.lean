import Mathlib.Data.List.GetD

/-! Computations that may fail, as `Option`: a read past the end of a list and a subtraction
below zero fail. A loop none of whose steps fails is the loop without the checks. -/
namespace MfskCore.Library

/-- A subtraction of natural numbers that fails below zero. -/
def checkedSub (a b : Nat) : Option Nat := if b ≤ a then some (a - b) else none

theorem checkedSub_eq {a b : Nat} (h : b ≤ a) : checkedSub a b = some (a - b) := if_pos h

section
variable {α β : Type*}

theorem getElem?_eq_some_getD {l : List α} {i : Nat} (h : i < l.length) (d : α) : l[i]? = some (l.getD i d) := by
  rw [List.getD_eq_getElem _ d h,List.getElem?_eq_getElem h]

/-- The slice before an index. -/
def checkedTake (n : Nat) (l : List α) : Option (List α) := if n ≤ l.length then some (l.take n) else none

theorem checkedTake_eq {n : Nat} {l : List α} (h : n ≤ l.length) : checkedTake n l = some (l.take n) := if_pos h

/-- The slice from an index on. -/
def checkedDrop (n : Nat) (l : List α) : Option (List α) := if n ≤ l.length then some (l.drop n) else none

theorem checkedDrop_eq {n : Nat} {l : List α} (h : n ≤ l.length) : checkedDrop n l = some (l.drop n) := if_pos h

/-- A write at an index. -/
def checkedSet (l : List α) (i : Nat) (a : α) : Option (List α) := if i < l.length then some (l.set i a) else none

theorem checkedSet_eq {l : List α} {i : Nat} (h : i < l.length) (a : α) : checkedSet l i a = some (l.set i a) :=
  if_pos h

theorem mapM_eq_some {f : α → Option β} {g : α → β} {l : List α} (h : ∀ a ∈ l, f a = some (g a)) :
    l.mapM f = some (l.map g) := by
  induction l with
  | nil => rfl
  | cons a l ih =>
    rw [List.mapM_cons,h a List.mem_cons_self,ih fun b hb => h b (List.mem_cons_of_mem a hb)]
    rfl

/-- Every step succeeds while the invariant holds, and keeps it. -/
theorem foldlM_eq_some {f : β → α → Option β} {g : β → α → β} (Inv : β → Prop) {l : List α}
    (h : ∀ a ∈ l, ∀ b, Inv b → f b a = some (g b a) ∧ Inv (g b a)) {b : β} (hb : Inv b) :
    l.foldlM f b = some (l.foldl g b) ∧ Inv (l.foldl g b) := by
  induction l generalizing b with
  | nil => exact ⟨rfl,hb⟩
  | cons a l ih =>
    obtain ⟨hstep,hnext⟩ := h a List.mem_cons_self b hb
    rw [List.foldlM_cons,hstep,List.foldl_cons]
    exact ih (fun c hc => h c (List.mem_cons_of_mem a hc)) hnext

/-- A loop whose steps succeed and keep an invariant. -/
theorem exists_foldlM {f : β → α → Option β} (Inv : β → Prop) {l : List α}
    (h : ∀ a ∈ l, ∀ b, Inv b → ∃ b', f b a = some b' ∧ Inv b') {b : β} (hb : Inv b) :
    ∃ b', l.foldlM f b = some b' ∧ Inv b' := by
  induction l generalizing b with
  | nil => exact ⟨b,rfl,hb⟩
  | cons a l ih =>
    obtain ⟨b₁,hstep,hnext⟩ := h a List.mem_cons_self b hb
    rw [List.foldlM_cons,hstep]
    exact ih (fun c hc => h c (List.mem_cons_of_mem a hc)) hnext

/-- The last pass of a loop that counts. -/
theorem foldlM_range_succ (f : β → Nat → Option β) (b : β) (n : Nat) :
    (List.range (n + 1)).foldlM f b = ((List.range n).foldlM f b).bind fun c => f c n := by
  rw [List.range_succ,List.foldlM_append]
  refine congrArg (Option.bind _) (funext fun c => ?_)
  rw [List.foldlM_cons]
  exact bind_pure (f c n)

/-- Two loops nested over a series of lists are one loop over the series. -/
theorem foldlM_flatMap {γ : Type*} (series : α → List β) (step : γ → β → Option γ) (l : List α) (c : γ) :
    (l.flatMap series).foldlM step c = l.foldlM (fun c a => (series a).foldlM step c) c := by
  induction l generalizing c with
  | nil => rfl
  | cons a l ih =>
    rw [List.flatMap_cons,List.foldlM_append,List.foldlM_cons]
    exact congrArg _ (funext fun c => ih c)

/-- Values written one after another, from a cell on. -/
theorem foldlM_checkedSet (vs out : List α) {k : Nat} (h : k + vs.length ≤ out.length) :
    vs.foldlM (fun (s : List α × Nat) v => (checkedSet s.1 s.2 v).map fun out => (out,s.2 + 1)) (out,k) =
      some (out.take k ++ vs ++ out.drop (k + vs.length),k + vs.length) := by
  induction vs generalizing out k with
  | nil => rw [List.append_nil]; exact congrArg (fun l => some (l,k)) (List.take_append_drop k out).symm
  | cons v vs ih =>
    rw [List.length_cons] at h
    have hk : k < out.length := by omega
    rw [List.foldlM_cons,checkedSet_eq hk,Option.map_some,Option.bind_eq_bind,Option.bind_some,
      ih _ (by rw [List.length_set]; omega),List.length_cons,Nat.add_right_comm,Nat.add_assoc]
    rw [List.take_succ_eq_append_getElem (by rwa [List.length_set]),List.getElem_set_self,List.take_set_of_le (Nat.le_refl k),
      List.drop_set_of_lt (by omega),List.append_assoc (List.take k out)]
    rfl

theorem foldlM_congr {f g : β → α → Option β} {l : List α} (h : ∀ a ∈ l, ∀ b, f b a = g b a) (b : β) :
    l.foldlM f b = l.foldlM g b := by
  induction l generalizing b with
  | nil => rfl
  | cons a l ih =>
    rw [List.foldlM_cons,List.foldlM_cons,h a List.mem_cons_self]
    exact congrArg _ (funext fun b => ih (fun c hc => h c (List.mem_cons_of_mem a hc)) b)

/-- Reading the first cells of a list one by one. -/
theorem mapM_getElem?_range {l : List α} {n : Nat} (h : n ≤ l.length) :
    (List.range n).mapM (fun i => l[i]?) = some (l.take n) := by
  induction n with
  | zero => rfl
  | succ n ih =>
    have hn : n < l.length := by omega
    rw [List.range_succ,List.mapM_append,ih (by omega),List.take_add_one,List.mapM_cons,List.mapM_nil,
      List.getElem?_eq_getElem hn]
    rfl

theorem getD_mapIdx_of_lt (f : Nat → α → β) {l : List α} {i : Nat} (h : i < l.length) (d : α) (d' : β) :
    (l.mapIdx f).getD i d' = f i (l.getD i d) := by
  rw [List.getD_eq_getElem _ _ (by rwa [List.length_mapIdx]),List.getElem_mapIdx,List.getD_eq_getElem _ _ h]

theorem mapIdx_eq_map_range (l : List α) (f : Nat → α → β) (d : α) :
    l.mapIdx f = (List.range l.length).map fun i => f i (l.getD i d) := by
  refine List.ext_getElem (by simp) fun i hi _ => ?_
  rw [List.length_mapIdx] at hi
  rw [List.getElem_mapIdx,List.getElem_map,List.getElem_range,List.getD_eq_getElem _ d hi]

theorem map_eq_map_range (l : List α) (f : α → β) (d : α) :
    l.map f = (List.range l.length).map fun i => f (l.getD i d) := by
  refine List.ext_getElem (by simp) fun i hi _ => ?_
  rw [List.length_map] at hi
  rw [List.getElem_map,List.getElem_map,List.getElem_range,List.getD_eq_getElem _ d hi]

/-- The cells `1 ..= n` of a list, all rewritten from the old list. -/
def rewriteCells (l : List α) (n : Nat) (cell : Nat → Option α) : Option (List α) := do
  let cells ← (List.range' 1 n).mapM cell
  pure (l.take 1 ++ cells ++ l.drop (n + 1))

theorem rewriteCells_eq (l : List α) (n : Nat) (cell : Nat → Option α) (g : Nat → α → α) (d : α)
    (hn : n < l.length) (h : ∀ j, 1 ≤ j → j ≤ n → cell j = some (g j (l.getD j d))) :
    rewriteCells l n cell = some (l.mapIdx fun j x => if 1 ≤ j ∧ j ≤ n then g j x else x) := by
  have hcells : (List.range' 1 n).mapM cell = some ((List.range' 1 n).map fun j => g j (l.getD j d)) := by
    refine mapM_eq_some fun j hj => ?_
    obtain ⟨h1,h2⟩ := List.mem_range'_1.1 hj
    exact h j h1 (by omega)
  rw [rewriteCells,hcells]
  refine congrArg some (List.ext_getElem ?_ fun i hi hi' => ?_)
  · simp
    omega
  · rw [List.length_mapIdx] at hi'
    have hone : (l.take 1).length = 1 := by
      rw [List.length_take]
      omega
    have hhead : (l.take 1 ++ (List.range' 1 n).map fun j => g j (l.getD j d)).length = n + 1 := by
      rw [List.length_append,hone,List.length_map,List.length_range',Nat.add_comm]
    rw [List.getElem_mapIdx]
    by_cases hin : i < n + 1
    · rw [List.getElem_append_left (by rwa [hhead])]
      by_cases h0 : i = 0
      · subst h0
        rw [List.getElem_append_left (by omega),List.getElem_take,if_neg (by omega)]
      · rw [List.getElem_append_right (by omega),if_pos (by omega)]
        simp only [hone,List.getElem_map,List.getElem_range',Nat.one_mul,Nat.add_sub_cancel' (Nat.pos_of_ne_zero h0)]
        rw [List.getD_eq_getElem l d hi']
    · rw [List.getElem_append_right (by omega),if_neg (by omega),List.getElem_drop]
      congr 1
      omega

end
end MfskCore.Library
