import MfskCore.Library.Checked
import Mathlib.Data.List.Nodup

/-! Writes at places of a buffer that are all different: each place keeps what is written there, and the other cells
stay. -/
namespace MfskCore.Library
variable {α : Type*}

/-- Every pair is a place and what is written there. -/
def place (writes : List (Nat × α)) (buf : List α) : List α := writes.foldl (fun buf w => buf.set w.1 w.2) buf

@[simp] theorem length_place (writes : List (Nat × α)) (buf : List α) : (place writes buf).length = buf.length := by
  induction writes generalizing buf with
  | nil => rfl
  | cons w writes ih => rw [place,List.foldl_cons,← place,ih,List.length_set]

theorem place_append (ws vs : List (Nat × α)) (buf : List α) : place (ws ++ vs) buf = place vs (place ws buf) :=
  List.foldl_append

theorem getElem?_place_of_notMem {writes : List (Nat × α)} (buf : List α) {j : Nat}
    (h : j ∉ writes.map Prod.fst) : (place writes buf)[j]? = buf[j]? := by
  induction writes generalizing buf with
  | nil => rfl
  | cons w writes ih =>
    rw [List.map_cons,List.mem_cons,not_or] at h
    rw [place,List.foldl_cons,← place,ih _ h.2,List.getElem?_set_ne (Ne.symm h.1)]

theorem getElem?_place {writes : List (Nat × α)} {buf : List α} (hnodup : (writes.map Prod.fst).Nodup) {j : Nat}
    {a : α} (hmem : (j,a) ∈ writes) (hj : j < buf.length) : (place writes buf)[j]? = some a := by
  induction writes generalizing buf with
  | nil => cases hmem
  | cons w writes ih =>
    rw [List.map_cons,List.nodup_cons] at hnodup
    rw [place,List.foldl_cons,← place]
    rcases List.mem_cons.1 hmem with rfl | hmem
    · rw [getElem?_place_of_notMem _ hnodup.1,List.getElem?_set_self hj]
    · exact ih hnodup.2 hmem (by rwa [List.length_set])

/-- Writes that are checked are the writes when every place is in the buffer. -/
theorem foldlM_checkedSet_place {writes : List (Nat × α)} {buf : List α} (h : ∀ w ∈ writes, w.1 < buf.length) :
    writes.foldlM (fun buf w => checkedSet buf w.1 w.2) buf = some (place writes buf) := by
  refine (foldlM_eq_some (fun b : List α => b.length = buf.length) (fun w hw b hb => ⟨?_,?_⟩) rfl).1
  · rw [checkedSet_eq (by rw [hb]; exact h w hw)]
  · rw [List.length_set,hb]

end MfskCore.Library
