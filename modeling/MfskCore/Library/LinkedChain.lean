import Mathlib.Data.List.Nodup
import Mathlib.Data.List.Perm.Subperm
import Mathlib.Data.List.Range

/-! Chains of links kept in one list, the way a table of buckets keeps them without allocating: a link is the
place of the next entry, or negative at the end. Entries are only added in front of a chain. -/
namespace MfskCore.Library
variable {next : List Int}

/-- The places a cursor runs through. Every link leads to an earlier place. -/
inductive Chain (next : List Int) : Int → List Nat → Prop where
  | done {cursor : Int} (hend : cursor < 0) : Chain next cursor []
  | link {i : Nat} {cursor : Int} {places : List Nat} (hget : next[i]? = some cursor) (hdown : cursor < i)
      (rest : Chain next cursor places) : Chain next i (i :: places)

namespace Chain

theorem cursor_lt {cursor : Int} {places : List Nat} (h : Chain next cursor places) : cursor < next.length := by
  cases h with
  | done hend => omega
  | link hget _ _ =>
    have hlt := (List.getElem?_eq_some_iff.1 hget).1
    omega

/-- A chain runs downwards. -/
theorem places_le {cursor : Int} {places : List Nat} (h : Chain next cursor places) : ∀ i ∈ places, (i : Int) ≤ cursor := by
  induction h with
  | done _ => simp
  | link _ hdown _ ih =>
    intro j hj
    rcases List.mem_cons.1 hj with rfl | hj
    · exact Int.le_of_lt_add_one (Int.lt_succ _)
    · have hle := ih j hj
      omega

theorem pairwise {cursor : Int} {places : List Nat} (h : Chain next cursor places) :
    places.Pairwise fun i j => j < i := by
  induction h with
  | done _ => exact List.Pairwise.nil
  | link _ hdown rest ih =>
    refine List.pairwise_cons.2 ⟨fun j hj => ?_,ih⟩
    have hle := rest.places_le j hj
    omega

/-- A chain is no longer than the list of links. -/
theorem length_le {cursor : Int} {places : List Nat} (h : Chain next cursor places) : places.length ≤ next.length := by
  have hsub : places ⊆ List.range next.length := by
    intro i hi
    have hle := h.places_le i hi
    have hlt := h.cursor_lt
    rw [List.mem_range]
    omega
  have hnodup : places.Nodup := h.pairwise.imp fun hlt => (Nat.ne_of_lt hlt).symm
  have hperm := (List.subperm_of_subset hnodup hsub).length_le
  rwa [List.length_range] at hperm

/-- More links leave a chain as it was. -/
theorem append {cursor : Int} {places : List Nat} (h : Chain next cursor places) (more : List Int) :
    Chain (next ++ more) cursor places := by
  induction h with
  | done hend => exact .done hend
  | link hget hdown _ ih =>
    have hlt := (List.getElem?_eq_some_iff.1 hget).1
    exact .link ((List.getElem?_append_left hlt).trans hget) hdown ih

/-- An entry put in front of a chain. -/
theorem push {cursor : Int} {places : List Nat} (h : Chain next cursor places) :
    Chain (next ++ [cursor]) next.length (next.length :: places) :=
  .link List.getElem?_concat_length h.cursor_lt (h.append [cursor])

end Chain

end MfskCore.Library
