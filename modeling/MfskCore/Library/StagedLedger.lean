import Mathlib.Data.List.Basic
import Mathlib.Data.List.Range

/-! A sink with a bounded queue in front of it: what became of each arrival. What has been sent and what waits is
in the order of arrival as long as nothing is sent past the queue. -/
namespace MfskCore.Library

/-- The arrivals, by their numbers, and their fates. -/
structure Ledger where
  arrivals : Nat
  sent : List Nat
  staged : List Nat
  evicted : List Nat
  refused : List Nat
  complete : (sent ++ staged ++ evicted ++ refused).Perm (List.range arrivals)
  inOrder : (sent ++ staged).Pairwise (· < ·)

namespace Ledger

def empty : Ledger := ⟨0,[],[],[],[],List.Perm.refl [],List.Pairwise.nil⟩

variable (l : Ledger)

theorem lt_arrivals : ∀ i ∈ l.sent ++ l.staged, i < l.arrivals := by
  intro i hi
  have hmem : i ∈ l.sent ++ l.staged ++ l.evicted ++ l.refused :=
    List.mem_append_left _ (List.mem_append_left _ hi)
  exact List.mem_range.1 (l.complete.subset hmem)

theorem inOrder_concat : (l.sent ++ l.staged ++ [l.arrivals]).Pairwise (· < ·) := by
  refine List.pairwise_append.2 ⟨l.inOrder,List.pairwise_singleton _ _,fun i hi j hj => ?_⟩
  rw [List.mem_singleton.1 hj]
  exact l.lt_arrivals i hi

/-- The fates of one more arrival. -/
theorem complete_succ {fates : List Nat}
    (h : fates.Perm ((l.sent ++ l.staged ++ l.evicted ++ l.refused) ++ [l.arrivals])) :
    fates.Perm (List.range (l.arrivals + 1)) := by
  rw [List.range_succ]
  exact h.trans (l.complete.append_right _)

/-- The queue is sent, and the new arrival after it. -/
def deliver : Ledger where
  arrivals := l.arrivals + 1
  sent := l.sent ++ l.staged ++ [l.arrivals]
  staged := []
  evicted := l.evicted
  refused := l.refused
  complete := l.complete_succ (List.perm_iff_count.2 fun a => by simp only [List.count_append,List.count_nil]; omega)
  inOrder := by rw [List.append_nil]; exact l.inOrder_concat

/-- The new arrival joins the queue. -/
def stage : Ledger where
  arrivals := l.arrivals + 1
  sent := l.sent
  staged := l.staged ++ [l.arrivals]
  evicted := l.evicted
  refused := l.refused
  complete := l.complete_succ (List.perm_iff_count.2 fun a => by simp only [List.count_append]; omega)
  inOrder := by rw [← List.append_assoc]; exact l.inOrder_concat

/-- The new arrival joins the queue and the oldest leaves it. -/
def stageOver : Ledger where
  arrivals := l.arrivals + 1
  sent := l.sent
  staged := l.staged.drop 1 ++ [l.arrivals]
  evicted := l.evicted ++ l.staged.take 1
  refused := l.refused
  complete := l.complete_succ (List.perm_iff_count.2 fun a => by
    have hsplit := congrArg (List.count a) (List.take_append_drop 1 l.staged)
    simp only [List.count_append] at hsplit ⊢
    omega)
  inOrder := by
    rw [← List.append_assoc]
    exact l.inOrder_concat.sublist (((List.Sublist.refl _).append (List.drop_sublist 1 _)).append (List.Sublist.refl _))

/-- The new arrival is turned away. -/
def refuse : Ledger where
  arrivals := l.arrivals + 1
  sent := l.sent
  staged := l.staged
  evicted := l.evicted
  refused := l.refused ++ [l.arrivals]
  complete := l.complete_succ (by rw [← List.append_assoc])
  inOrder := l.inOrder

/-- The queue is sent. -/
def drain : Ledger where
  arrivals := l.arrivals
  sent := l.sent ++ l.staged
  staged := []
  evicted := l.evicted
  refused := l.refused
  complete := by rw [List.append_nil]; exact l.complete
  inOrder := by rw [List.append_nil]; exact l.inOrder

end Ledger

end MfskCore.Library
