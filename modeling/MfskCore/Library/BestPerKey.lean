import Mathlib.Data.List.Induction
import Mathlib.Data.List.Nodup
import Mathlib.Data.List.Perm.Basic
import Mathlib.Order.Defs.Unbundled

/-! A scan that keeps the best value of every key: a value takes the place of the one with its key when it is better,
and a new key goes to the end. What is kept does not depend on the order when no two values of a key are tied. -/
namespace MfskCore.Library
variable {α κ : Type*} [DecidableEq κ] (key : α → κ) (better : α → α → Bool)

/-- One value of the scan. -/
def improve (r : α) : List α → List α
  | [] => [r]
  | x :: kept => if key x = key r then (if better r x then r else x) :: kept else x :: improve r kept

def bestPerKey (values : List α) : List α := values.foldl (fun kept r => improve key better r kept) []

/-- Values of one key are never tied. -/
def NoTies (values : List α) : Prop :=
  values.Pairwise fun r s => key r = key s → better r s = true ∨ better s r = true

/-- The value beats every other one of its key. -/
def Best (values : List α) (r : α) : Prop := r ∈ values ∧ ∀ s ∈ values, key s = key r → s = r ∨ better r s = true

section Improve
variable {key better}

theorem improve_of_new {r : α} {kept : List α} (h : key r ∉ kept.map key) : improve key better r kept = kept ++ [r] := by
  induction kept with
  | nil => rfl
  | cons x kept ih =>
    rw [List.map_cons,List.mem_cons,not_or] at h
    rw [improve,if_neg (Ne.symm h.1),ih h.2,List.cons_append]

/-- The place of a known key is where it first stands. -/
theorem improve_of_known (better : α → α → Bool) {r : α} {kept : List α} (h : key r ∈ kept.map key) :
    ∃ before x after, kept = before ++ x :: after ∧ key x = key r ∧
      improve key better r kept = before ++ (if better r x then r else x) :: after := by
  induction kept with
  | nil => exact absurd h List.not_mem_nil
  | cons x kept ih =>
    by_cases hkey : key x = key r
    · exact ⟨[],x,kept,rfl,hkey,by rw [improve,if_pos hkey]; rfl⟩
    · obtain ⟨before,y,after,rfl,hy,himprove⟩ := ih ((List.mem_cons.1 h).resolve_left (Ne.symm hkey))
      exact ⟨x :: before,y,after,rfl,hy,by rw [improve,if_neg hkey,himprove,List.cons_append]⟩

theorem map_key_improve (r : α) (kept : List α) : (improve key better r kept).map key =
    if key r ∈ kept.map key then kept.map key else kept.map key ++ [key r] := by
  split
  case isTrue h =>
    obtain ⟨before,x,after,rfl,hx,himprove⟩ := improve_of_known better h
    rw [himprove,List.map_append,List.map_append,List.map_cons,List.map_cons,apply_ite key,hx,ite_self]
  case isFalse h => rw [improve_of_new h,List.map_append,List.map_singleton]

/-- What is left after a value: itself, if it beats the one of its key, and whatever it does not beat. -/
theorem mem_improve {r y : α} {kept : List α} (hkept : (kept.map key).Nodup) (hy : y ∈ improve key better r kept) :
    (y = r ∧ ∀ x ∈ kept, key x = key r → better r x = true) ∨
      (y ∈ kept ∧ (key y = key r → better r y = false)) := by
  by_cases hknown : key r ∈ kept.map key
  · obtain ⟨before,x,after,rfl,hx,himprove⟩ := improve_of_known better hknown
    have hunique : ∀ z ∈ before ++ x :: after, key z = key r → z = x := fun z hz hkey =>
      List.inj_on_of_nodup_map hkept hz (by simp) (hkey.trans hx.symm)
    by_cases hbeats : better r x = true
    · rw [himprove,if_pos hbeats,List.mem_append,List.mem_cons] at hy
      have hrest (hmem : y ∈ before ++ after) : y ∈ before ++ x :: after ∧ (key y = key r → better r y = false) := by
        rw [List.map_append,List.map_cons,List.nodup_middle,← List.map_append,List.nodup_cons,hx] at hkept
        refine ⟨?_,fun hkey => absurd (hkey ▸ List.mem_map_of_mem hmem) hkept.1⟩
        rw [List.mem_append,List.mem_cons]
        exact (List.mem_append.1 hmem).imp_right .inr
      rcases hy with hy | rfl | hy
      · exact .inr (hrest (List.mem_append_left _ hy))
      · exact .inl ⟨rfl,fun z hz hkey => by rwa [hunique z hz hkey]⟩
      · exact .inr (hrest (List.mem_append_right _ hy))
    · rw [himprove,if_neg hbeats] at hy
      refine .inr ⟨hy,fun hkey => ?_⟩
      rw [hunique y hy hkey]
      exact Bool.eq_false_iff.2 hbeats
  · have hother : ∀ x ∈ kept, key x ≠ key r := fun x hx hkey => hknown (hkey ▸ List.mem_map_of_mem hx)
    rw [improve_of_new hknown,List.mem_append,List.mem_singleton] at hy
    rcases hy with hy | rfl
    · exact .inr ⟨hy,fun hkey => absurd hkey (hother y hy)⟩
    · exact .inl ⟨rfl,fun x hx hkey => absurd hkey (hother x hx)⟩

end Improve

theorem bestPerKey_concat (values : List α) (r : α) :
    bestPerKey key better (values ++ [r]) = improve key better r (bestPerKey key better values) := by
  rw [bestPerKey,List.foldl_append]
  rfl

/-- Every key once, in the order of first appearance. -/
theorem map_key_bestPerKey [BEq κ] [LawfulBEq κ] (values : List α) :
    (bestPerKey key better values).map key = (values.map key).eraseDups := by
  induction values using List.reverseRecOn with
  | nil => rfl
  | append_singleton values r ih =>
    rw [bestPerKey_concat,map_key_improve,ih,List.map_append,List.eraseDups_append,List.map_singleton]
    by_cases h : key r ∈ values.map key
    · rw [if_pos (List.mem_eraseDups.2 h),List.removeAll,List.filter_singleton]
      simp [h]
    · rw [if_neg (mt List.mem_eraseDups.1 h),List.removeAll,List.filter_singleton]
      simp [h,List.eraseDups_cons]

theorem nodup_bestPerKey (values : List α) : ((bestPerKey key better values).map key).Nodup := by
  induction values using List.reverseRecOn with
  | nil => exact List.nodup_nil
  | append_singleton values r ih =>
    rw [bestPerKey_concat,map_key_improve]
    split
    case isTrue => exact ih
    case isFalse hnew => exact List.nodup_append.2 ⟨ih,List.nodup_singleton _,by simpa using hnew⟩

section Best
variable {key better} {values : List α}

theorem exists_of_key (key : α → κ) (better : α → α → Bool) {r : α} (hr : r ∈ values) : ∃ x ∈ bestPerKey key better values, key x = key r := by
  have hmem : key r ∈ (bestPerKey key better values).map key := by
    rw [map_key_bestPerKey,List.mem_eraseDups]
    exact List.mem_map_of_mem hr
  exact List.mem_map.1 hmem

omit [DecidableEq κ] in
theorem Best.unique (hasymm : ∀ r s, better r s = true → ¬ better s r = true) {r s : α} (hr : Best key better values r)
    (hs : Best key better values s) (hkey : key r = key s) : r = s := by
  rcases hr.2 s hs.1 hkey.symm with heq | hrs
  · exact heq.symm
  · exact (hs.2 r hr.1 hkey).resolve_right (hasymm r s hrs)

variable (htrans : ∀ r s t, better r s = true → better s t = true → better r t = true)
include htrans

/-- Without ties, what the scan keeps is the best of its key. -/
theorem best_of_mem (hties : NoTies key better values) {r : α} (hr : r ∈ bestPerKey key better values) :
    Best key better values r := by
  induction values using List.reverseRecOn generalizing r with
  | nil => exact absurd hr List.not_mem_nil
  | append_singleton values last ih =>
    obtain ⟨hbefore,-,hlast⟩ := List.pairwise_append.1 hties
    rw [bestPerKey_concat] at hr
    rcases mem_improve (nodup_bestPerKey key better values) hr with ⟨rfl,hbeats⟩ | ⟨hkept,hnot⟩
    · refine ⟨List.mem_append_right _ (List.mem_singleton_self r),fun s hs hkey => ?_⟩
      rcases List.mem_append.1 hs with hs | hs
      · -- It beats the one that was kept, which beats the others.
        obtain ⟨x,hx,hxs⟩ := exists_of_key key better hs
        have hrx := hbeats x hx (hxs.trans hkey)
        rcases (ih hbefore hx).2 s hs hxs.symm with rfl | hsx
        · exact .inr hrx
        · exact .inr (htrans _ _ _ hrx hsx)
      · exact .inl (List.mem_singleton.1 hs)
    · have hbest := ih hbefore hkept
      refine ⟨List.mem_append_left _ hbest.1,fun s hs hkey => ?_⟩
      rcases List.mem_append.1 hs with hs | hs
      · exact hbest.2 s hs hkey
      · rw [List.mem_singleton.1 hs] at hkey ⊢
        have hor := hlast r hbest.1 last (List.mem_singleton_self last) hkey.symm
        exact .inr (hor.resolve_right (by simp [hnot hkey.symm]))

variable (hasymm : ∀ r s, better r s = true → ¬ better s r = true)
include hasymm

theorem mem_bestPerKey_iff (hties : NoTies key better values) {r : α} :
    r ∈ bestPerKey key better values ↔ Best key better values r := by
  refine ⟨best_of_mem htrans hties,fun h => ?_⟩
  obtain ⟨x,hx,hkey⟩ := exists_of_key key better h.1
  rwa [← Best.unique hasymm (best_of_mem htrans hties hx) h hkey]

/-- The order of the values does not matter to what is kept. -/
theorem bestPerKey_perm {values' : List α} (hperm : values'.Perm values) (hties : NoTies key better values) :
    (bestPerKey key better values').Perm (bestPerKey key better values) := by
  have hties' : NoTies key better values' :=
    (List.Perm.pairwise_iff (fun h hkey => (h hkey.symm).symm) hperm).2 hties
  refine (List.perm_ext_iff_of_nodup (List.Nodup.of_map _ (nodup_bestPerKey key better values'))
    (List.Nodup.of_map _ (nodup_bestPerKey key better values))).2 fun r => ?_
  rw [mem_bestPerKey_iff htrans hasymm hties',mem_bestPerKey_iff htrans hasymm hties,Best,Best,hperm.mem_iff]
  simp only [hperm.mem_iff]

/-- Values that come after better ones take no place from them. -/
theorem mem_bestPerKey_append {rest : List α} (hties : NoTies key better (values ++ rest))
    (hlater : ∀ r ∈ values, ∀ s ∈ rest, better s r = false) {r : α} (hr : r ∈ bestPerKey key better values) :
    r ∈ bestPerKey key better (values ++ rest) := by
  obtain ⟨hvalues,-,hrest⟩ := List.pairwise_append.1 hties
  have hbest := best_of_mem htrans hvalues hr
  refine (mem_bestPerKey_iff htrans hasymm hties).2 ⟨List.mem_append_left _ hbest.1,fun s hs hkey => ?_⟩
  rcases List.mem_append.1 hs with hs | hs
  · exact hbest.2 s hs hkey
  · have hor := hrest r hbest.1 s hs hkey.symm
    exact .inr (hor.resolve_right (by simp [hlater r hbest.1 s hs]))

end Best

end MfskCore.Library
