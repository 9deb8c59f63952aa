import Mathlib.Algebra.BigOperators.Intervals
import Mathlib.Algebra.Order.BigOperators.Group.Finset
import Mathlib.Algebra.Order.Ring.Int
import Mathlib.Data.Int.ConditionallyCompleteOrder
import Mathlib.Data.Prod.Lex
import Mathlib.Order.SuccPred.LinearLocallyFinite

/-! The proleptic Gregorian calendar: leap years by the 4/100/400 rule, the lengths of the months, and the days
counted one by one from the first of January of a year. -/
namespace MfskCore.Library.Gregorian

def IsLeap (y : Int) : Prop := 4 ∣ y ∧ (¬100 ∣ y ∨ 400 ∣ y)

instance (y : Int) : Decidable (IsLeap y) := inferInstanceAs (Decidable (_ ∧ _))

def yearLength (y : Int) : Nat := if IsLeap y then 366 else 365

def monthLength (y : Int) (m : Nat) : Nat :=
  if m = 2 then (if IsLeap y then 29 else 28) else if m = 4 ∨ m = 6 ∨ m = 9 ∨ m = 11 then 30 else 31

/-- The days from the start of year `epoch` to the start of year `y`, year by year. One of the two sums is
empty. -/
def daysToYear (epoch y : Int) : Int :=
  (∑ i ∈ Finset.range (y - epoch).toNat,(yearLength (epoch + i) : Int)) -
    ∑ i ∈ Finset.range (epoch - y).toNat,(yearLength (epoch - 1 - i) : Int)

/-- The days of a year before the start of its month `m`, month by month. -/
def daysToMonth (y : Int) (m : Nat) : Nat := ∑ i ∈ Finset.range (m - 1),monthLength y (i + 1)

/-- A day of the calendar. -/
@[ext] structure Date where
  year : Int
  month : Nat
  day : Nat
  month_pos : 1 ≤ month
  month_le : month ≤ 12
  day_pos : 1 ≤ day
  day_le : day ≤ monthLength year month

namespace Date

/-- The days from the first day of `epoch`. -/
def dayNumber (epoch : Int) (d : Date) : Int :=
  daysToYear epoch d.year + daysToMonth d.year d.month + (d.day - 1 : Nat)

/-- Year, month, day, compared in this order. -/
def key (d : Date) : Int ×ₗ Nat ×ₗ Nat := toLex (d.year,toLex (d.month,d.day))

end Date

section Years

@[simp] theorem daysToYear_self (epoch : Int) : daysToYear epoch epoch = 0 := by
  simp [daysToYear]

theorem daysToYear_succ (epoch y : Int) : daysToYear epoch (y + 1) = daysToYear epoch y + yearLength y := by
  rcases Int.lt_or_le y epoch with hy | hy
  · have hn : (epoch - y).toNat = (epoch - (y + 1)).toNat + 1 := by omega
    have hafter : (y - epoch).toNat = 0 := by omega
    have hafter' : (y + 1 - epoch).toNat = 0 := by omega
    have hlast : epoch - 1 - ((epoch - (y + 1)).toNat : Int) = y := by omega
    rw [daysToYear,daysToYear,hn,hafter,hafter',Finset.sum_range_succ,hlast]
    omega
  · have hn : (y + 1 - epoch).toNat = (y - epoch).toNat + 1 := by omega
    have hbefore : (epoch - y).toNat = 0 := by omega
    have hbefore' : (epoch - (y + 1)).toNat = 0 := by omega
    have hlast : epoch + ((y - epoch).toNat : Int) = y := by omega
    rw [daysToYear,daysToYear,hn,hbefore,hbefore',Finset.sum_range_succ,hlast]
    omega

/-- The leap years before `y`, counted from the year 1. -/
def leapsBefore (y : Int) : Int := (y - 1) / 4 - (y - 1) / 100 + (y - 1) / 400

theorem leapsBefore_succ (y : Int) : leapsBefore (y + 1) = leapsBefore y + if IsLeap y then 1 else 0 := by
  unfold leapsBefore
  by_cases h : IsLeap y
  · rw [if_pos h]
    unfold IsLeap at h
    omega
  · rw [if_neg h]
    unfold IsLeap at h
    omega

theorem daysToYear_eq (epoch y : Int) :
    daysToYear epoch y = 365 * (y - epoch) + leapsBefore y - leapsBefore epoch := by
  have hstep (y : Int) : 365 * (y + 1 - epoch) + leapsBefore (y + 1) - leapsBefore epoch =
      365 * (y - epoch) + leapsBefore y - leapsBefore epoch + yearLength y := by
    rw [leapsBefore_succ,yearLength]
    split <;> omega
  induction y using Int.inductionOn' (b := epoch) with
  | zero =>
    rw [daysToYear_self]
    omega
  | succ y _ ih => rw [daysToYear_succ,ih,hstep]
  | pred y _ ih =>
    have hdays := daysToYear_succ epoch (y - 1)
    have hclosed := hstep (y - 1)
    rw [Int.sub_add_cancel] at hdays hclosed
    omega

theorem daysToYear_strictMono (epoch : Int) : StrictMono (daysToYear epoch) := by
  refine strictMono_int_of_lt_succ fun y => ?_
  rw [daysToYear_succ,yearLength]
  split <;> omega

end Years

section Months

theorem daysToMonth_succ {m : Nat} (hm : 1 ≤ m) (y : Int) :
    daysToMonth y (m + 1) = daysToMonth y m + monthLength y m := by
  obtain ⟨m,rfl⟩ := Nat.exists_eq_add_of_le' hm
  exact Finset.sum_range_succ _ _

theorem daysToMonth_mono (y : Int) : Monotone (daysToMonth y) := fun _ _ h =>
  Finset.sum_le_sum_of_subset (Finset.range_mono (Nat.sub_le_sub_right h 1))

theorem daysToMonth_end (y : Int) : daysToMonth y 13 = yearLength y := by
  by_cases h : IsLeap y <;>
    simp [daysToMonth,Finset.sum_range_succ,monthLength,yearLength,h]

end Months

namespace Date

theorem dayNumber_lt_month (epoch : Int) (d : Date) :
    d.dayNumber epoch < daysToYear epoch d.year + daysToMonth d.year (d.month + 1) := by
  have hday := d.day_le
  have hpos := d.day_pos
  rw [dayNumber,daysToMonth_succ d.month_pos]
  omega

theorem dayNumber_lt_year (epoch : Int) (d : Date) : d.dayNumber epoch < daysToYear epoch (d.year + 1) := by
  have hmonth := daysToMonth_mono d.year (show d.month + 1 ≤ 13 by have := d.month_le; omega)
  have hlt := d.dayNumber_lt_month epoch
  rw [daysToMonth_end] at hmonth
  rw [daysToYear_succ]
  omega

/-- Later dates have larger day numbers. -/
theorem dayNumber_lt_of_key {epoch : Int} {d e : Date} (h : d.key < e.key) :
    d.dayNumber epoch < e.dayNumber epoch := by
  rw [key,key,Prod.Lex.toLex_lt_toLex,Prod.Lex.toLex_lt_toLex] at h
  obtain hyear | ⟨hyear,hmonth | ⟨hmonth,hday⟩⟩ := h
  · have hyears := (daysToYear_strictMono epoch).monotone (show d.year + 1 ≤ e.year from hyear)
    have hlt := d.dayNumber_lt_year epoch
    rw [dayNumber.eq_def epoch e]
    omega
  · have hyear : d.year = e.year := hyear
    have hmonths := daysToMonth_mono e.year (show d.month + 1 ≤ e.month from hmonth)
    have hlt := d.dayNumber_lt_month epoch
    rw [hyear] at hlt
    rw [dayNumber.eq_def epoch e]
    omega
  · have hyear : d.year = e.year := hyear
    have hmonth : d.month = e.month := hmonth
    have hday : d.day < e.day := hday
    have hpos := d.day_pos
    rw [dayNumber,dayNumber,hyear,hmonth]
    omega

end Date

end MfskCore.Library.Gregorian
