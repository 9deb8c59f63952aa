import MfskCore.Library.Gregorian
import MfskCore.Rust.Int64
import Mathlib.Tactic.IntervalCases

/-! Calendar time from Unix seconds (`civil_time.rs`). The days are counted from the first of March of the year
0, in eras of 400 years, so that a leap day is the last of its year; the years of an era come from a quotient
that grows with the day, so only the first and the last day of each year are compared. -/
namespace MfskCore.App
open Rust Library Gregorian

/-- `(year, month, day, hour, minute, second)`. -/
structure CivilTime where
  year : Int
  month : Nat
  day : Nat
  hour : Nat
  minute : Nat
  second : Nat
  deriving DecidableEq

/-- `(doe - doe / 1460 + doe / 36_524 - doe / 146_096) / 365`; `none` where an operation overflows. -/
def yearOfEra (doe : Nat) : Option Nat := do
  let a ← checkedU64 ((doe : Int) - (doe / 1460 : Nat))
  let b ← checkedU64 ((a : Int) + (doe / 36524 : Nat))
  let c ← checkedU64 ((b : Int) - (doe / 146096 : Nat))
  return c / 365

/-- `doe - (365 * yoe + yoe / 4 - yoe / 100)`. -/
def dayOfYear (doe yoe : Nat) : Option Nat := do
  let a ← checkedU64 (365 * (yoe : Int))
  let b ← checkedU64 ((a : Int) + (yoe / 4 : Nat))
  let c ← checkedU64 ((b : Int) - (yoe / 100 : Nat))
  checkedU64 ((doe : Int) - c)

/-- The month and the day of the month, `doy` days after the first of March. -/
def monthAndDay (doy : Nat) : Option (Nat × Nat) := do
  let a ← checkedU64 (5 * (doy : Int))
  let b ← checkedU64 ((a : Int) + 2)
  let mp := b / 153
  let c ← checkedU64 (153 * (mp : Int))
  let d ← checkedU64 ((c : Int) + 2)
  let e ← checkedU64 ((doy : Int) - (d / 5 : Nat))
  let day ← checkedU64 ((e : Int) + 1)
  let month ← checkedU64 (if mp < 10 then (mp : Int) + 3 else (mp : Int) - 9)
  return (asU32 month,asU32 day)

/-- `civil_from_unix` with the checks of a debug build. -/
def civilFromUnix (epochSecs : Int) : Option CivilTime := do
  let days := epochSecs / 86400
  let secsOfDay := epochSecs % 86400
  let hour := asU32 (secsOfDay.tdiv 3600)
  let minute := asU32 ((secsOfDay.tdiv 60).tmod 60)
  let second := asU32 (secsOfDay.tmod 60)
  let z ← checkedI64 (days + 719468)
  let shifted ← checkedI64 (if z ≥ 0 then z else z - 146096)
  let era := shifted.tdiv 146097
  let start ← checkedI64 (era * 146097)
  let rest ← checkedI64 (z - start)
  let doe := asU64 rest
  let yoe ← yearOfEra doe
  let years ← checkedI64 (era * 400)
  let y ← checkedI64 (asI64 yoe + years)
  let doy ← dayOfYear doe yoe
  let (month,day) ← monthAndDay doy
  let year ← checkedI64 (if month ≤ 2 then y + 1 else y)
  return ⟨year,month,day,hour,minute,second⟩

namespace CivilTime

/-- A date of the calendar and a time of the day. -/
structure Valid (c : CivilTime) : Prop where
  month_pos : 1 ≤ c.month
  month_le : c.month ≤ 12
  day_pos : 1 ≤ c.day
  day_le : c.day ≤ monthLength c.year c.month
  hour : c.hour < 24
  minute : c.minute < 60
  second : c.second < 60

/-- The seconds since the start of 1970, the days counted one by one. -/
def toUnix (c : CivilTime) : Int :=
  86400 * (daysToYear 1970 c.year + daysToMonth c.year c.month + (c.day - 1 : Nat)) +
    (3600 * c.hour + 60 * c.minute + c.second : Nat)

/-- The fields, compared in their order. -/
def key (c : CivilTime) : Int ×ₗ Nat ×ₗ Nat ×ₗ Nat ×ₗ Nat ×ₗ Nat :=
  toLex (c.year,toLex (c.month,toLex (c.day,toLex (c.hour,toLex (c.minute,c.second)))))

def date (c : CivilTime) (h : c.Valid) : Date :=
  ⟨c.year,c.month,c.day,h.month_pos,h.month_le,h.day_pos,h.day_le⟩

end CivilTime

section YearOfEra

/-- The quotient the year of an era is read from, `365` for each year. -/
def yearQuotient (doe : Nat) : Nat := doe - doe / 1460 + doe / 36524 - doe / 146096

/-- The days of an era before its year `yoe`. -/
def marchYear (yoe : Nat) : Nat := 365 * yoe + yoe / 4 - yoe / 100 + yoe / 400

theorem yearQuotient_mono : Monotone yearQuotient := by
  refine monotone_nat_of_le_succ fun d => ?_
  unfold yearQuotient
  omega

/-- The first day of a year reaches its quotient, and the day before does not. -/
private theorem quotient_ends : ∀ yoe < 400, 365 * (yoe + 1) ≤ yearQuotient (marchYear (yoe + 1)) ∧
    yearQuotient (marchYear (yoe + 1) - 1) < 365 * (yoe + 1) := by
  decide +kernel

/-- The year a day of the era lies in. -/
theorem yearOfEra_spec {doe : Nat} (h : doe < 146097) :
    yearQuotient doe / 365 < 400 ∧ marchYear (yearQuotient doe / 365) ≤ doe ∧
      doe < marchYear (yearQuotient doe / 365 + 1) := by
  have hlast : yearQuotient doe ≤ 145999 := yearQuotient_mono (show doe ≤ 146096 by omega)
  have hyear : yearQuotient doe / 365 < 400 := by omega
  refine ⟨hyear,?_,?_⟩
  · by_contra hbefore
    obtain hzero | ⟨n,hn⟩ : yearQuotient doe / 365 = 0 ∨ ∃ n, yearQuotient doe / 365 = n + 1 := by
      cases yearQuotient doe / 365 with
      | zero => exact .inl rfl
      | succ n => exact .inr ⟨n,rfl⟩
    · rw [hzero] at hbefore
      exact hbefore (Nat.zero_le doe)
    · rw [hn] at hbefore hyear
      have hle := yearQuotient_mono (show doe ≤ marchYear (n + 1) - 1 by omega)
      have hlt := (quotient_ends n (by omega)).2
      omega
  · by_contra hafter
    have hle := yearQuotient_mono (Nat.le_of_not_lt hafter)
    have hfirst := (quotient_ends _ hyear).1
    omega

theorem marchYear_succ {yoe : Nat} (era : Int) (h : yoe < 400) :
    marchYear (yoe + 1) = marchYear yoe + yearLength (yoe + era * 400 + 1) := by
  unfold marchYear yearLength
  by_cases hleap : IsLeap (yoe + era * 400 + 1)
  · rw [if_pos hleap]
    unfold IsLeap at hleap
    omega
  · rw [if_neg hleap]
    unfold IsLeap at hleap
    omega

/-- The start of the March year, by the days since 1970. -/
theorem daysToYear_march {yoe : Nat} (era : Int) (h : yoe < 400) :
    daysToYear 1970 (yoe + era * 400 + 1) = 146097 * era + marchYear yoe - 719162 := by
  rw [daysToYear_eq]
  unfold leapsBefore marchYear
  omega

end YearOfEra

section MonthOfYear

/-- The month, `doy` days after the first of March. -/
def marchMonth (doy : Nat) : Nat := if (5 * doy + 2) / 153 < 10 then (5 * doy + 2) / 153 + 3 else (5 * doy + 2) / 153 - 9

def marchDay (doy : Nat) : Nat := doy - (153 * ((5 * doy + 2) / 153) + 2) / 5 + 1

/-- January and February belong to the next year. -/
def marchOwner (y : Int) (doy : Nat) : Int := if marchMonth doy ≤ 2 then y + 1 else y

theorem daysToMonth_march (y : Int) {mp : Nat} (h : mp < 10) :
    daysToMonth y (mp + 3) = 31 + monthLength y 2 + (153 * mp + 2) / 5 := by
  interval_cases mp <;> simp [daysToMonth,Finset.sum_range_succ,monthLength]

theorem monthLength_march (y : Int) {mp : Nat} (h : mp < 10) :
    (153 * mp + 2) / 5 + monthLength y (mp + 3) = (153 * (mp + 1) + 2) / 5 := by
  interval_cases mp <;> simp [monthLength]

private theorem yearLength_eq (y : Int) : yearLength y = 337 + monthLength y 2 := by
  by_cases h : IsLeap y <;> simp [yearLength,monthLength,h]

/-- The date is one of the calendar, and its day number is that of the March day. -/
theorem march_date {y : Int} {doy : Nat} (h : doy < yearLength (y + 1)) :
    (1 ≤ marchMonth doy ∧ marchMonth doy ≤ 12 ∧ 1 ≤ marchDay doy ∧
      marchDay doy ≤ monthLength (marchOwner y doy) (marchMonth doy)) ∧
    daysToYear 1970 (marchOwner y doy) + daysToMonth (marchOwner y doy) (marchMonth doy) + (marchDay doy - 1 : Nat) =
      daysToYear 1970 (y + 1) - 306 + doy := by
  have hlength := yearLength_eq (y + 1)
  have hfeb : monthLength (y + 1) 2 ≤ 29 := by
    by_cases hleap : IsLeap (y + 1) <;> simp [monthLength,hleap]
  rcases Nat.lt_or_ge ((5 * doy + 2) / 153) 10 with hmp | hmp
  · have hmonth : marchMonth doy = (5 * doy + 2) / 153 + 3 := if_pos hmp
    have howner : marchOwner y doy = y := if_neg (by rw [hmonth]; omega)
    have hsum := monthLength_march y hmp
    have hyear := yearLength_eq y
    rw [howner,hmonth,marchDay,daysToMonth_march y hmp,daysToYear_succ]
    refine ⟨⟨?_,?_,?_,?_⟩,?_⟩ <;> omega
  · have hmonth : marchMonth doy = (5 * doy + 2) / 153 - 9 := if_neg (Nat.not_lt.2 hmp)
    have howner : marchOwner y doy = y + 1 := if_pos (by rw [hmonth]; omega)
    rw [howner,hmonth,marchDay]
    obtain hmp | hmp : (5 * doy + 2) / 153 = 10 ∨ (5 * doy + 2) / 153 = 11 := by omega
    · have hdays : daysToMonth (y + 1) (10 - 9) = 0 := rfl
      have hjan : monthLength (y + 1) (10 - 9) = 31 := rfl
      rw [hmp,hdays,hjan]
      refine ⟨⟨?_,?_,?_,?_⟩,?_⟩ <;> omega
    · have hdays : daysToMonth (y + 1) (11 - 9) = 31 := daysToMonth_succ (Nat.le_refl 1) (y + 1)
      rw [hmp,hdays,show 11 - 9 = 2 from rfl]
      refine ⟨⟨?_,?_,?_,?_⟩,?_⟩ <;> omega

end MonthOfYear

/-- The day `doe` of an era lies in the March year the code finds, which starts where it says. -/
theorem march_day (era : Int) {doe yoe : Nat} (hdoe : doe < 146097) (hyoe : yearQuotient doe / 365 = yoe) :
    yoe < 400 ∧ 365 * yoe + yoe / 4 - yoe / 100 ≤ doe ∧
      doe - (365 * yoe + yoe / 4 - yoe / 100) < yearLength (yoe + era * 400 + 1) ∧
      daysToYear 1970 (yoe + era * 400 + 1) - 306 + (doe - (365 * yoe + yoe / 4 - yoe / 100) : Nat) =
        era * 146097 + doe - 719468 := by
  obtain ⟨hlt,hfirst,hlast⟩ := yearOfEra_spec hdoe
  rw [hyoe] at hlt hfirst hlast
  have hmarch : marchYear yoe = 365 * yoe + yoe / 4 - yoe / 100 := by
    unfold marchYear
    omega
  rw [marchYear_succ era hlt] at hlast
  rw [hmarch] at hfirst hlast
  refine ⟨hlt,hfirst,by omega,?_⟩
  rw [daysToYear_march era hlt,hmarch]
  omega

/-- `if z >= 0 { z } else { z - 146_096 } / 146_097` rounds down. -/
private theorem era_eq (z : Int) : (if z ≥ 0 then z else z - 146096).tdiv 146097 = z / 146097 := by
  split
  · exact Int.tdiv_eq_ediv_of_nonneg ‹_›
  · have hsign : Int.sign 146097 = 1 := rfl
    rw [Int.tdiv_eq_ediv,hsign]
    split <;> omega

section Checks

private theorem checkedU64_of {x : Int} {n : Nat} (h : x = n) (hn : n < 2^64) : checkedU64 x = some n := by
  rw [h,checkedU64_eq hn]

theorem yearOfEra_eq {doe : Nat} (h : doe < 146097) : yearOfEra doe = some (yearQuotient doe / 365) := by
  have hlast : checkedU64 ((doe - doe / 1460 + doe / 36524 : Nat) - (doe / 146096 : Nat) : Int) =
      some (yearQuotient doe) := by
    unfold yearQuotient
    exact checkedU64_of (by omega) (by omega)
  simp only [yearOfEra,Option.bind_eq_bind]
  rw [checkedU64_of (n := doe - doe / 1460) (by omega) (by omega),Option.bind_some,
    checkedU64_of (n := doe - doe / 1460 + doe / 36524) (by omega) (by omega),Option.bind_some,hlast]
  rfl

theorem dayOfYear_eq {doe yoe : Nat} (hdoe : doe < 146097) (hyoe : yoe < 400)
    (h : 365 * yoe + yoe / 4 - yoe / 100 ≤ doe) :
    dayOfYear doe yoe = some (doe - (365 * yoe + yoe / 4 - yoe / 100)) := by
  simp only [dayOfYear,Option.bind_eq_bind]
  rw [checkedU64_of (n := 365 * yoe) (by omega) (by omega),Option.bind_some,
    checkedU64_of (n := 365 * yoe + yoe / 4) (by omega) (by omega),Option.bind_some,
    checkedU64_of (n := 365 * yoe + yoe / 4 - yoe / 100) (by omega) (by omega),Option.bind_some]
  exact checkedU64_of (by omega) (by omega)

theorem monthAndDay_eq {doy : Nat} (h : doy ≤ 365) : monthAndDay doy = some (marchMonth doy,marchDay doy) := by
  have hmonth : checkedU64 (if (5 * doy + 2) / 153 < 10 then (((5 * doy + 2) / 153 : Nat) : Int) + 3
      else (((5 * doy + 2) / 153 : Nat) : Int) - 9) = some (marchMonth doy) := by
    unfold marchMonth
    split <;> exact checkedU64_of (by omega) (by omega)
  have hday : checkedU64 ((doy - (153 * ((5 * doy + 2) / 153) + 2) / 5 : Nat) + 1 : Int) = some (marchDay doy) :=
    checkedU64_of (by unfold marchDay; omega) (by unfold marchDay; omega)
  have hmonth32 : marchMonth doy < 2^32 := by
    unfold marchMonth
    split <;> omega
  have hday32 : marchDay doy < 2^32 := by
    unfold marchDay
    omega
  simp only [monthAndDay,Option.bind_eq_bind]
  rw [checkedU64_of (n := 5 * doy) (by omega) (by omega),Option.bind_some,
    checkedU64_of (n := 5 * doy + 2) (by omega) (by omega),Option.bind_some,
    checkedU64_of (n := 153 * ((5 * doy + 2) / 153)) (by omega) (by omega),Option.bind_some,
    checkedU64_of (n := 153 * ((5 * doy + 2) / 153) + 2) (by omega) (by omega),Option.bind_some,
    checkedU64_of (n := doy - (153 * ((5 * doy + 2) / 153) + 2) / 5) (by omega) (by omega),Option.bind_some,
    hday,Option.bind_some,hmonth,Option.bind_some,asU32_eq hmonth32,asU32_eq hday32]
  rfl

/-- The time of the day, from nonnegative seconds. -/
private theorem time_eq {s : Int} (hlo : 0 ≤ s) (hhi : s < 86400) :
    asU32 (s.tdiv 3600) = (s / 3600).toNat ∧ asU32 ((s.tdiv 60).tmod 60) = (s / 60 % 60).toNat ∧
      asU32 (s.tmod 60) = (s % 60).toNat := by
  rw [Int.tdiv_eq_ediv_of_nonneg hlo,Int.tdiv_eq_ediv_of_nonneg hlo,Int.tmod_eq_emod_of_nonneg hlo,
    Int.tmod_eq_emod_of_nonneg (by omega)]
  unfold asU32
  omega

/-- No operation overflows. -/
theorem civilFromUnix_eq {t era : Int} (ht : IsI64 t) {doe yoe doy : Nat}
    (hera : (t / 86400 + 719468) / 146097 = era) (hdoe : (t / 86400 + 719468) % 146097 = doe)
    (hyoe : yearQuotient doe / 365 = yoe) (hdoy : doe - (365 * yoe + yoe / 4 - yoe / 100) = doy) :
    civilFromUnix t = some ⟨marchOwner (yoe + era * 400) doy,marchMonth doy,marchDay doy,
      (t % 86400 / 3600).toNat,(t % 86400 / 60 % 60).toNat,(t % 86400 % 60).toNat⟩ := by
  obtain ⟨hlo,hhi⟩ := ht
  have hlt : doe < 146097 := by omega
  obtain ⟨hyoe400,hfirst,hlength,-⟩ := march_day era hlt hyoe
  have hshift : checkedI64 (if t / 86400 + 719468 ≥ 0 then t / 86400 + 719468 else t / 86400 + 719468 - 146096) =
      some (if t / 86400 + 719468 ≥ 0 then t / 86400 + 719468 else t / 86400 + 719468 - 146096) :=
    checkedI64_eq (by split <;> exact ⟨by omega,by omega⟩)
  have hrest : t / 86400 + 719468 - era * 146097 = (doe : Int) := by omega
  have hdoy365 : doy ≤ 365 := by
    have hle : yearLength (yoe + era * 400 + 1) ≤ 366 := by
      unfold yearLength
      split <;> omega
    omega
  have hyear : checkedI64 (if marchMonth doy ≤ 2 then yoe + era * 400 + 1 else yoe + era * 400) =
      some (marchOwner (yoe + era * 400) doy) :=
    checkedI64_eq (by split <;> exact ⟨by omega,by omega⟩)
  obtain ⟨hhour,hminute,hsecond⟩ := time_eq (s := t % 86400) (by omega) (by omega)
  simp only [civilFromUnix,Option.bind_eq_bind]
  rw [checkedI64_eq (x := t / 86400 + 719468) ⟨by omega,by omega⟩,Option.bind_some,hshift,Option.bind_some,era_eq,hera,
    checkedI64_eq (x := era * 146097) ⟨by omega,by omega⟩,Option.bind_some,hrest,
    checkedI64_eq (x := (doe : Int)) ⟨by omega,by omega⟩,Option.bind_some,asU64_eq (by omega),yearOfEra_eq hlt,
    Option.bind_some,hyoe,checkedI64_eq (x := era * 400) ⟨by omega,by omega⟩,Option.bind_some,asI64_eq (by omega),
    checkedI64_eq (x := yoe + era * 400) ⟨by omega,by omega⟩,Option.bind_some,dayOfYear_eq hlt hyoe400 hfirst,
    Option.bind_some,hdoy,monthAndDay_eq hdoy365,Option.bind_some,hyear,Option.bind_some,hhour,hminute,hsecond]
  rfl

end Checks

section Calendar

theorem CivilTime.toUnix_eq {c : CivilTime} (h : c.Valid) :
    c.toUnix = 86400 * (c.date h).dayNumber 1970 + (3600 * c.hour + 60 * c.minute + c.second : Nat) := rfl

/-- Later times have more seconds. -/
theorem CivilTime.toUnix_lt_of_key {c d : CivilTime} (hc : c.Valid) (hd : d.Valid) (h : c.key < d.key) :
    c.toUnix < d.toUnix := by
  have htime : ((c.date hc).key < (d.date hd).key) ∨ (c.date hc = d.date hd ∧
      3600 * c.hour + 60 * c.minute + c.second < 3600 * d.hour + 60 * d.minute + d.second) := by
    have hminute := hc.minute
    have hsecond := hc.second
    simp only [CivilTime.key,Prod.Lex.toLex_lt_toLex] at h
    rw [Date.key,Date.key,Prod.Lex.toLex_lt_toLex,Prod.Lex.toLex_lt_toLex,Date.ext_iff]
    obtain hy | ⟨hy,hm | ⟨hm,hday | ⟨hday,hrest⟩⟩⟩ := h
    · exact .inl (.inl hy)
    · exact .inl (.inr ⟨hy,.inl hm⟩)
    · exact .inl (.inr ⟨hy,.inr ⟨hm,hday⟩⟩)
    · exact .inr ⟨⟨hy,hm,hday⟩,by omega⟩
  have hhour := hc.hour
  have hminute := hc.minute
  have hsecond := hc.second
  rw [CivilTime.toUnix_eq hc,CivilTime.toUnix_eq hd]
  obtain hdate | ⟨hdate,htime⟩ := htime
  · have hdays := @Date.dayNumber_lt_of_key 1970 _ _ hdate
    omega
  · rw [hdate]
    omega

theorem CivilTime.key_injective {c d : CivilTime} (h : c.key = d.key) : c = d := by
  simp only [CivilTime.key,toLex_inj,Prod.mk.injEq] at h
  obtain ⟨hy,hm,hday,hhour,hminute,hsecond⟩ := h
  cases c
  cases d
  simp_all

theorem civilFromUnix_spec {t : Int} (ht : IsI64 t) : ∃ c, civilFromUnix t = some c ∧ c.Valid ∧ c.toUnix = t := by
  obtain ⟨doe,hdoe⟩ := Int.eq_ofNat_of_zero_le (Int.emod_nonneg (t / 86400 + 719468) (show (146097 : Int) ≠ 0 by decide))
  have hlt : doe < 146097 := by omega
  obtain ⟨-,-,hlength,hdays⟩ := march_day ((t / 86400 + 719468) / 146097) hlt rfl
  obtain ⟨⟨hm1,hm12,hd1,hdlen⟩,hnumber⟩ := march_date hlength
  refine ⟨_,civilFromUnix_eq ht rfl hdoe rfl rfl,⟨hm1,hm12,hd1,hdlen,?_,?_,?_⟩,?_⟩
  · show (t % 86400 / 3600).toNat < 24
    omega
  · show (t % 86400 / 60 % 60).toNat < 60
    omega
  · show (t % 86400 % 60).toNat < 60
    omega
  · rw [CivilTime.toUnix]
    simp only [hnumber,hdays]
    omega

/-- Every `i64` time has a date of the calendar that counts back to it, found without overflow, and later times
have later dates. -/
theorem civil_from_unix_gregorian {t : Int} (ht : IsI64 t) :
    ∃ c, civilFromUnix t = some c ∧ c.Valid ∧ c.toUnix = t ∧
      ∀ t', t < t' → IsI64 t' → ∃ c', civilFromUnix t' = some c' ∧ c.key < c'.key := by
  obtain ⟨c,hc,hvalid,hunix⟩ := civilFromUnix_spec ht
  refine ⟨c,hc,hvalid,hunix,fun t' hlt ht' => ?_⟩
  obtain ⟨c',hc',hvalid',hunix'⟩ := civilFromUnix_spec ht'
  refine ⟨c',hc',?_⟩
  rcases lt_trichotomy c.key c'.key with hkey | hkey | hkey
  · exact hkey
  · rw [CivilTime.key_injective hkey,hunix'] at hunix
    exact absurd hlt (hunix ▸ lt_irrefl _)
  · have hback := CivilTime.toUnix_lt_of_key hvalid' hvalid hkey
    rw [hunix,hunix'] at hback
    exact absurd hback (lt_asymm hlt)

theorem civil_from_unix_gregorian_leap_day :
    ∃ c, civilFromUnix 951782399 = some c ∧ c.Valid ∧ c.toUnix = 951782399 ∧
      ∃ c', civilFromUnix 951782400 = some c' ∧ c.key < c'.key := by
  obtain ⟨c,hc,hvalid,hunix,hlater⟩ := civil_from_unix_gregorian (t := 951782399) ⟨by decide,by decide⟩
  exact ⟨c,hc,hvalid,hunix,hlater _ (by decide) ⟨by decide,by decide⟩⟩

example : civilFromUnix 951782400 = some ⟨2000,2,29,0,0,0⟩ := by decide

example : civilFromUnix (-1) = some ⟨1969,12,31,23,59,59⟩ := by decide

end Calendar

end MfskCore.App
