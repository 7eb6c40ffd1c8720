import Mathlib.Data.Int.Init
import Mathlib.Data.Int.Order.Basic

namespace StudyNotes.Dates.Gregorian

def marchStart (y : Int) : Int := 365 * y + y / 4 - y / 100 + y / 400

theorem marchStart_add_one (y : Int) :
    marchStart y + 365 ≤ marchStart (y + 1) ∧ marchStart (y + 1) ≤ marchStart y + 366 := by
  have hfour : (y + 1) / 4 = y / 4 ∧ (y + 1) % 4 ≠ 0 ∨ (y + 1) / 4 = y / 4 + 1 ∧ (y + 1) % 4 = 0 := by omega
  have hcentury : (y + 1) / 100 = y / 100 ∧ (y + 1) % 100 ≠ 0 ∨ (y + 1) / 100 = y / 100 + 1 ∧ (y + 1) % 100 = 0 := by
    omega
  have hera : (y + 1) / 400 = y / 400 ∧ (y + 1) % 400 ≠ 0 ∨ (y + 1) / 400 = y / 400 + 1 ∧ (y + 1) % 400 = 0 := by omega
  simp only [marchStart]
  omega

/-- The day on which a month starts. The months are numbered through the years, 12 * y for January
of the year y, and the days so that 1 January 1901 has the number 367. -/
def monthStart (i : Int) : Int := marchStart ((i - 2) / 12) + (153 * ((i - 2) % 12) + 2) / 5 - 693899

theorem monthStart_add_one (i : Int) :
    monthStart i + 28 ≤ monthStart (i + 1) ∧ monthStart (i + 1) ≤ monthStart i + 31 := by
  by_cases hlast : (i - 2) % 12 = 11
  · have hyear : (i + 1 - 2) / 12 = (i - 2) / 12 + 1 := by omega
    have hmonth : (i + 1 - 2) % 12 = 0 := by omega
    have hmarch := marchStart_add_one ((i - 2) / 12)
    rw [monthStart, monthStart, hyear, hmonth, hlast]
    omega
  · have hyear : (i + 1 - 2) / 12 = (i - 2) / 12 := by omega
    have hmonth : (i + 1 - 2) % 12 = (i - 2) % 12 + 1 := by omega
    rw [monthStart, monthStart, hyear, hmonth]
    omega

/-- The length of a month is near 146097 / 4800 days. -/
theorem monthStart_near (i : Int) :
    146097 * i - 310000 ≤ 4800 * (monthStart i + 693899) ∧ 4800 * (monthStart i + 693899) ≤ 146097 * i - 268000 := by
  simp only [monthStart, marchStart]
  omega

theorem monthStart_lt {i j : Int} (h : i < j) : monthStart i + 28 ≤ monthStart j := by
  induction j, h using Int.leInduction with
  | base => exact (monthStart_add_one i).1
  | succ j _ ih =>
      have hnext := (monthStart_add_one j).1
      omega

theorem monthStart_mono {i j : Int} (h : i ≤ j) : monthStart i ≤ monthStart j := by
  rcases Int.lt_or_eq_of_le h with h | rfl
  · have hlt := monthStart_lt h
    omega
  · exact Int.le_refl _

def monthOf (n : Int) : Int :=
  let i := (4800 * (n + 693899) + 310000) / 146097
  if n < monthStart i then i - 1 else i

theorem monthStart_monthOf (n : Int) : monthStart (monthOf n) ≤ n ∧ n < monthStart (monthOf n + 1) := by
  have h := monthStart_near ((4800 * (n + 693899) + 310000) / 146097 - 1)
  have h' := monthStart_near ((4800 * (n + 693899) + 310000) / 146097 + 1)
  simp only [monthOf]
  split
  · rw [Int.sub_add_cancel]
    omega
  · omega

theorem monthOf_eq {n i : Int} (hstart : monthStart i ≤ n) (hend : n < monthStart (i + 1)) : monthOf n = i := by
  have h := monthStart_monthOf n
  apply Int.le_antisymm
  · rw [← Int.not_lt]
    intro hlt
    have hmono := monthStart_mono (show i + 1 ≤ monthOf n from hlt)
    omega
  · rw [← Int.not_lt]
    intro hlt
    have hmono := monthStart_mono (show monthOf n + 1 ≤ i from hlt)
    omega

def year (n : Int) : Int := monthOf n / 12
def month (n : Int) : Int := monthOf n % 12 + 1
def dayOfMonth (n : Int) : Int := n - monthStart (monthOf n) + 1

/-- The day of the week, 1 for Sunday to 7 for Saturday. -/
def weekday (n : Int) : Int := if n % 7 = 0 then 7 else n % 7

theorem dayOfMonth_eq {n i : Int} (hstart : monthStart i ≤ n) (hend : n < monthStart (i + 1)) :
    dayOfMonth n = n - monthStart i + 1 := by
  rw [dayOfMonth, monthOf_eq hstart hend]

theorem year_mono {n k : Int} (h : n ≤ k) : year n ≤ year k := by
  have hmonth : monthOf n ≤ monthOf k := by
    rw [← Int.not_lt]
    intro hlt
    have hmono := monthStart_mono (show monthOf k + 1 ≤ monthOf n from hlt)
    have hn := (monthStart_monthOf n).1
    have hk := (monthStart_monthOf k).2
    omega
  rw [year, year]
  omega

example : (weekday 43733, dayOfMonth 43733, month 43733, year 43733) = (4, 25, 9, 2019) := by decide +kernel

end StudyNotes.Dates.Gregorian
