import StudyNotes.Dates.BusinessDays
import StudyNotes.Dates.Gregorian

namespace StudyNotes.Exchange.Calendars

open Dates.BusinessDays Dates.Gregorian

def january : Int := 1
def february : Int := 2
def march : Int := 3
def april : Int := 4
def may : Int := 5
def june : Int := 6
def september : Int := 9
def october : Int := 10
def december : Int := 12

def sunday : Int := 1
def saturday : Int := 7

/-- The number of a date; its arguments come in the order of the source. -/
def date (d m y : Int) : Int := monthStart (12 * y + (m - 1)) + (d - 1)

def isWeekend (w : Int) : Bool := w == saturday || w == sunday

section holidays

def newYearsDay (y m d : Int) : Bool :=
  (d == 1 && m == january) ||
    (y == 2005 && d == 3 && m == january) ||
    (y == 2006 && (d == 2 || d == 3) && m == january) ||
    (y == 2007 && d ≤ 3 && m == january) ||
    (y == 2007 && d == 31 && m == december) ||
    (y == 2009 && d == 2 && m == january) ||
    (y == 2011 && d == 3 && m == january) ||
    (y == 2012 && (d == 2 || d == 3) && m == january) ||
    (y == 2013 && d ≤ 3 && m == january) ||
    (y == 2014 && d == 1 && m == january) ||
    (y == 2015 && d ≤ 3 && m == january) ||
    (y == 2017 && d == 2 && m == january) ||
    (y == 2018 && d == 1 && m == january) ||
    (y == 2018 && d == 31 && m == december) ||
    (y == 2019 && d == 1 && m == january)

def chineseNewYear (y m d : Int) : Bool :=
  (y == 2004 && d ≥ 19 && d ≤ 28 && m == january) ||
    (y == 2005 && d ≥ 7 && d ≤ 15 && m == february) ||
    (y == 2006 && ((d ≥ 26 && m == january) || (d ≤ 3 && m == february))) ||
    (y == 2007 && d ≥ 17 && d ≤ 25 && m == february) ||
    (y == 2008 && d ≥ 6 && d ≤ 12 && m == february) ||
    (y == 2009 && d ≥ 26 && d ≤ 30 && m == january) ||
    (y == 2010 && d ≥ 15 && d ≤ 19 && m == february) ||
    (y == 2011 && d ≥ 2 && d ≤ 8 && m == february) ||
    (y == 2012 && d ≥ 23 && d ≤ 28 && m == january) ||
    (y == 2013 && d ≥ 11 && d ≤ 15 && m == february) ||
    (y == 2014 && d ≥ 31 && m == january) ||
    (y == 2014 && d ≤ 6 && m == february) ||
    (y == 2015 && d ≥ 18 && d ≤ 24 && m == february) ||
    (y == 2016 && d ≥ 8 && d ≤ 12 && m == february) ||
    (y == 2017 && ((d ≥ 27 && m == january) || (d ≤ 2 && m == february))) ||
    (y == 2018 && (d ≥ 15 && d ≤ 21 && m == february)) ||
    (y == 2019 && d ≥ 4 && d ≤ 8 && m == february)

def chingMingFestival (y m d : Int) : Bool :=
  (y ≤ 2008 && d == 4 && m == april) ||
    (y == 2009 && d == 6 && m == april) ||
    (y == 2010 && d == 5 && m == april) ||
    (y == 2011 && d ≥ 3 && d ≤ 5 && m == april) ||
    (y == 2012 && d ≥ 2 && d ≤ 4 && m == april) ||
    (y == 2013 && d ≥ 4 && d ≤ 5 && m == april) ||
    (y == 2014 && d == 7 && m == april) ||
    (y == 2015 && d ≥ 5 && d ≤ 6 && m == april) ||
    (y == 2016 && d == 4 && m == april) ||
    (y == 2017 && d ≥ 3 && d ≤ 4 && m == april) ||
    (y == 2018 && d ≥ 5 && d ≤ 6 && m == april) ||
    (y == 2019 && d == 5 && m == april)

def laborDay (y m d : Int) : Bool :=
  (y ≤ 2007 && d ≥ 1 && d ≤ 7 && m == may) ||
    (y == 2008 && d ≥ 1 && d ≤ 2 && m == may) ||
    (y == 2009 && d == 1 && m == may) ||
    (y == 2010 && d == 3 && m == may) ||
    (y == 2011 && d == 2 && m == may) ||
    (y == 2012 && ((d == 30 && m == april) || (d == 1 && m == may))) ||
    (y == 2013 && ((d ≥ 29 && m == april) || (d == 1 && m == may))) ||
    (y == 2014 && d ≥ 1 && d ≤ 3 && m == may) ||
    (y == 2015 && d == 1 && m == may) ||
    (y == 2016 && d ≥ 1 && d ≤ 2 && m == may) ||
    (y == 2017 && d == 1 && m == may) ||
    (y == 2018 && ((d == 30 && m == april) || (d == 1 && m == may))) ||
    (y == 2019 && d ≥ 1 && d ≤ 3 && m == may)

def tuenNgFestival (y m d : Int) : Bool :=
  (y ≤ 2008 && d == 9 && m == june) ||
    (y == 2009 && (d == 28 || d == 29) && m == may) ||
    (y == 2010 && d ≥ 14 && d ≤ 16 && m == june) ||
    (y == 2011 && d ≥ 4 && d ≤ 6 && m == june) ||
    (y == 2012 && d ≥ 22 && d ≤ 24 && m == june) ||
    (y == 2013 && d ≥ 10 && d ≤ 12 && m == june) ||
    (y == 2014 && d == 2 && m == june) ||
    (y == 2015 && d == 22 && m == june) ||
    (y == 2016 && d ≥ 9 && d ≤ 10 && m == june) ||
    (y == 2017 && d ≥ 29 && d ≤ 30 && m == may) ||
    (y == 2018 && d == 18 && m == june) ||
    (y == 2019 && d == 7 && m == june)

def midAutumnFestival (y m d : Int) : Bool :=
  (y ≤ 2008 && d == 15 && m == september) ||
    (y == 2010 && d ≥ 22 && d ≤ 24 && m == september) ||
    (y == 2011 && d ≥ 10 && d ≤ 12 && m == september) ||
    (y == 2012 && d == 30 && m == september) ||
    (y == 2013 && d ≥ 19 && d ≤ 20 && m == september) ||
    (y == 2014 && d == 8 && m == september) ||
    (y == 2015 && d == 27 && m == september) ||
    (y == 2016 && d ≥ 15 && d ≤ 16 && m == september) ||
    (y == 2018 && d == 24 && m == september) ||
    (y == 2019 && d == 13 && m == september)

def nationalDay (y m d : Int) : Bool :=
  (y ≤ 2007 && d ≥ 1 && d ≤ 7 && m == october) ||
    (y == 2008 && ((d ≥ 29 && m == september) || (d ≤ 3 && m == october))) ||
    (y == 2009 && d ≥ 1 && d ≤ 8 && m == october) ||
    (y == 2010 && d ≥ 1 && d ≤ 7 && m == october) ||
    (y == 2011 && d ≥ 1 && d ≤ 7 && m == october) ||
    (y == 2012 && d ≥ 1 && d ≤ 7 && m == october) ||
    (y == 2013 && d ≥ 1 && d ≤ 7 && m == october) ||
    (y == 2014 && d ≥ 1 && d ≤ 7 && m == october) ||
    (y == 2015 && d ≥ 1 && d ≤ 7 && m == october) ||
    (y == 2016 && d ≥ 3 && d ≤ 7 && m == october) ||
    (y == 2017 && d ≥ 2 && d ≤ 6 && m == october) ||
    (y == 2018 && d ≥ 1 && d ≤ 5 && m == october) ||
    (y == 2019 && d ≥ 1 && d ≤ 7 && m == october)

def victoryAnniversary (y m d : Int) : Bool :=
  (y == 2015 && d ≥ 3 && d ≤ 4 && m == september)

def isHoliday (y m d : Int) : Bool :=
  newYearsDay y m d || chineseNewYear y m d || chingMingFestival y m d || laborDay y m d || tuenNgFestival y m d ||
    midAutumnFestival y m d || nationalDay y m d || victoryAnniversary y m d

/-- The tables end with the year 2019. -/
theorem isHoliday_of_recent {y : Int} (hy : 2020 ≤ y) (m d : Int) : isHoliday y m d = (d == 1 && m == january) := by
  have hne (k : Int) (hk : k ≤ 2019) : (y == k) = false := by
    rw [beq_eq_false_iff_ne]
    omega
  have hle (k : Int) (hk : k ≤ 2019) : decide (y ≤ k) = false := by
    rw [decide_eq_false_iff_not]
    omega
  simp [isHoliday, newYearsDay, chineseNewYear, chingMingFestival, laborDay, tuenNgFestival, midAutumnFestival,
    nationalDay, victoryAnniversary, hne, hle]

end holidays

namespace SseImpl

def isBusinessDay (date : Int) : Bool :=
  let w := weekday date
  let d := dayOfMonth date
  let m := month date
  let y := year date
  if isWeekend w || isHoliday y m d then
    false
  else
    true

end SseImpl

namespace IbImpl

def workingWeekends : List Int := [
    date 5 february 2005, date 6 february 2005, date 30 april 2005, date 8 may 2005, date 8 october 2005,
    date 9 october 2005, date 31 december 2005,
    date 28 january 2006, date 29 april 2006, date 30 april 2006, date 30 september 2006, date 30 december 2006,
    date 31 december 2006,
    date 17 february 2007, date 25 february 2007, date 28 april 2007, date 29 april 2007, date 29 september 2007,
    date 30 september 2007, date 29 december 2007,
    date 2 february 2008, date 3 february 2008, date 4 may 2008, date 27 september 2008, date 28 september 2008,
    date 4 january 2009, date 24 january 2009, date 1 february 2009, date 31 may 2009, date 27 september 2009,
    date 10 october 2009,
    date 20 february 2010, date 21 february 2010, date 12 june 2010, date 13 june 2010, date 19 september 2010,
    date 25 september 2010, date 26 september 2010, date 9 october 2010,
    date 30 january 2011, date 12 february 2011, date 2 april 2011, date 8 october 2011, date 9 october 2011,
    date 31 december 2011,
    date 21 january 2012, date 29 january 2012, date 31 march 2012, date 1 april 2012, date 28 april 2012,
    date 29 september 2012,
    date 5 january 2013, date 6 january 2013, date 16 february 2013, date 17 february 2013, date 7 april 2013,
    date 27 april 2013, date 28 april 2013, date 8 june 2013, date 9 june 2013, date 22 september 2013,
    date 29 september 2013, date 12 october 2013,
    date 26 january 2014, date 8 february 2014, date 4 may 2014, date 28 september 2014, date 11 october 2014,
    date 4 january 2015, date 15 february 2015, date 28 february 2015, date 6 september 2015,
    date 10 october 2015,
    date 6 february 2016, date 14 february 2016, date 12 june 2016, date 18 september 2016, date 8 october 2016,
    date 9 october 2016,
    date 22 january 2017, date 4 february 2017, date 1 april 2017, date 27 may 2017, date 30 september 2017,
    date 11 february 2018, date 24 february 2018, date 8 april 2018, date 28 april 2018, date 29 september 2018,
    date 30 september 2018, date 29 december 2018,
    date 2 february 2019, date 3 february 2019, date 28 april 2019, date 5 may 2019, date 29 september 2019,
    date 12 october 2019]

def isBusinessDay (date : Int) : Bool := SseImpl.isBusinessDay date || workingWeekends.contains date

end IbImpl

namespace SzseImpl

def isBusinessDay (date : Int) : Bool := SseImpl.isBusinessDay date

end SzseImpl

/-- The first days of two months are not a week apart. -/
theorem dayOfMonth_add_week {n : Int} (h : dayOfMonth n = 1) : dayOfMonth (n + 7) ≠ 1 := by
  intro h'
  have hstart : n = monthStart (monthOf n) := by
    rw [dayOfMonth] at h
    omega
  have hstart' : n + 7 = monthStart (monthOf (n + 7)) := by
    rw [dayOfMonth] at h'
    omega
  rcases Int.lt_or_le (monthOf n) (monthOf (n + 7)) with hlt | hle
  · have hfar := monthStart_lt hlt
    omega
  · have hback := monthStart_mono hle
    omega

theorem isBusinessDay_of_wednesday {n : Int} (hn : date 1 january 2020 ≤ n) (hweek : n % 7 = 4)
    (hday : dayOfMonth n ≠ 1) : SseImpl.isBusinessDay n = true := by
  have hyear : 2020 ≤ year n := by
    have hmonth : 12 * 2020 < monthOf n + 1 := by
      rw [← Int.not_le]
      intro hle
      have hback := monthStart_mono hle
      have hend := (monthStart_monthOf n).2
      have hstart : date 1 january 2020 = monthStart (12 * 2020) := by decide +kernel
      omega
    rw [year]
    omega
  have hopen : isWeekend (weekday n) = false := by
    rw [weekday, hweek]
    decide
  simp [SseImpl.isBusinessDay, hopen, isHoliday_of_recent hyear, hday]

/-- There is a Wednesday after the tables that is not the first day of a month. -/
theorem sse_later (d : Int) : ∃ k : Nat, SseImpl.isBusinessDay (d + k) = true := by
  obtain ⟨n, hd, hn, hweek⟩ : ∃ n, d ≤ n ∧ date 1 january 2020 ≤ n ∧ n % 7 = 4 := by
    refine ⟨max d (date 1 january 2020) + (4 - max d (date 1 january 2020)) % 7, ?_, ?_, ?_⟩ <;> omega
  by_cases hday : dayOfMonth n = 1
  · refine ⟨(n + 7 - d).toNat, ?_⟩
    rw [show d + ((n + 7 - d).toNat : Int) = n + 7 by omega]
    exact isBusinessDay_of_wednesday (by omega) (by omega) (dayOfMonth_add_week hday)
  · refine ⟨(n - d).toNat, ?_⟩
    rw [show d + ((n - d).toNat : Int) = n by omega]
    exact isBusinessDay_of_wednesday hn hweek hday

theorem ib_later (d : Int) : ∃ k : Nat, IbImpl.isBusinessDay (d + k) = true := by
  obtain ⟨k, hk⟩ := sse_later d
  exact ⟨k, by rw [IbImpl.isBusinessDay, hk, Bool.true_or]⟩

inductive Market
  | SSE
  | SZSE
  | IB

def exChina : Market → Calendar
  | .SSE => ⟨SseImpl.isBusinessDay, sse_later⟩
  | .SZSE => ⟨SzseImpl.isBusinessDay, sse_later⟩
  | .IB => ⟨IbImpl.isBusinessDay, ib_later⟩

inductive ClearSpeed
  | T0
  | T1

def ClearSpeed.days : ClearSpeed → Nat
  | .T0 => 0
  | .T1 => 1

end StudyNotes.Exchange.Calendars
