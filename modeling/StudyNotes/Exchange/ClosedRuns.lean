import StudyNotes.Exchange.Calendars

namespace StudyNotes.Exchange.ClosedRuns

open Dates.BusinessDays Dates.Gregorian Calendars

/-- The years for which only the clauses without a year, or with an open range of years, apply. -/
def Untabled (y : Int) : Prop := y ≤ 2003 ∨ 2020 ≤ y

/-- The days of a month on which such a year has no holiday. -/
def Quiet (d : Int) : Prop := 8 ≤ d ∧ d ≠ 9 ∧ d ≠ 15

theorem isHoliday_of_quiet {y d : Int} (hy : Untabled y) (hd : Quiet d) (m : Int) : isHoliday y m d = false := by
  obtain ⟨hlow, hnine, hfifteen⟩ := hd
  have hyear (k : Int) (hk : 2004 ≤ k ∧ k ≤ 2019) : (y == k) = false := by
    rw [beq_eq_false_iff_ne]
    rcases hy with hy | hy <;> omega
  have hday (k : Int) (hk : k < 8) : (d == k) = false := by
    rw [beq_eq_false_iff_ne]
    omega
  have hlate (k : Int) (hk : k < 8) : decide (d ≤ k) = false := by
    rw [decide_eq_false_iff_not]
    omega
  simp [isHoliday, newYearsDay, chineseNewYear, chingMingFestival, laborDay, tuenNgFestival, midAutumnFestival,
    nationalDay, victoryAnniversary, hyear, hday, hlate, hnine, hfifteen]

theorem isBusinessDay_of_quiet {n : Int} (hy : Untabled (year n)) (hd : Quiet (dayOfMonth n)) (hweek : 2 ≤ n % 7) :
    SseImpl.isBusinessDay n = true := by
  have hopen : isWeekend (weekday n) = false := by
    rw [weekday, if_neg (by omega), isWeekend, Bool.or_eq_false_iff, beq_eq_false_iff_ne, beq_eq_false_iff_ne]
    constructor <;> simp only [saturday, sunday] <;> omega
  simp [SseImpl.isBusinessDay, hopen, isHoliday_of_quiet hy hd]

theorem exists_weekday (a : Int) : ∃ x, a ≤ x ∧ x ≤ a + 2 ∧ 2 ≤ x % 7 := by
  by_cases h : a % 7 = 0
  · exact ⟨a + 2, by omega, by omega, by omega⟩
  · by_cases h' : a % 7 = 1
    · exact ⟨a + 1, by omega, by omega, by omega⟩
    · exact ⟨a, by omega, by omega, by omega⟩

/-- Among 13 days there is a weekday that is a quiet day of its month. -/
theorem exists_quiet_weekday (n : Int) : ∃ x, n ≤ x ∧ x ≤ n + 12 ∧ 2 ≤ x % 7 ∧ Quiet (dayOfMonth x) := by
  have hmonth := monthStart_monthOf n
  have hlength := monthStart_add_one (monthOf n)
  have hlength' := monthStart_add_one (monthOf n + 1)
  generalize monthOf n = i at hmonth hlength hlength'
  have hthis {x : Int} (hstart : monthStart i ≤ x) (hend : x < monthStart (i + 1)) := dayOfMonth_eq hstart hend
  have hnext {x : Int} (hstart : monthStart (i + 1) ≤ x) (hend : x < monthStart (i + 1 + 1)) := dayOfMonth_eq hstart hend
  -- three days in a row have a weekday among them
  have hthree (a : Int) (hn : n ≤ a) (ha : a ≤ n + 10) (hlow : monthStart i + 9 ≤ a) (hhigh : a + 2 < monthStart (i + 1))
      (hgap : a + 2 < monthStart i + 14 ∨ monthStart i + 14 < a) :
      ∃ x, n ≤ x ∧ x ≤ n + 12 ∧ 2 ≤ x % 7 ∧ Quiet (dayOfMonth x) := by
    obtain ⟨x, hax, hxa, hweek⟩ := exists_weekday a
    refine ⟨x, by omega, by omega, hweek, ?_⟩
    rw [hthis (by omega) (by omega)]
    refine ⟨?_, ?_, ?_⟩ <;> omega
  by_cases hten : n ≤ monthStart i + 9
  · exact hthree (monthStart i + 9) hten (by omega) (by omega) (by omega) (Or.inl (by omega))
  by_cases hsixteen : n ≤ monthStart i + 15
  · exact hthree (monthStart i + 15) hsixteen (by omega) (by omega) (by omega) (Or.inr (by omega))
  by_cases hfar : n + 2 < monthStart (i + 1)
  · exact hthree n (by omega) (by omega) (by omega) hfar (Or.inr (by omega))
  -- the month ends within two days, and the days 8, 10 and 11 of the next one are near enough
  obtain ⟨x, hx, hweek⟩ : ∃ x, (x = monthStart (i + 1) + 7 ∨ x = monthStart (i + 1) + 9 ∨ x = monthStart (i + 1) + 10) ∧
      2 ≤ x % 7 := by
    by_cases height : 2 ≤ (monthStart (i + 1) + 7) % 7
    · exact ⟨_, Or.inl rfl, height⟩
    · exact ⟨_, Or.inr (Or.inl rfl), by omega⟩
  refine ⟨x, by omega, by omega, hweek, ?_⟩
  rw [hnext (by omega) (by omega)]
  refine ⟨?_, ?_, ?_⟩ <;> omega

/-- The last day before the tables, and the last day in them. -/
def lastBefore : Int := date 31 december 2003
def lastTabled : Int := date 31 december 2019

theorem tabled_bridges : bridges SseImpl.isBusinessDay 13 lastTabled 500 lastBefore = true := by decide +kernel

theorem untabled_before {n : Int} (h : n ≤ lastBefore) : Untabled (year n) := by
  have hyear : year lastBefore = 2003 := by decide +kernel
  have hmono := year_mono h
  exact Or.inl (by omega)

theorem untabled_after {n : Int} (h : lastTabled < n) : Untabled (year n) := by
  have hyear : year (lastTabled + 1) = 2020 := by decide +kernel
  have hmono := year_mono (show lastTabled + 1 ≤ n from h)
  exact Or.inr (by omega)

theorem sse_within (n : Int) : ∃ k : Nat, k < 13 ∧ SseImpl.isBusinessDay (n + k) = true := by
  have hquiet (h : ∀ x, n ≤ x → x ≤ n + 12 → Untabled (year x)) :
      ∃ k : Nat, k < 13 ∧ SseImpl.isBusinessDay (n + k) = true := by
    obtain ⟨x, hnx, hxn, hweek, hday⟩ := exists_quiet_weekday n
    refine ⟨(x - n).toNat, by omega, ?_⟩
    rw [show n + ((x - n).toNat : Int) = x by omega]
    exact isBusinessDay_of_quiet (h x hnx hxn) hday hweek
  rcases Int.lt_or_le lastBefore n with hafter | hbefore
  · rcases Int.lt_or_le lastTabled n with hlate | htabled
    · exact hquiet (fun x hx _ => untabled_after (by omega))
    · exact exists_open_of_bridges tabled_bridges hafter htabled
  · rcases Int.lt_or_le (n + 12) lastBefore with hearly | hacross
    · exact hquiet (fun x _ hx => untabled_before (by omega))
    · refine ⟨(lastBefore - n).toNat, by omega, ?_⟩
      rw [show n + ((lastBefore - n).toNat : Int) = lastBefore by omega]
      decide +kernel

/-- No run of closed days is longer than twelve, on any of the three calendars, so the search for the next
business day stops after twelve moves at the latest. -/
theorem closed_runs_short (n : Int) :
    (∃ k : Nat, k < 13 ∧ SseImpl.isBusinessDay (n + k) = true ∧ SzseImpl.isBusinessDay (n + k) = true ∧
      IbImpl.isBusinessDay (n + k) = true) ∧
    ∀ market, (exChina market).adjust n ≤ n + 12 ∧
      following (exChina market).isBusinessDay 12 n = some ((exChina market).adjust n) := by
  obtain ⟨k, hk, hsse⟩ := sse_within n
  have hib : IbImpl.isBusinessDay (n + k) = true := by rw [IbImpl.isBusinessDay, hsse, Bool.true_or]
  refine ⟨⟨k, hk, hsse, hsse, hib⟩, fun market => ?_⟩
  have hopen : (exChina market).isBusinessDay (n + k) = true := by
    cases market with
    | SSE | SZSE => exact hsse
    | IB => exact hib
  have hle : (exChina market).adjust n ≤ n + 12 :=
    Int.le_trans (Calendar.adjust_le (by omega) hopen) (by omega)
  exact ⟨hle, Calendar.following_eq hle⟩

/-- The Chinese New Year of 2004 takes all twelve. -/
example : following SseImpl.isBusinessDay 11 (date 17 january 2004) = none := by decide +kernel

end StudyNotes.Exchange.ClosedRuns
