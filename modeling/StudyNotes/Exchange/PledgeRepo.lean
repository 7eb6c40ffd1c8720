import Mathlib.Algebra.Ring.Int.Defs
import Mathlib.Data.Int.Range
import Mathlib.Data.List.Chain
import StudyNotes.Exchange.Calendars

namespace StudyNotes.Exchange.PledgeRepo

open Dates.BusinessDays Calendars

def capitalOccupationDays (tradeDate repoDays : Int) : Int :=
  let ibCalender := exChina .SSE
  let entryDate := ibCalender.adjust (tradeDate + 1)
  let expiredDate := tradeDate + repoDays
  let expiredLiquidate := ibCalender.adjust expiredDate
  let entryDateBack := ibCalender.advance expiredLiquidate 1
  entryDateBack - entryDate

/-- The day on which the money of a repo arrives. -/
def entryDate (tradeDate : Int) : Int := (exChina .SSE).adjust (tradeDate + 1)

def liquidateDate (tradeDate repoDays : Int) : Int := (exChina .SSE).adjust (tradeDate + repoDays)

/-- The day on which the money is back. -/
def refundDate (tradeDate repoDays : Int) : Int := (exChina .SSE).advance (liquidateDate tradeDate repoDays) 1

theorem capitalOccupationDays_eq (t n : Int) : capitalOccupationDays t n = refundDate t n - entryDate t := rfl

/-- Money that comes back on a clearing day goes out as that day's entry. -/
theorem refundDate_eq_entryDate (t n : Int) : refundDate t n = entryDate (liquidateDate t n) := rfl

theorem entryDate_lt_refundDate {t n : Int} (hn : 1 ≤ n) : entryDate t < refundDate t n := by
  have hstart : entryDate t ≤ liquidateDate t n := Calendar.adjust_mono (Int.add_le_add_left hn t)
  exact Int.lt_of_le_of_lt hstart (Calendar.lt_next _ _)

theorem refundDate_mono (t : Int) {m n : Int} (h : m ≤ n) : refundDate t m ≤ refundDate t n :=
  Calendar.next_mono (Calendar.adjust_mono (Int.add_le_add_left h t))

structure Repo where
  tradeDate : Int
  repoDays : Int
  pos : 1 ≤ repoDays

namespace Repo

def entry (r : Repo) : Int := entryDate r.tradeDate

def refund (r : Repo) : Int := refundDate r.tradeDate r.repoDays

def occupation (r : Repo) : Int := capitalOccupationDays r.tradeDate r.repoDays

/-- The next repo is traded on the day on which this one is cleared. -/
def Follows (r next : Repo) : Prop := next.tradeDate = (exChina .SSE).adjust (r.tradeDate + r.repoDays)

theorem Follows.entry_eq {r next : Repo} (h : Follows r next) : next.entry = r.refund := by
  rw [refund, refundDate_eq_entryDate, entry, h, liquidateDate]

end Repo

theorem sum_occupation (first : Repo) (rest : List Repo) (hchain : List.IsChain Repo.Follows (first :: rest)) :
    ((first :: rest).map Repo.occupation).sum =
      ((first :: rest).getLast (List.cons_ne_nil first rest)).refund - first.entry := by
  induction rest generalizing first with
  | nil =>
      rw [List.map_singleton, List.sum_singleton, List.getLast_singleton]
      rfl
  | cons second rest ih =>
      rw [List.isChain_cons_cons] at hchain
      have hfirst : first.occupation = first.refund - first.entry := rfl
      rw [List.map_cons, List.sum_cons, ih second hchain.2, List.getLast_cons (List.cons_ne_nil second rest), hfirst,
        hchain.1.entry_eq]
      omega

/-- Every repo occupies its money for a day at least, for longer the longer it runs, and the days of
a chain of repos are those from its first entry to its last refund. -/
theorem occupation_periods_tile :
    (∀ t n, 1 ≤ n → 1 ≤ capitalOccupationDays t n) ∧
    (∀ t m n, 1 ≤ m → m ≤ n → capitalOccupationDays t m ≤ capitalOccupationDays t n) ∧
    ∀ (first : Repo) (rest : List Repo), List.IsChain Repo.Follows (first :: rest) →
      ((first :: rest).map Repo.occupation).sum =
        ((first :: rest).getLast (List.cons_ne_nil first rest)).refund - first.entry := by
  refine ⟨fun t n hn => ?_, fun t m n _ hmn => ?_, sum_occupation⟩
  · have hlt := entryDate_lt_refundDate (t := t) hn
    rw [capitalOccupationDays_eq]
    omega
  · have hle := refundDate_mono t hmn
    rw [capitalOccupationDays_eq, capitalOccupationDays_eq]
    omega

/-- Three days that end on a Saturday, so that the repo is cleared on the Monday. -/
def overWeekend : Repo := ⟨date 25 september 2019, 3, by decide⟩

def overNationalDay : Repo := ⟨date 30 september 2019, 1, by decide⟩

theorem overWeekend_follows : Repo.Follows overWeekend overNationalDay :=
  (Calendar.adjust_eq (by decide +kernel) (by decide +kernel) (by decide +kernel)).symm

theorem occupation_periods_tile_september :
    ([overWeekend, overNationalDay].map Repo.occupation).sum = overNationalDay.refund - overWeekend.entry :=
  occupation_periods_tile.2.2 overWeekend [overNationalDay] (by simpa using overWeekend_follows)

end StudyNotes.Exchange.PledgeRepo
