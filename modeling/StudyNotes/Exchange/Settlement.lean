import StudyNotes.Exchange.PledgeRepo

namespace StudyNotes.Exchange.Settlement

open Dates.BusinessDays Calendars PledgeRepo

def calcFirstSettlementDate (tradeDate : Int) (tn : ClearSpeed) : Int :=
  match tn with
  | .T0 => tradeDate
  | .T1 => (exChina .SSE).adjust (tradeDate + tn.days)

/-- The speed is a parameter, but nothing depends on it. -/
def calcExpireSettlementDate (tradeDate repoDays : Int) (_speed : ClearSpeed) : Int :=
  let expireDate := tradeDate + repoDays
  (exChina .SSE).adjust expireDate

/-- The money occupied up to the business day after the expiry settlement date. -/
theorem capitalOccupationDays_eq_next (t n : Int) (speed : ClearSpeed) :
    capitalOccupationDays t n =
      (exChina .SSE).next (calcExpireSettlementDate t n speed) - calcFirstSettlementDate t .T1 := rfl

/-- The occupation days never are the days between the two settlement dates: they count up to the
business day after the second one. -/
theorem occupation_disagrees (tradeDate repoDays : Int) :
    capitalOccupationDays tradeDate repoDays =
      (exChina .SSE).advance (calcExpireSettlementDate tradeDate repoDays .T1) 1 - calcFirstSettlementDate tradeDate .T1 ∧
    capitalOccupationDays tradeDate repoDays ≠
      calcExpireSettlementDate tradeDate repoDays .T1 - calcFirstSettlementDate tradeDate .T1 := by
  refine ⟨capitalOccupationDays_eq_next tradeDate repoDays .T1, ?_⟩
  have hlt := Calendar.lt_next (exChina .SSE) (calcExpireSettlementDate tradeDate repoDays .T1)
  rw [capitalOccupationDays_eq_next tradeDate repoDays .T1]
  omega

/-- A repo of one day that is traded on a Wednesday occupies its money from the Thursday to the Friday, but
both of its settlement dates are the Thursday. -/
theorem occupation_disagrees_overnight :
    capitalOccupationDays (date 25 september 2019) 1 = 1 ∧
      calcExpireSettlementDate (date 25 september 2019) 1 .T1 - calcFirstSettlementDate (date 25 september 2019) .T1 = 0 := by
  have hthursday : (exChina .SSE).adjust (date 25 september 2019 + 1) = date 26 september 2019 :=
    Calendar.adjust_eq (by decide +kernel) (by decide +kernel) (by decide +kernel)
  have hfriday : (exChina .SSE).next (date 26 september 2019) = date 27 september 2019 :=
    Calendar.adjust_eq (by decide +kernel) (by decide +kernel) (by decide +kernel)
  have hfirst : calcFirstSettlementDate (date 25 september 2019) .T1 = date 26 september 2019 := hthursday
  have hexpire : calcExpireSettlementDate (date 25 september 2019) 1 .T1 = date 26 september 2019 := hthursday
  refine ⟨?_, by rw [hexpire, hfirst, Int.sub_self]⟩
  rw [capitalOccupationDays_eq_next _ _ .T1, hexpire, hfirst, hfriday]
  decide +kernel

end StudyNotes.Exchange.Settlement
