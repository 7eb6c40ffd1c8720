import Mathlib.Order.Bounds.Basic
import StudyNotes.Lists.Latest
import StudyNotes.Exchange.Calendars

namespace StudyNotes.Exchange.CashBond

open Lists.Latest Dates.BusinessDays Calendars

inductive BusinessDayConvention
  | Following
  | Unadjusted

inductive DateGeneration
  | Forward

/-- The part of QuantLib that the program calls. Nothing is said here about what it computes; the program
gets the date of the last payment through a settlement date, which follows from the evaluation date. -/
structure QuantLib where
  Frequency : Type
  Period : Type
  DayCounter : Type
  Schedule : Type
  FixedRateBond : Type
  period : Frequency → Period
  actual365Fixed : DayCounter
  schedule : (effectiveDate terminationDate : Int) → (tenor : Period) → Calendar →
    (convention terminationDateConvention : BusinessDayConvention) → DateGeneration → (endOfMonth : Bool) → Schedule
  fixedRateBond : (settlementDays : Nat) → (faceAmount : Float) → Schedule → (coupons : List Float) →
    DayCounter → BusinessDayConvention → (redemption : Float) → (issueDate : Int) → FixedRateBond
  cashflows : FixedRateBond → List Int
  settlementDate : FixedRateBond → (evaluationDate : Int) → Int
  nullDate : Int
  previousCashFlowDate : FixedRateBond → (settlement : Int) → Int

/-- What is assumed of the payments of a bond. -/
structure Pays (Q : QuantLib) (bond : Q.FixedRateBond) (issueDate : Int) : Prop where
  ordered : (Q.cashflows bond).Pairwise (· ≤ ·)
  after_issue : ∀ c ∈ Q.cashflows bond, issueDate < c
  null_before : Q.nullDate < issueDate
  previous : ∀ day, Q.previousCashFlowDate bond day = (latest (Q.cashflows bond) day).getD Q.nullDate

structure Terms (Q : QuantLib) where
  mkt : Market
  issueDate : Int
  maturityDate : Int
  freq : Q.Frequency

namespace Terms

variable {Q : QuantLib} (B : Terms Q)

def schedule : Q.Schedule :=
  Q.schedule B.issueDate B.maturityDate (Q.period B.freq) (exChina B.mkt) .Unadjusted .Unadjusted .Forward false

def bond (speed : ClearSpeed) : Q.FixedRateBond :=
  Q.fixedRateBond speed.days 100.0 B.schedule [0.0329] Q.actual365Fixed .Following 100.0 B.issueDate

end Terms

section program

variable {Q : QuantLib}

def bondPrevCashFlowDate (evaluationDate : Int) (B : Terms Q) (speed : ClearSpeed) : Int :=
  Q.previousCashFlowDate (B.bond speed) (Q.settlementDate (B.bond speed) evaluationDate)

def calcSettlementDate (calendar : Calendar) (tradeDate : Int) (speed : ClearSpeed) : Int :=
  calendar.adjust (tradeDate + speed.days)

/-- The interest_days of BondAccruedInterest. -/
def interestDays (evaluationDate : Int) (B : Terms Q) (tradeDate : Int) (speed : ClearSpeed) : Int :=
  let settleDate := calcSettlementDate (exChina B.mkt) tradeDate speed
  let prevDate := bondPrevCashFlowDate evaluationDate B speed
  settleDate - prevDate

theorem le_calcSettlementDate (calendar : Calendar) (tradeDate : Int) (speed : ClearSpeed) :
    tradeDate ≤ calcSettlementDate calendar tradeDate speed := by
  have hadjust := Calendar.le_adjust calendar (tradeDate + speed.days)
  rw [calcSettlementDate]
  omega

end program

section payments

variable {Q : QuantLib} (bond : Q.FixedRateBond)

def lastCouponDate (issueDate settle : Int) : Int := (latest (Q.cashflows bond) settle).getD issueDate

/-- A coupon is paid by the settlement of a trade, and none between it and another day. -/
def Agrees (settle day : Int) : Prop :=
  (∃ c ∈ Q.cashflows bond, c ≤ settle) ∧ ∀ c ∈ Q.cashflows bond, (c ≤ day ↔ c ≤ settle)

variable {bond : Q.FixedRateBond} {issueDate : Int}

theorem Pays.isGreatest (hpays : Pays Q bond issueDate) {settle : Int} (h : issueDate ≤ settle) :
    IsGreatest {c | (c ∈ Q.cashflows bond ∨ c = issueDate) ∧ c ≤ settle} (lastCouponDate bond issueDate settle) := by
  rw [lastCouponDate]
  cases hlast : latest (Q.cashflows bond) settle with
  | none =>
      refine ⟨⟨Or.inr rfl, h⟩, ?_⟩
      rintro c ⟨hc | rfl, hle⟩
      · exact absurd hle (latest_eq_none_iff.1 hlast c hc)
      · exact Int.le_refl _
  | some a =>
      obtain ⟨⟨ha, hle⟩, hmax⟩ := latest_eq_some hpays.ordered hlast
      refine ⟨⟨Or.inl ha, hle⟩, ?_⟩
      rintro c ⟨hc | rfl, hcs⟩
      · exact hmax c hc hcs
      · exact Int.le_of_lt (hpays.after_issue a ha)

theorem Pays.previous_eq_iff (hpays : Pays Q bond issueDate) (day settle : Int) :
    Q.previousCashFlowDate bond day = lastCouponDate bond issueDate settle ↔ Agrees bond settle day := by
  rw [hpays.previous, lastCouponDate, Agrees, ← latest_congr_iff hpays.ordered]
  have hnull := hpays.null_before
  cases hlast : latest (Q.cashflows bond) settle with
  | none =>
      -- neither the null date nor a later coupon is the issue date
      have hno : ¬∃ c ∈ Q.cashflows bond, c ≤ settle := fun ⟨c, hc, hle⟩ => latest_eq_none_iff.1 hlast c hc hle
      simp only [hno, false_and, iff_false, Option.getD_none]
      cases hprev : latest (Q.cashflows bond) day with
      | none => exact Int.ne_of_lt hnull
      | some b =>
          have hb := hpays.after_issue b (latest_eq_some hpays.ordered hprev).1.1
          exact Int.ne_of_gt hb
  | some a =>
      have ha := (latest_eq_some hpays.ordered hlast).1
      have hlate := hpays.after_issue a ha.1
      rw [and_iff_right ⟨a, ha⟩]
      cases hprev : latest (Q.cashflows bond) day with
      | none => simp only [Option.getD_none, Option.getD_some, reduceCtorEq, iff_false]; omega
      | some b => simp only [Option.getD_some, Option.some.injEq]

end payments

/-- The days of interest are those since the last coupon or issue date by the settlement of the trade
exactly when a coupon was paid by then and none is paid between that settlement and the one that the
evaluation date gives. -/
theorem interest_days_iff (Q : QuantLib) (B : Terms Q) (tradeDate : Int) (speed : ClearSpeed)
    (hpays : Pays Q (B.bond speed) B.issueDate) (hissue : B.issueDate ≤ tradeDate) :
    let bond := B.bond speed
    let settle := calcSettlementDate (exChina B.mkt) tradeDate speed
    let last := lastCouponDate bond B.issueDate settle
    IsGreatest {c | (c ∈ Q.cashflows bond ∨ c = B.issueDate) ∧ c ≤ settle} last ∧
    (∀ e, interestDays e B tradeDate speed = settle - last ↔ Agrees bond settle (Q.settlementDate bond e)) ∧
    ∀ e e', Agrees bond settle (Q.settlementDate bond e) → Agrees bond settle (Q.settlementDate bond e') →
      interestDays e B tradeDate speed = interestDays e' B tradeDate speed := by
  intro bond settle last
  have hiff (e : Int) :
      interestDays e B tradeDate speed = settle - last ↔ Agrees bond settle (Q.settlementDate bond e) := by
    rw [← hpays.previous_eq_iff]
    simp only [interestDays, bondPrevCashFlowDate, settle, last, bond]
    omega
  have hsettle : B.issueDate ≤ settle := Int.le_trans hissue (le_calcSettlementDate _ _ _)
  refine ⟨hpays.isGreatest hsettle, hiff, fun e e' he he' => ?_⟩
  rw [(hiff e).2 he, (hiff e').2 he']

section example_bond

/-- A library that pays a bond half a year after its issue and at its maturity. -/
def halfYear : QuantLib where
  Frequency := Unit
  Period := Unit
  DayCounter := Unit
  Schedule := List Int
  FixedRateBond := Nat × List Int
  period _ := ()
  actual365Fixed := ()
  schedule effectiveDate terminationDate _ _ _ _ _ _ := [effectiveDate + 181, terminationDate]
  fixedRateBond settlementDays _ schedule _ _ _ _ _ := (settlementDays, schedule)
  cashflows bond := bond.2
  settlementDate bond evaluationDate := evaluationDate + bond.1
  nullDate := 0
  previousCashFlowDate bond settlement := (latest bond.2 settlement).getD 0

def oneYear : Terms halfYear where
  mkt := .SSE
  issueDate := date 8 january 2019
  maturityDate := date 8 january 2020
  freq := ()

theorem pays_oneYear : Pays halfYear (oneYear.bond .T0) oneYear.issueDate where
  ordered := by decide +kernel
  after_issue := by decide +kernel
  null_before := by decide +kernel
  previous _ := rfl

theorem settle_oneYear : calcSettlementDate (exChina oneYear.mkt) (date 10 7 2019) .T0 = date 10 7 2019 :=
  Calendar.adjust_of_isBusinessDay (by decide +kernel)

theorem interest_days_oneYear :
    interestDays (date 10 7 2019) oneYear (date 10 7 2019) .T0 =
      calcSettlementDate (exChina oneYear.mkt) (date 10 7 2019) .T0 -
        lastCouponDate (oneYear.bond .T0) oneYear.issueDate
          (calcSettlementDate (exChina oneYear.mkt) (date 10 7 2019) .T0) := by
  have hissue : oneYear.issueDate ≤ date 10 7 2019 := by decide +kernel
  refine ((interest_days_iff halfYear oneYear (date 10 7 2019) .T0 pays_oneYear hissue).2.1 _).2 ?_
  rw [settle_oneYear]
  exact ⟨⟨date 8 7 2019, by decide +kernel, by decide +kernel⟩, by decide +kernel⟩

theorem interestDays_oneYear (evaluationDate : Int) :
    interestDays evaluationDate oneYear (date 10 7 2019) .T0 =
      date 10 7 2019 - (latest [date 8 7 2019, date 8 january 2020] (evaluationDate + 0)).getD 0 := by
  have hfirst : date 8 january 2019 + 181 = date 8 7 2019 := by decide +kernel
  rw [interestDays, settle_oneYear, ← hfirst]
  rfl

/-- On one trade the days depend on the evaluation date; before the first coupon they are counted from
the null date, and after a later coupon they are negative. -/
theorem interest_days_differ :
    Pays halfYear (oneYear.bond .T0) oneYear.issueDate ∧
    interestDays (date 10 7 2019) oneYear (date 10 7 2019) .T0 = 2 ∧
    interestDays (date 10 june 2019) oneYear (date 10 7 2019) .T0 = 43656 ∧
    interestDays (date 8 january 2020) oneYear (date 10 7 2019) .T0 = -182 := by
  refine ⟨pays_oneYear, ?_, ?_, ?_⟩ <;> rw [interestDays_oneYear] <;> decide +kernel

end example_bond

end StudyNotes.Exchange.CashBond
