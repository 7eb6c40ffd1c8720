import StudyNotes.Exchange.ClosedRuns

namespace StudyNotes.Exchange.OutrightRepo

open Dates.BusinessDays Calendars ClosedRuns

section Kinds

inductive Kind
  | UNKNOWN_KIND
  | R001
  | R007
  | R014
  | R021
  | R1M
  | R2M
  | R3M
  | R4M
  | R6M
  | R9M
  | R1Y
deriving DecidableEq

def Kind.value : Kind → Nat
  | .UNKNOWN_KIND => 0
  | .R001 => 1
  | .R007 => 2
  | .R014 => 3
  | .R021 => 4
  | .R1M => 5
  | .R2M => 6
  | .R3M => 7
  | .R4M => 8
  | .R6M => 9
  | .R9M => 10
  | .R1Y => 11

def dict : List String :=
  ["UNKNOWN", "R001", "R007", "R014", "R004", "R021", "R1M", "R2M", "R3M", "R4M", "R6M", "R9M", "R1Y"]

def outrightRepoToString (type : Kind) : String := if type.value < dict.length then dict[type.value]! else dict[0]!

def convertDaysToEnum (days : Int) : Kind :=
  if days = 1 then .R001
  else if days > 1 ∧ days ≤ 7 then .R007
  else if days > 7 ∧ days ≤ 14 then .R014
  else if days > 14 ∧ days ≤ 21 then .R021
  else if days > 21 ∧ days ≤ 30 then .R1M
  else if days > 30 ∧ days ≤ 60 then .R2M
  else if days > 60 ∧ days ≤ 90 then .R3M
  else if days > 90 ∧ days ≤ 120 then .R4M
  else if days > 120 ∧ days ≤ 180 then .R6M
  else if days > 180 ∧ days ≤ 270 then .R9M
  else if days > 270 ∧ days ≤ 365 then .R1Y
  else .UNKNOWN_KIND

/-- The name that the table is meant to have for a kind: UNKNOWN for the unknown one, for every other one
its enumerator. -/
def Kind.name : Kind → String
  | .UNKNOWN_KIND => "UNKNOWN"
  | .R001 => "R001"
  | .R007 => "R007"
  | .R014 => "R014"
  | .R021 => "R021"
  | .R1M => "R1M"
  | .R2M => "R2M"
  | .R3M => "R3M"
  | .R4M => "R4M"
  | .R6M => "R6M"
  | .R9M => "R9M"
  | .R1Y => "R1Y"

/-- The days up to which a kind is meant. -/
def Kind.term : Kind → Int
  | .UNKNOWN_KIND => 0
  | .R001 => 1
  | .R007 => 7
  | .R014 => 14
  | .R021 => 21
  | .R1M => 30
  | .R2M => 60
  | .R3M => 90
  | .R4M => 120
  | .R6M => 180
  | .R9M => 270
  | .R1Y => 365

/-- A known kind holds the days after the terms of the kinds before it. -/
structure Kind.Holds (k : Kind) (days : Int) : Prop where
  known : 0 < k.value
  le_term : days ≤ k.term
  after : ∀ k' : Kind, k'.value < k.value → k'.term < days

theorem term_mono {a b : Kind} (h : a.value ≤ b.value) : a.term ≤ b.term := by
  revert h
  cases a <;> cases b <;> decide

theorem holds_of_previous {k : Kind} {days : Int} (previous : Kind) (hprev : previous.value + 1 = k.value)
    (h : previous.term < days ∧ days ≤ k.term) : k.Holds days := by
  refine ⟨by omega, h.2, fun k' hk' => ?_⟩
  exact Int.lt_of_le_of_lt (term_mono (by omega)) h.1

theorem convertDaysToEnum_holds {days : Int} (h : 1 ≤ days ∧ days ≤ 365) : (convertDaysToEnum days).Holds days := by
  have hcases : days = 1 ∨ (1 < days ∧ days ≤ 7) ∨ (7 < days ∧ days ≤ 14) ∨ (14 < days ∧ days ≤ 21) ∨
      (21 < days ∧ days ≤ 30) ∨ (30 < days ∧ days ≤ 60) ∨ (60 < days ∧ days ≤ 90) ∨ (90 < days ∧ days ≤ 120) ∨
      (120 < days ∧ days ≤ 180) ∨ (180 < days ∧ days ≤ 270) ∨ (270 < days ∧ days ≤ 365) := by
    omega
  rcases hcases with hd | hd | hd | hd | hd | hd | hd | hd | hd | hd | hd <;>
    simp (disch := omega) only [convertDaysToEnum, if_pos, if_neg]
  · exact holds_of_previous .UNKNOWN_KIND rfl ⟨by rw [hd]; decide, by rw [hd]; decide⟩
  · exact holds_of_previous .R001 rfl hd
  · exact holds_of_previous .R007 rfl hd
  · exact holds_of_previous .R014 rfl hd
  · exact holds_of_previous .R021 rfl hd
  · exact holds_of_previous .R1M rfl hd
  · exact holds_of_previous .R2M rfl hd
  · exact holds_of_previous .R3M rfl hd
  · exact holds_of_previous .R4M rfl hd
  · exact holds_of_previous .R6M rfl hd
  · exact holds_of_previous .R9M rfl hd

theorem convertDaysToEnum_unknown {days : Int} (h : ¬(1 ≤ days ∧ days ≤ 365)) : convertDaysToEnum days = .UNKNOWN_KIND := by
  have hcases : days < 1 ∨ 365 < days := by omega
  rcases hcases with hd | hd <;> simp (disch := omega) only [convertDaysToEnum, if_neg]

/-- The table of names has one name too many before the fifth kind. -/
theorem toString_eq_name_iff (k : Kind) : outrightRepoToString k = k.name ↔ k.value < 4 := by
  cases k <;> decide

theorem toString_of_gt {k : Kind} (h : 4 < k.value) :
    ∃ shorter : Kind, shorter.value + 1 = k.value ∧ outrightRepoToString k = shorter.name := by
  cases k with
  | UNKNOWN_KIND | R001 | R007 | R014 | R021 => exact absurd h (by decide)
  | R1M => exact ⟨.R021, rfl, rfl⟩
  | R2M => exact ⟨.R1M, rfl, rfl⟩
  | R3M => exact ⟨.R2M, rfl, rfl⟩
  | R4M => exact ⟨.R3M, rfl, rfl⟩
  | R6M => exact ⟨.R4M, rfl, rfl⟩
  | R9M => exact ⟨.R6M, rfl, rfl⟩
  | R1Y => exact ⟨.R9M, rfl, rfl⟩

theorem Kind.Holds.lt_value_iff {k : Kind} {days : Int} (h : k.Holds days) (previous : Kind) :
    previous.value < k.value ↔ previous.term < days := by
  constructor
  · exact h.after previous
  · intro hlt
    by_contra hle
    have hmono := term_mono (Nat.le_of_not_lt hle)
    have hterm := h.le_term
    omega

/-- The days get the kind with the shortest term that holds them. Its own name is printed
for it up to 14 days. From 22 days on the name of the kind before it is printed, and
between them a name that no kind has. -/
theorem kind_shortest_and_named_iff (days : Int) :
    (convertDaysToEnum days = .UNKNOWN_KIND ↔ ¬(1 ≤ days ∧ days ≤ 365)) ∧
    (1 ≤ days ∧ days ≤ 365 → days ≤ (convertDaysToEnum days).term ∧
      ∀ k : Kind, days ≤ k.term → (convertDaysToEnum days).term ≤ k.term) ∧
    (outrightRepoToString (convertDaysToEnum days) = (convertDaysToEnum days).name ↔ days < 15 ∨ 365 < days) ∧
    (15 ≤ days ∧ days ≤ 21 → ∀ k : Kind, outrightRepoToString (convertDaysToEnum days) ≠ k.name) ∧
    (22 ≤ days ∧ days ≤ 365 → ∃ shorter : Kind, shorter.value + 1 = (convertDaysToEnum days).value ∧
      outrightRepoToString (convertDaysToEnum days) = shorter.name) := by
  by_cases h : 1 ≤ days ∧ days ≤ 365
  · have hholds := convertDaysToEnum_holds h
    generalize convertDaysToEnum days = k at hholds
    have hR014 : Kind.R014.value < k.value ↔ 14 < days := hholds.lt_value_iff .R014
    have hR021 : Kind.R021.value < k.value ↔ 21 < days := hholds.lt_value_iff .R021
    refine ⟨iff_of_false ?_ (not_not.mpr h), fun _ => ⟨hholds.le_term, fun k' hk' => ?_⟩, ?_, fun hd => ?_, fun hd => ?_⟩
    · rintro rfl
      exact absurd hholds.known (by decide)
    · apply term_mono
      by_contra hlt
      have hafter := hholds.after k' (Nat.lt_of_not_le hlt)
      omega
    · rw [toString_eq_name_iff]
      change 3 < k.value ↔ 14 < days at hR014
      omega
    · have hk : k = .R021 := by
        change 3 < k.value ↔ 14 < days at hR014
        change 4 < k.value ↔ 21 < days at hR021
        have hvalue : k.value = 4 := by omega
        revert hvalue
        cases k <;> decide
      rw [hk]
      intro k'
      cases k' <;> decide
    · apply toString_of_gt
      change 4 < k.value ↔ 21 < days at hR021
      omega
  · rw [convertDaysToEnum_unknown h]
    refine ⟨iff_of_true rfl h, fun hd => absurd hd h, iff_of_true rfl (by omega), fun hd => ?_, fun hd => ?_⟩
    · exact absurd hd (by omega)
    · exact absurd hd (by omega)

end Kinds

section Dates

/-- The default speed of the source is T1. -/
def calcFirstSettlementDate (tradeDate : Int) (speed : ClearSpeed) : Int := (exChina .IB).adjust (tradeDate + speed.days)

def calcExpireSettlementDate (firstSettlementDate repoDays : Int) : Int :=
  (exChina .IB).adjust (firstSettlementDate + repoDays)

def capitalOccupationDays (tradeDate repoDays : Int) (speed : ClearSpeed) : Int :=
  let firstSettlementDate := calcFirstSettlementDate tradeDate speed
  let expiredDate := calcExpireSettlementDate firstSettlementDate repoDays
  expiredDate - firstSettlementDate

theorem ib_adjust_le (d : Int) : (exChina .IB).adjust d ≤ d + 12 := by
  obtain ⟨k, hk, hsse⟩ := sse_within d
  have hib : IbImpl.isBusinessDay (d + k) = true := by rw [IbImpl.isBusinessDay, hsse, Bool.true_or]
  have hle : (exChina .IB).adjust d ≤ d + k := Calendar.adjust_le (by omega) hib
  omega

/-- A repo starts and ends on business days and lasts for its days and at most twelve more,
for none more exactly if it falls due on a business day, and for no less than a shorter
one. One that is traded when it ends, with settlement on that day, starts on that day. -/
theorem outright_periods (tradeDate repoDays : Int) (speed : ClearSpeed) :
    let first := calcFirstSettlementDate tradeDate speed
    let expire := calcExpireSettlementDate first repoDays
    let days := capitalOccupationDays tradeDate repoDays speed
    IbImpl.isBusinessDay first = true ∧ IbImpl.isBusinessDay expire = true ∧
    repoDays ≤ days ∧ days ≤ repoDays + 12 ∧ (days = repoDays ↔ IbImpl.isBusinessDay (first + repoDays) = true) ∧
    (∀ shorter ≤ repoDays, capitalOccupationDays tradeDate shorter speed ≤ days) ∧
    ∀ nextDays, calcFirstSettlementDate expire .T0 = expire ∧
      days + capitalOccupationDays expire nextDays .T0 = calcExpireSettlementDate expire nextDays - first := by
  intro first expire days
  have hopen : (exChina .IB).isBusinessDay expire = true := Calendar.isBusinessDay_adjust _ _
  have hlow : first + repoDays ≤ expire := Calendar.le_adjust _ _
  have hhigh : expire ≤ first + repoDays + 12 := ib_adjust_le _
  have hdays : days = expire - first := rfl
  have hroll : calcFirstSettlementDate expire .T0 = expire := by
    rw [calcFirstSettlementDate, show expire + (ClearSpeed.T0.days : Int) = expire from Int.add_zero expire]
    exact Calendar.adjust_of_isBusinessDay hopen
  refine ⟨Calendar.isBusinessDay_adjust (exChina .IB) _, hopen, by omega, by omega, ⟨fun heq => ?_, fun hdue => ?_⟩,
    fun shorter hle => ?_, fun nextDays => ⟨hroll, ?_⟩⟩
  · have hexpire : first + repoDays = expire := by omega
    rw [hexpire]
    exact hopen
  · have hexpire : expire = first + repoDays := Calendar.adjust_of_isBusinessDay (c := exChina .IB) hdue
    omega
  · have hmono : calcExpireSettlementDate first shorter ≤ expire := Calendar.adjust_mono (by omega)
    change calcExpireSettlementDate first shorter - first ≤ _
    omega
  · rw [capitalOccupationDays, hroll, hdays]
    omega

end Dates

end StudyNotes.Exchange.OutrightRepo
