import Mathlib.Data.Int.Order.Basic
import Mathlib.Data.Nat.Find

namespace StudyNotes.Dates.BusinessDays

/-- Days that are open for business, without an end. -/
structure Calendar where
  isBusinessDay : Int → Bool
  later (d : Int) : ∃ k : Nat, isBusinessDay (d + k) = true

namespace Calendar

variable (c : Calendar)

def wait (d : Int) : Nat := Nat.find (c.later d)

/-- The first business day from the given day on. -/
def adjust (d : Int) : Int := d + c.wait d

def next (d : Int) : Int := c.adjust (d + 1)

/-- A number of business days later; none of them is the adjustment. -/
def advance (d : Int) : Nat → Int
  | 0 => c.adjust d
  | 1 => c.next d
  | n + 2 => c.next (advance d (n + 1))

variable {c} {d e : Int}

theorem isBusinessDay_adjust (c : Calendar) (d : Int) : c.isBusinessDay (c.adjust d) = true := Nat.find_spec (c.later d)

theorem le_adjust (c : Calendar) (d : Int) : d ≤ c.adjust d := Int.le_add_of_nonneg_right (Int.natCast_nonneg _)

theorem adjust_le (hle : d ≤ e) (he : c.isBusinessDay e = true) : c.adjust d ≤ e := by
  have hday : d + ((e - d).toNat : Int) = e := by omega
  have hfind : c.wait d ≤ (e - d).toNat := Nat.find_min' (c.later d) (by rw [hday]; exact he)
  rw [adjust]
  omega

theorem adjust_eq (hle : d ≤ e) (he : c.isBusinessDay e = true)
    (hbetween : ∀ b, d ≤ b → b < e → c.isBusinessDay b = false) : c.adjust d = e := by
  apply Int.le_antisymm (adjust_le hle he)
  rw [← Int.not_lt]
  intro hlt
  have hno := hbetween _ (le_adjust c d) hlt
  rw [isBusinessDay_adjust] at hno
  cases hno

theorem adjust_of_isBusinessDay (h : c.isBusinessDay d = true) : c.adjust d = d :=
  Int.le_antisymm (adjust_le (Int.le_refl d) h) (le_adjust c d)

theorem adjust_mono (hle : d ≤ e) : c.adjust d ≤ c.adjust e :=
  adjust_le (Int.le_trans hle (le_adjust c e)) (isBusinessDay_adjust c e)

theorem lt_next (c : Calendar) (d : Int) : d < c.next d := le_adjust c (d + 1)

theorem next_mono (hle : d ≤ e) : c.next d ≤ c.next e := adjust_mono (Int.add_le_add_right hle 1)

end Calendar

section Search

variable (opens : Int → Bool)

/-- The search for a business day, one day at a time, given up after a number of moves. -/
def following : Nat → Int → Option Int
  | 0, d => if opens d then some d else none
  | moves + 1, d => if opens d then some d else following moves (d + 1)

/-- The last day among the next ones that is open. -/
def leap (d : Int) : Nat → Option Int
  | 0 => none
  | k + 1 => if opens (d + (k + 1)) then some (d + (k + 1)) else leap d k

/-- From an open day the day last can be reached over open days, each at most gap days after the one before. -/
def bridges (gap : Nat) (last : Int) : Nat → Int → Bool
  | 0, d => decide (last ≤ d)
  | fuel + 1, d =>
      decide (last ≤ d) ||
        match leap opens d gap with
        | some e => bridges gap last fuel e
        | none => false

variable {opens} {gap : Nat} {last : Int}

theorem leap_some {d e : Int} {k : Nat} (h : leap opens d k = some e) : d < e ∧ e ≤ d + k ∧ opens e = true := by
  induction k with
  | zero => cases h
  | succ k ih =>
      rw [leap] at h
      split at h
      · next hopen =>
          obtain rfl := Option.some.inj h
          refine ⟨by omega, by omega, hopen⟩
      · have hk := ih h
        refine ⟨hk.1, by omega, hk.2.2⟩

/-- Below a bridge no run of closed days is as long as the gap. -/
theorem exists_open_of_bridges {fuel : Nat} {d : Int} (h : bridges opens gap last fuel d = true) {n : Int} (hd : d < n)
    (hn : n ≤ last) : ∃ k : Nat, k < gap ∧ opens (n + k) = true := by
  induction fuel generalizing d with
  | zero =>
      rw [bridges, decide_eq_true_eq] at h
      omega
  | succ fuel ih =>
      rw [bridges, Bool.or_eq_true, decide_eq_true_eq] at h
      rcases h with h | h
      · omega
      · cases hleap : leap opens d gap with
        | none =>
            rw [hleap] at h
            cases h
        | some e =>
            rw [hleap] at h
            obtain ⟨hde, hgap, hopen⟩ := leap_some hleap
            rcases Int.lt_or_le e n with hlt | hle
            · exact ih h hlt
            · refine ⟨(e - n).toNat, by omega, ?_⟩
              rw [show n + ((e - n).toNat : Int) = e by omega]
              exact hopen

end Search

namespace Calendar

variable {c : Calendar} {d : Int}

theorem adjust_of_closed (h : c.isBusinessDay d = false) : c.adjust d = c.adjust (d + 1) := by
  have hne : c.adjust d ≠ d := by
    intro heq
    have hopen := isBusinessDay_adjust c d
    rw [heq, h] at hopen
    cases hopen
  have hle := le_adjust c d
  exact Int.le_antisymm (adjust_mono (by omega)) (adjust_le (by omega) (isBusinessDay_adjust c d))

/-- The search ends with the adjusted day, once it may move that far. -/
theorem following_eq {moves : Nat} (h : c.adjust d ≤ d + moves) :
    following c.isBusinessDay moves d = some (c.adjust d) := by
  induction moves generalizing d with
  | zero =>
      have heq : c.adjust d = d := Int.le_antisymm (by omega) (le_adjust c d)
      have hopen := isBusinessDay_adjust c d
      rw [heq] at hopen ⊢
      rw [following, if_pos hopen]
  | succ moves ih =>
      rw [following]
      by_cases hopen : c.isBusinessDay d = true
      · rw [if_pos hopen, adjust_of_isBusinessDay hopen]
      · have hmove := adjust_of_closed (Bool.eq_false_iff.mpr hopen)
        rw [if_neg hopen, hmove]
        exact ih (by omega)

end Calendar

end StudyNotes.Dates.BusinessDays
