import Mathlib.Algebra.Group.Nat.Defs
import Mathlib.Data.List.Basic

namespace StudyNotes.Codes.Decimal

def isDigit (ch : UInt8) : Bool := 48 ≤ ch && ch ≤ 57

theorem isDigit_iff {ch : UInt8} : isDigit ch = true ↔ 48 ≤ ch.toNat ∧ ch.toNat ≤ 57 := by
  rw [isDigit, Bool.and_eq_true, decide_eq_true_iff, decide_eq_true_iff, UInt8.le_iff_toNat_le, UInt8.le_iff_toNat_le]
  rfl

/-- The number that digits write after the ones that write the number before them. -/
def value (before : Nat) (text : List UInt8) : Nat := text.foldl (fun n ch => n * 10 + (ch.toNat - 48)) before

theorem le_value (before : Nat) (text : List UInt8) : before ≤ value before text := by
  induction text generalizing before with
  | nil => exact Nat.le_refl _
  | cons ch text ih =>
      calc
        before ≤ before * 10 + (ch.toNat - 48) := by omega
        _ ≤ value before (ch :: text) := ih _

/-- A text of digits for a number, zeros in front allowed. -/
structure Writes (text : List UInt8) (n : Nat) : Prop where
  digits : ∀ ch ∈ text, isDigit ch = true
  value : value 0 text = n

section numeral

/-- The text without zeros in front. -/
def numeral (n : Nat) : List UInt8 := (Nat.toDigits 10 n).map fun c => UInt8.ofNat c.toNat

theorem isDigit_ofChar {c : Char} (h : c.isDigit = true) :
    isDigit (UInt8.ofNat c.toNat) = true ∧ (UInt8.ofNat c.toNat).toNat = c.toNat := by
  rw [Char.isDigit, Bool.and_eq_true, decide_eq_true_iff, decide_eq_true_iff] at h
  have hlow : 48 ≤ c.toNat := UInt32.le_iff_toNat_le.1 h.1
  have hhigh : c.toNat ≤ 57 := UInt32.le_iff_toNat_le.1 h.2
  have hbyte : (UInt8.ofNat c.toNat).toNat = c.toNat := UInt8.toNat_ofNat_of_lt' (by simp only [UInt8.size]; omega)
  rw [isDigit_iff, hbyte]
  exact ⟨⟨hlow, hhigh⟩, rfl⟩

theorem isDigit_of_mem_numeral {n : Nat} {ch : UInt8} (h : ch ∈ numeral n) : isDigit ch = true := by
  obtain ⟨c, hc, rfl⟩ := List.mem_map.1 h
  exact (isDigit_ofChar (Nat.isDigit_of_mem_toDigits (by decide) (by decide) hc)).1

theorem value_map {text : List Char} (h : ∀ c ∈ text, c.isDigit = true) (before : Nat) :
    value before (text.map fun c => UInt8.ofNat c.toNat) = Nat.ofDigitChars 10 text before := by
  induction text generalizing before with
  | nil => rfl
  | cons c text ih =>
      rw [List.map_cons, value, List.foldl_cons, (isDigit_ofChar (h c List.mem_cons_self)).2, Nat.mul_comm]
      exact ih (fun x hx => h x (List.mem_cons_of_mem c hx)) _

theorem value_numeral (n : Nat) : value 0 (numeral n) = n := by
  rw [numeral, value_map fun c hc => Nat.isDigit_of_mem_toDigits (by decide) (by decide) hc]
  exact Nat.ofDigitChars_ten_toDigits

theorem writes_numeral (n : Nat) : Writes (numeral n) n := ⟨fun _ h => isDigit_of_mem_numeral h, value_numeral n⟩

theorem numeral_injective : Function.Injective numeral := Function.LeftInverse.injective value_numeral

theorem length_numeral_le {n k : Nat} (hk : 0 < k) : (numeral n).length ≤ k ↔ n < 10 ^ k := by
  rw [numeral, List.length_map]
  exact Nat.length_toDigits_le_iff (by decide) hk

end numeral

end StudyNotes.Codes.Decimal
