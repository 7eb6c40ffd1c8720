import Mathlib.Data.Nat.Digits.Lemmas

namespace StudyNotes.Codes.Hexadecimal

/-- The lower-case digit. -/
def digit (d : Nat) : UInt8 := UInt8.ofNat (if d < 10 then 48 + d else 87 + d)

/-- The value of a digit of either case. -/
def digitValue (ch : UInt8) : Option Nat :=
  if 48 ≤ ch ∧ ch ≤ 57 then some (ch.toNat - 48)
  else if 65 ≤ ch ∧ ch ≤ 70 then some (ch.toNat - 55)
  else if 97 ≤ ch ∧ ch ≤ 102 then some (ch.toNat - 87)
  else none

theorem digitValue_digit {d : Nat} (h : d < 16) : digitValue (digit d) = some d := by
  interval_cases d <;> rfl

/-- The number that the digits at the front of a text write after the one that the digits
before them write. The text ends at the first byte that is no digit. -/
def value (before : Nat) : List UInt8 → Nat
  | [] => before
  | ch :: text =>
      match digitValue ch with
      | some d => value (before * 16 + d) text
      | none => before

theorem value_map_digit {ds : List Nat} (h : ∀ d ∈ ds, d < 16) (before : Nat) :
    value before (ds.map digit) = ds.foldl (fun n d => n * 16 + d) before := by
  induction ds generalizing before with
  | nil => rfl
  | cons d ds ih =>
      have hd : digitValue (digit d) = some d := digitValue_digit (h d List.mem_cons_self)
      rw [List.map_cons, value, hd, List.foldl_cons]
      exact ih (fun x hx => h x (List.mem_cons_of_mem d hx)) _

/-- The text of a number, without zeros in front. -/
def numeral (n : Nat) : List UInt8 := if n = 0 then [digit 0] else (Nat.digits 16 n).reverse.map digit

theorem numeral_of_ne_zero {n : Nat} (h : n ≠ 0) : numeral n = (Nat.digits 16 n).reverse.map digit := if_neg h

theorem value_numeral (n : Nat) : value 0 (numeral n) = n := by
  by_cases hn : n = 0
  · subst hn
    rfl
  · have hdigits : ∀ d ∈ (Nat.digits 16 n).reverse, d < 16 := fun d hd =>
      Nat.digits_lt_base (by decide) (List.mem_reverse.mp hd)
    rw [numeral_of_ne_zero hn, value_map_digit hdigits, List.foldl_reverse]
    calc
      (Nat.digits 16 n).foldr (fun d v => v * 16 + d) 0 = Nat.ofDigits 16 (Nat.digits 16 n) := by
        rw [Nat.ofDigits_eq_foldr]
        congr 1
        funext d v
        rw [Nat.mul_comm, Nat.add_comm]
        rfl
      _ = n := Nat.ofDigits_digits 16 n

/-- The first byte of a text is a digit, and not a zero unless the text is that zero. -/
theorem numeral_cons (n : Nat) : ∃ d rest, numeral n = digit d :: rest ∧ d < 16 ∧ (d = 0 → rest = []) := by
  by_cases hn : n = 0
  · exact ⟨0, [], by rw [hn]; rfl, by decide, fun _ => rfl⟩
  · have hne : Nat.digits 16 n ≠ [] := Nat.digits_ne_nil_iff_ne_zero.mpr hn
    refine ⟨(Nat.digits 16 n).getLast hne, ((Nat.digits 16 n).dropLast.reverse).map digit, ?_, ?_, fun h => ?_⟩
    · rw [numeral_of_ne_zero hn, ← List.map_cons, ← List.reverse_concat,
        List.dropLast_append_getLast hne]
    · exact Nat.digits_lt_base (by decide) (List.getLast_mem hne)
    · exact absurd h (Nat.getLast_digit_ne_zero 16 hn)

end StudyNotes.Codes.Hexadecimal
