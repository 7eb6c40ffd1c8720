import Mathlib.Data.List.TakeWhile
import Mathlib.Algebra.Group.Int.Defs

namespace StudyNotes.Words.CLanguage

/-- The value of an int expression. -/
def checked {ε : Type} (overflow : ε) (n : Int) : Except ε Int :=
  if -2 ^ 31 ≤ n ∧ n < 2 ^ 31 then .ok n else .error overflow

/-- A string up to its first zero byte. -/
def cStr (s : List UInt8) : List UInt8 := s.takeWhile (· != 0)

variable {s : List UInt8}

theorem cStr_eq_self_iff : cStr s = s ↔ 0 ∉ s := by
  rw [cStr, List.takeWhile_eq_self_iff]
  exact ⟨fun h hmem => absurd (h 0 hmem) (by decide), fun h ch hch => bne_iff_ne.2 (ne_of_mem_of_not_mem hch h)⟩

theorem zero_notMem_cStr (s : List UInt8) : 0 ∉ cStr s := fun hmem => absurd (List.mem_takeWhile_imp hmem) (by decide)

theorem cStr_append_zero (hs : 0 ∉ s) (rest : List UInt8) : cStr (s ++ 0 :: rest) = s := by
  have hall : ∀ ch ∈ s, (ch != 0) = true := fun ch hch => bne_iff_ne.2 (ne_of_mem_of_not_mem hch hs)
  rw [cStr, List.takeWhile_append_of_pos hall, List.takeWhile_cons_of_neg (by decide), List.append_nil]

end StudyNotes.Words.CLanguage
