import Mathlib.Data.List.Basic

namespace StudyNotes.Words.CommonPrefix

variable {α : Type} [DecidableEq α]

/-- The longest common beginning of two words and what is left of each. -/
def splitCommon : List α → List α → List α × List α × List α
  | x :: p, y :: k =>
      if x = y then (x :: (splitCommon p k).1, (splitCommon p k).2) else ([], x :: p, y :: k)
  | p, k => ([], p, k)

@[simp] theorem splitCommon_nil_left (k : List α) : splitCommon [] k = ([], [], k) := by
  cases k <;> rfl

@[simp] theorem splitCommon_nil_right (p : List α) : splitCommon p [] = ([], p, []) := by
  cases p <;> rfl

theorem splitCommon_append (c p k : List α) :
    splitCommon (c ++ p) (c ++ k) = (c ++ (splitCommon p k).1, (splitCommon p k).2) := by
  induction c with
  | nil => rfl
  | cons x c ih => simp [splitCommon, ih]

theorem splitCommon_self (p : List α) : splitCommon p p = (p, [], []) := by
  simpa using splitCommon_append p [] []

theorem splitCommon_left (p k : List α) : splitCommon p (p ++ k) = (p, [], k) := by
  simpa using splitCommon_append p [] k

theorem splitCommon_right (c p : List α) : splitCommon (c ++ p) c = (c, p, []) := by
  simpa using splitCommon_append c p []

theorem splitCommon_fork (c p k : List α) (x y : α) (hxy : x ≠ y) :
    splitCommon (c ++ x :: p) (c ++ y :: k) = (c, x :: p, y :: k) := by
  rw [splitCommon_append]
  simp [splitCommon, hxy]

/-- Two words are equal, one continues the other, or they fork. -/
theorem common_cases (p k : List α) :
    p = k ∨ (∃ y k', k = p ++ y :: k') ∨ (∃ x p', p = k ++ x :: p') ∨
      ∃ c x p' y k', p = c ++ x :: p' ∧ k = c ++ y :: k' ∧ x ≠ y := by
  induction p generalizing k with
  | nil =>
      cases k with
      | nil => exact Or.inl rfl
      | cons y k => exact Or.inr (Or.inl ⟨y, k, rfl⟩)
  | cons x p ih =>
      cases k with
      | nil => exact Or.inr (Or.inr (Or.inl ⟨x, p, rfl⟩))
      | cons y k =>
          by_cases hxy : x = y
          · subst y
            rcases ih k with rfl | ⟨y, k', rfl⟩ | ⟨z, p', rfl⟩ | ⟨c, z, p', y, k', rfl, rfl, hzy⟩
            · exact Or.inl rfl
            · exact Or.inr (Or.inl ⟨y, k', rfl⟩)
            · exact Or.inr (Or.inr (Or.inl ⟨z, p', rfl⟩))
            · exact Or.inr (Or.inr (Or.inr ⟨x :: c, z, p', y, k', rfl, rfl, hzy⟩))
          · exact Or.inr (Or.inr (Or.inr ⟨[], x, p, y, k, rfl, rfl, hxy⟩))

end StudyNotes.Words.CommonPrefix
