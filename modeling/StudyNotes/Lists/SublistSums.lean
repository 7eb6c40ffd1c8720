import Mathlib.Algebra.BigOperators.Group.List.Basic
import Mathlib.Data.List.Sublists
import Mathlib.Data.List.Perm.Basic
import Mathlib.Algebra.GroupWithZero.Nat

namespace StudyNotes.Lists.SublistSums

/-- The number is the sum of some of the items, each used at most once. -/
def SumOf (items : List Nat) (V : Nat) : Prop := ∃ l : List Nat, l.Sublist items ∧ l.sum = V

variable {items items' : List Nat} {V c : Nat}

theorem sumOf_nil : SumOf [] V ↔ V = 0 := by
  simp [SumOf, List.sublist_nil, eq_comm]

theorem sumOf_concat : SumOf (items ++ [c]) V ↔ SumOf items V ∨ (c ≤ V ∧ SumOf items (V - c)) := by
  constructor
  · rintro ⟨l, hl, rfl⟩
    obtain ⟨l₁, l₂, rfl, h₁, h₂⟩ := List.sublist_append_iff.mp hl
    rcases List.sublist_singleton.mp h₂ with rfl | rfl
    · exact Or.inl ⟨l₁, h₁, by simp⟩
    · exact Or.inr ⟨by simp, l₁, h₁, by simp⟩
  · rintro (⟨l, hl, rfl⟩ | ⟨hc, l, hl, hsum⟩)
    · exact ⟨l, hl.trans (List.sublist_append_left _ _), rfl⟩
    · refine ⟨l ++ [c], hl.append_right [c], ?_⟩
      rw [List.sum_append, List.sum_singleton]
      omega

theorem SumOf.perm (h : items.Perm items') (hs : SumOf items V) : SumOf items' V := by
  obtain ⟨l, hl, rfl⟩ := hs
  obtain ⟨l', hp, hl'⟩ := List.exists_perm_sublist hl h
  exact ⟨l', hl', hp.sum_nat⟩

end StudyNotes.Lists.SublistSums
