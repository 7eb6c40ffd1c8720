import Mathlib.Algebra.BigOperators.Group.Finset.Basic
import Mathlib.Data.Fintype.Basic

namespace StudyNotes.Systems.Shares

variable {ι : Type} [Fintype ι] [DecidableEq ι]

/-- Where every thread has its share of a number, a step of one thread changes the sum by
what it changes of its own share. -/
theorem sum_moved {f g : ι → Nat} (i : ι) (h : ∀ j, j ≠ i → g j = f j) : ∑ j, g j + f i = ∑ j, f j + g i := by
  have hrest : ∑ j ∈ Finset.univ.erase i, g j = ∑ j ∈ Finset.univ.erase i, f j :=
    Finset.sum_congr rfl fun j hj => h j (Finset.ne_of_mem_erase hj)
  rw [← Finset.add_sum_erase _ g (Finset.mem_univ i), ← Finset.add_sum_erase _ f (Finset.mem_univ i), hrest]
  omega

end StudyNotes.Systems.Shares
