import Mathlib.Logic.Basic

namespace StudyNotes.Systems.TestAndSet

/-- The word of a lock: the two values that are written to it. -/
structure LockWord (W : Type) where
  locked : W
  unlocked : W
  distinct : unlocked ≠ locked

variable {θ : Type} {taken taken' : Prop} {inside inside' : θ → Prop} {t : θ}

/-- The lock is taken if some thread is in its critical section, and only one is. -/
structure Guarded (taken : Prop) (inside : θ → Prop) : Prop where
  taken_iff : taken ↔ ∃ t, inside t
  alone : ∀ t u, inside t → inside u → t = u

theorem Guarded.start (htaken : ¬taken) (h : ∀ t, ¬inside t) : Guarded taken inside where
  taken_iff := ⟨fun ht => absurd ht htaken, fun ⟨t, ht⟩ => absurd ht (h t)⟩
  alone t _ ht := absurd ht (h t)

theorem Guarded.others (h : Guarded taken inside) (ht : inside t) {u : θ} (hu : u ≠ t) : ¬inside u :=
  fun hin => hu (h.alone u t hin ht)

/-- A thread that finds the lock free takes it. -/
theorem Guarded.enter (h : Guarded taken inside) (hfree : ¬taken) (htaken : taken')
    (hin : ∀ u, inside' u ↔ u = t ∨ inside u) : Guarded taken' inside' := by
  have hnone (u : θ) : ¬inside u := fun hu => hfree (h.taken_iff.mpr ⟨u, hu⟩)
  have hin' (u : θ) : inside' u ↔ u = t := by simp [hin, hnone]
  exact ⟨⟨fun _ => ⟨t, (hin' t).mpr rfl⟩, fun _ => htaken⟩,
    fun u v hu hv => ((hin' u).mp hu).trans ((hin' v).mp hv).symm⟩

theorem Guarded.leave (h : Guarded taken inside) (ht : inside t) (hfree : ¬taken')
    (hin : ∀ u, inside' u ↔ inside u ∧ u ≠ t) : Guarded taken' inside' := by
  refine .start hfree fun u hu => ?_
  obtain ⟨hu, hne⟩ := (hin u).mp hu
  exact h.others ht hne hu

theorem Guarded.keep (h : Guarded taken inside) (htaken : taken' ↔ taken) (hin : ∀ u, inside' u ↔ inside u) :
    Guarded taken' inside' := by
  refine ⟨?_, fun u v hu hv => h.alone u v ((hin u).mp hu) ((hin v).mp hv)⟩
  rw [htaken, h.taken_iff]
  simp only [hin]

end StudyNotes.Systems.TestAndSet
