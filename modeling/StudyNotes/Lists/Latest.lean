import Mathlib.Data.List.Basic
import Mathlib.Order.Lattice

namespace StudyNotes.Lists.Latest

variable {α : Type} [LinearOrder α] {l : List α} {s t a : α}

/-- The last element of a list that is not after the given one. -/
def latest (l : List α) (s : α) : Option α := l.reverse.find? (· ≤ s)

theorem latest_eq_none_iff : latest l s = none ↔ ∀ c ∈ l, ¬c ≤ s := by
  rw [latest, List.find?_eq_none]
  simp only [List.mem_reverse, decide_eq_true_eq]

variable (hl : l.Pairwise (· ≤ ·))

include hl

/-- In a sorted list it is the greatest such element. -/
theorem latest_eq_some (h : latest l s = some a) : (a ∈ l ∧ a ≤ s) ∧ ∀ c ∈ l, c ≤ s → c ≤ a := by
  rw [latest, List.find?_eq_some_iff_append] at h
  obtain ⟨ha, after, before, hsplit, hafter⟩ := h
  have hlist : l = before.reverse ++ a :: after.reverse := by
    rw [← List.reverse_reverse l, hsplit]
    simp only [List.reverse_append, List.reverse_cons, List.append_assoc, List.singleton_append]
  have hsorted := List.pairwise_append.1 (hlist ▸ hl)
  refine ⟨⟨?_, of_decide_eq_true ha⟩, ?_⟩
  · rw [hlist]
    exact List.mem_append_right _ List.mem_cons_self
  · intro c hc hcs
    rw [hlist, List.mem_append, List.mem_cons, List.mem_reverse, List.mem_reverse] at hc
    rcases hc with hc | rfl | hc
    · exact hsorted.2.2 c (List.mem_reverse.2 hc) a List.mem_cons_self
    · exact le_refl c
    · have hno := hafter c hc
      simp only [hcs, decide_true, Bool.not_true, Bool.false_eq_true] at hno

theorem latest_congr_iff : latest l s = latest l t ↔ ∀ c ∈ l, (c ≤ s ↔ c ≤ t) := by
  constructor
  · have himp {s t : α} (heq : latest l s = latest l t) {c : α} (hc : c ∈ l) (hcs : c ≤ s) : c ≤ t := by
      cases hs : latest l s with
      | none => exact absurd hcs (latest_eq_none_iff.1 hs c hc)
      | some a =>
          have hmax := (latest_eq_some hl hs).2 c hc hcs
          exact le_trans hmax (latest_eq_some hl (heq ▸ hs)).1.2
    intro heq c hc
    exact ⟨himp heq hc, himp heq.symm hc⟩
  · intro h
    have hfind : ∀ c ∈ l.reverse, decide (c ≤ s) = decide (c ≤ t) := fun c hc =>
      decide_eq_decide.2 (h c (List.mem_reverse.1 hc))
    rw [latest, latest, ← List.head?_filter, ← List.head?_filter, List.filter_congr hfind]

end StudyNotes.Lists.Latest
