import StudyNotes.Words.Suffixes

namespace StudyNotes.Words.GreedyCut

open Suffixes

variable {α : Type}

/-- The word begins a piece, or it ends a piece other than the last and is
shorter than it. -/
def Shows (r : List (List α) × List α) (v : List α) : Prop :=
  (v ≠ [] ∧ (v <+: r.2 ∨ ∃ p ∈ r.1, v <+: p)) ∨ ∃ p ∈ r.1, v <:+ p ∧ v ≠ p

theorem shows_cons {p v l : List α} {ps : List (List α)} :
    Shows (p :: ps, l) v ↔ (v ≠ [] ∧ v <+: p) ∨ (v <:+ p ∧ v ≠ p) ∨ Shows (ps, l) v := by
  simp only [Shows, List.exists_mem_cons_iff]
  constructor
  · rintro (⟨hne, h | h | h⟩ | h | h)
    · exact Or.inr (Or.inr (Or.inl ⟨hne, Or.inl h⟩))
    · exact Or.inl ⟨hne, h⟩
    · exact Or.inr (Or.inr (Or.inl ⟨hne, Or.inr h⟩))
    · exact Or.inr (Or.inl h)
    · exact Or.inr (Or.inr (Or.inr h))
  · rintro (⟨hne, h⟩ | h | ⟨hne, h | h⟩ | h)
    · exact Or.inl ⟨hne, Or.inr (Or.inl h)⟩
    · exact Or.inr (Or.inl h)
    · exact Or.inl ⟨hne, Or.inl h⟩
    · exact Or.inl ⟨hne, Or.inr (Or.inr h)⟩
    · exact Or.inr (Or.inr h)

variable [DecidableEq α]

instance (r : List (List α) × List α) (v : List α) : Decidable (Shows r v) := by
  unfold Shows
  infer_instance

/-- A text cut from the left into pieces that are paths, each as long as it can
be, with the letter after a piece dropped. The second part is the last piece,
which the end of the text closed; w is what has been read of the current piece. -/
def cut (N : Paths α) : List α → List α → List (List α) × List α
  | w, [] => ([], w)
  | w, c :: text =>
      if w ++ [c] ∈ N then cut N (w ++ [c]) text else (w :: (cut N [] text).1, (cut N [] text).2)

/-- The words met when each letter that goes on is followed to a longer path,
and each letter that does not leads down the chain of suffixes to the root. -/
def visits (N : Paths α) : List α → List α → List (List α)
  | _, [] => []
  | w, c :: text =>
      if w ++ [c] ∈ N then (w ++ [c]) :: visits N (w ++ [c]) text else chain N w ++ visits N [] text

variable {N : Paths α} {w : List α} {c : α}

theorem visits_hit {text : List α} (h : w ++ [c] ∈ N) :
    visits N w (c :: text) = (w ++ [c]) :: visits N (w ++ [c]) text := if_pos h

theorem visits_miss {text : List α} (h : w ++ [c] ∉ N) :
    visits N w (c :: text) = chain N w ++ visits N [] text := if_neg h

theorem cut_hit {text : List α} (h : w ++ [c] ∈ N) : cut N w (c :: text) = cut N (w ++ [c]) text := if_pos h

theorem cut_miss {text : List α} (h : w ++ [c] ∉ N) :
    cut N w (c :: text) = (w :: (cut N [] text).1, (cut N [] text).2) := if_neg h

/-- A text that is a path is one piece. -/
theorem cut_path (text w : List α) (h : w ++ text ∈ N) : cut N w text = ([], w ++ text) := by
  induction text generalizing w with
  | nil => rw [cut, List.append_nil]
  | cons c text ih =>
      have hsplit : w ++ c :: text = w ++ [c] ++ text := by simp
      rw [hsplit] at h ⊢
      rw [cut_hit (Paths.of_append h), ih _ h]

/-- The words met are those that the pieces show. -/
theorem mem_visits_or (text : List α) (w : List α) {v : List α} (hv : v ∈ N) :
    v ∈ visits N w text ∨ (v ≠ [] ∧ v <+: w) ↔ Shows (cut N w text) v := by
  induction text generalizing w with
  | nil => simp [visits, cut, Shows]
  | cons c text ih =>
      by_cases hc : w ++ [c] ∈ N
      · rw [visits_hit hc, cut_hit hc, ← ih, List.prefix_concat_iff, List.mem_cons]
        have hne : v = w ++ [c] → v ≠ [] := fun h => by simp [h]
        tauto
      · have hnil : ¬(v ≠ [] ∧ v <+: []) := fun h => h.1 (List.prefix_nil.mp h.2)
        rw [visits_miss hc, cut_miss hc, shows_cons, ← ih, List.mem_append, mem_chain]
        tauto

theorem mem_visits {text v : List α} (hv : v ∈ N) : v ∈ visits N [] text ↔ Shows (cut N [] text) v := by
  rw [← mem_visits_or text [] hv]
  refine (or_iff_left ?_).symm
  exact fun h => h.1 (List.prefix_nil.mp h.2)

/-- Only words that occur are met. -/
theorem visits_infix {text v : List α} (hv : v ∈ visits N w text) : v <:+: w ++ text := by
  induction text generalizing w with
  | nil => cases hv
  | cons c text ih =>
      have hsplit : w ++ c :: text = w ++ [c] ++ text := by simp
      by_cases hc : w ++ [c] ∈ N
      · rw [visits_hit hc] at hv
        rw [hsplit]
        rcases List.mem_cons.mp hv with rfl | hv
        · exact (List.prefix_append _ _).isInfix
        · exact ih hv
      · rw [visits_miss hc] at hv
        rcases List.mem_append.mp hv with hv | hv
        · exact (mem_chain.mp hv).1.isInfix.trans (List.prefix_append _ _).isInfix
        · rw [hsplit]
          exact (ih hv).trans (List.suffix_append _ _).isInfix

end StudyNotes.Words.GreedyCut
