import Mathlib.Data.List.Infix

namespace StudyNotes.Words.Seams

variable {α : Type} {m a b : List α}

/-- A word occurs in a product inside one of the factors, or with a part in each. -/
theorem infix_append_iff :
    m <:+: a ++ b ↔ m <:+: a ∨ m <:+: b ∨ ∃ u v, u ++ v = m ∧ u <:+ a ∧ v <+: b := by
  constructor
  · rintro ⟨s, t, h⟩
    rcases List.append_eq_append_iff.1 h with ⟨c, ha, -⟩ | ⟨c, hsm, hb⟩
    · exact Or.inl ⟨s, c, ha.symm⟩
    · rcases List.append_eq_append_iff.1 hsm with ⟨d, ha, hm⟩ | ⟨d, hs, hc⟩
      · exact Or.inr (Or.inr ⟨d, c, hm.symm, ⟨s, ha.symm⟩, ⟨t, hb.symm⟩⟩)
      · refine Or.inr (Or.inl ⟨d, t, ?_⟩)
        rw [hb, hc]
  · rintro (h | h | ⟨u, v, rfl, ⟨s, rfl⟩, ⟨t, rfl⟩⟩)
    · exact h.trans (List.prefix_append a b).isInfix
    · exact h.trans (List.suffix_append a b).isInfix
    · exact ⟨s, t, by simp only [List.append_assoc]⟩

/-- A word with one more letter shows another nowhere but at its end when it does not show it without
that letter. -/
theorem only_at_end_iff {x : α} :
    (∀ before after, a ++ [x] = before ++ (m ++ after) → after = []) ↔ ¬m <:+: a := by
  constructor
  · rintro hend ⟨s, t, rfl⟩
    have hnil := hend s (t ++ [x]) (by simp only [List.append_assoc])
    simp at hnil
  · intro hno before after heq
    rcases List.eq_nil_or_concat after with hnil | ⟨rest, y, rfl⟩
    · exact hnil
    · rw [List.concat_eq_append, ← List.append_assoc, ← List.append_assoc] at heq
      exact absurd ⟨before, rest, (List.append_inj_left' heq rfl).symm⟩ hno

end StudyNotes.Words.Seams
