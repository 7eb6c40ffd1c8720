import Mathlib.Data.List.Infix
import Mathlib.Data.Nat.Find

namespace StudyNotes.Words.Leftmost

variable {α : Type} [DecidableEq α] {d s p r : List α} {parts : List (List α)}

section occurrence

theorem dropInfix?_eq_some :
    s.dropInfix? d = some (p, r) ↔ s = p ++ d ++ r ∧ ∀ p' r', s = p' ++ d ++ r' → p.length ≤ p'.length := by
  simp only [List.dropInfix?_eq_some_iff, beq_iff_eq, exists_eq_right, ge_iff_le]
  refine and_congr_right fun _ => ⟨fun h p' r' heq => h p' d r' heq rfl, ?_⟩
  rintro h p' _ r' heq rfl
  exact h p' r' heq

theorem dropInfix?_eq_none : s.dropInfix? d = none ↔ ¬d <:+: s := by
  constructor
  · classical
    rintro hnone ⟨a, b, hab⟩
    have hex : ∃ n, ∃ p r, s = p ++ d ++ r ∧ p.length = n := ⟨_, a, b, hab.symm, rfl⟩
    obtain ⟨p, r, hs, hlen⟩ := Nat.find_spec hex
    have hsome : s.dropInfix? d = some (p, r) := by
      refine dropInfix?_eq_some.2 ⟨hs, fun p' r' heq => ?_⟩
      rw [hlen]
      exact Nat.find_min' hex ⟨p', r', heq, rfl⟩
    rw [hnone] at hsome
    cases hsome
  · intro hno
    cases hsome : s.dropInfix? d with
    | none => rfl
    | some pr => exact absurd ⟨pr.1, pr.2, (dropInfix?_eq_some.1 hsome).1.symm⟩ hno

theorem dropInfix?_letter {x : α} : s.dropInfix? [x] = some (p, r) ↔ s = p ++ x :: r ∧ x ∉ p := by
  rw [dropInfix?_eq_some, List.append_assoc, List.singleton_append]
  refine and_congr_right fun hs => ⟨fun hfirst hmem => ?_, fun hnot p' r' heq => ?_⟩
  · obtain ⟨a, b, rfl⟩ := List.append_of_mem hmem
    have hle := hfirst a (b ++ x :: r) (by rw [hs]; simp)
    rw [List.length_append, List.length_cons] at hle
    omega
  · rw [← Nat.not_lt]
    intro hlt
    refine hnot ?_
    rw [hs, List.append_assoc, List.singleton_append] at heq
    obtain ⟨c, rfl, -⟩ | ⟨c, hp, hc⟩ := List.append_eq_append_iff.1 heq
    · rw [List.length_append] at hlt
      omega
    · cases c with
      | nil =>
          rw [hp, List.append_nil] at hlt
          omega
      | cons y c =>
          cases hc
          rw [hp]
          exact List.mem_append_right _ List.mem_cons_self

/-- No end of the word is a start of it. -/
def Unbordered (d : List α) : Prop := ∀ e ∈ d.tails, e <+: d → e = [] ∨ e = d

instance : Decidable (Unbordered d) := inferInstanceAs (Decidable (∀ e ∈ d.tails, e <+: d → e = [] ∨ e = d))

/-- A text without the word shows no sooner occurrence when the word is put behind it. -/
theorem dropInfix?_append (hd : Unbordered d) (hs : ¬d <:+: s) : (s ++ d ++ r).dropInfix? d = some (s, r) := by
  refine dropInfix?_eq_some.2 ⟨rfl, fun p r' heq => ?_⟩
  rw [List.append_assoc, List.append_assoc] at heq
  obtain ⟨c, hp, -⟩ | ⟨c, hsc, hc⟩ := List.append_eq_append_iff.1 heq
  · rw [hp, List.length_append]
    exact Nat.le_add_right _ _
  · obtain ⟨e, hde, he⟩ | ⟨e, hce, -⟩ := List.append_eq_append_iff.1 hc.symm
    -- An occurrence that begins in the text and ends in the word would show a border of the word.
    · have hsuffix : e <:+ d := ⟨c, hde.symm⟩
      have hprefix : e <+: d :=
        List.prefix_of_prefix_length_le (he ▸ List.prefix_append e r') (List.prefix_append d r) hsuffix.length_le
      obtain rfl | rfl := hd e ((List.mem_tails e d).2 hsuffix) hprefix
      · refine absurd ⟨p, [], ?_⟩ hs
        rw [hsc, hde, List.append_nil, List.append_nil]
      · rw [hsc, List.self_eq_append_left.1 hde, List.append_nil]
    · refine absurd ⟨p, e, ?_⟩ hs
      rw [hsc, hce, List.append_assoc]

end occurrence

/-- The parts of a text between the occurrences of a delimiter, each looked for from the end of
the one before. -/
inductive Cuts (d : List α) : List α → List (List α) → Prop
  | last {s : List α} (h : ¬d <:+: s) : Cuts d s [s]
  | cut {s p r : List α} {parts : List (List α)} (h : s.dropInfix? d = some (p, r)) (hrest : Cuts d r parts) :
      Cuts d s (p :: parts)

theorem Cuts.ne_nil (h : Cuts d s parts) : parts ≠ [] := by
  cases h <;> exact List.cons_ne_nil _ _

theorem Cuts.join (h : Cuts d s parts) : d.intercalate parts = s := by
  induction h with
  | last h => exact List.intercalate_singleton
  | cut h hrest ih =>
      rw [List.intercalate_cons_of_ne_nil hrest.ne_nil, ih]
      exact (dropInfix?_eq_some.1 h).1.symm

theorem Cuts.unique {parts' : List (List α)} (h : Cuts d s parts) (h' : Cuts d s parts') : parts = parts' := by
  induction h generalizing parts' with
  | last hno =>
      cases h' with
      | last => rfl
      | cut hcut => exact absurd (dropInfix?_eq_none.2 hno) (by rw [hcut]; exact Option.some_ne_none _)
  | cut hcut hrest ih =>
      cases h' with
      | last hno => exact absurd (dropInfix?_eq_none.2 hno) (by rw [hcut]; exact Option.some_ne_none _)
      | cut hcut' hrest' =>
          cases hcut.symm.trans hcut'
          rw [ih hrest']

/-- What a cut at the leftmost occurrences is, part by part: after every number of parts, the
delimiter that ends the next part is the first one in the rest of the text. -/
structure LeftmostSplit (d s : List α) (parts : List (List α)) : Prop where
  ne_nil : parts ≠ []
  join : d.intercalate parts = s
  clear : ∀ p ∈ parts, ¬d <:+: p
  first : ∀ before part after, parts = before ++ part :: after → after ≠ [] →
    ∀ q r, s = before.flatMap (· ++ d) ++ (q ++ d ++ r) → part.length ≤ q.length

theorem LeftmostSplit.cuts (h : LeftmostSplit d s parts) : Cuts d s parts := by
  induction parts generalizing s with
  | nil => exact absurd rfl h.ne_nil
  | cons p parts ih =>
      cases parts with
      | nil =>
          have hs : p = s := List.intercalate_singleton.symm.trans h.join
          rw [← hs]
          exact .last (h.clear p List.mem_cons_self)
      | cons q parts =>
          have hs : s = p ++ d ++ d.intercalate (q :: parts) := by
            rw [← h.join, List.intercalate_cons_cons]
          refine .cut (dropInfix?_eq_some.2 ⟨hs, fun p' r' heq => ?_⟩) (ih ⟨List.cons_ne_nil q parts, rfl, ?_, ?_⟩)
          · exact h.first [] p (q :: parts) rfl (List.cons_ne_nil q parts) p' r' heq
          · exact fun x hx => h.clear x (List.mem_cons_of_mem p hx)
          · intro before part after heq hne a b hab
            refine h.first (p :: before) part after (by rw [heq]; rfl) hne a b ?_
            rw [hs, hab, List.flatMap_cons, List.append_assoc (_ ++ d)]

variable (hd : d ≠ [])

include hd

theorem length_rest_lt (h : s.dropInfix? d = some (p, r)) : r.length < s.length := by
  have hpos := List.length_pos_of_ne_nil hd
  rw [(dropInfix?_eq_some.1 h).1]
  simp only [List.length_append]
  omega

theorem exists_cuts (s : List α) : ∃ parts, Cuts d s parts := by
  induction hn : s.length using Nat.strong_induction_on generalizing s with
  | _ n ih =>
      cases hcut : s.dropInfix? d with
      | none => exact ⟨[s], .last (dropInfix?_eq_none.1 hcut)⟩
      | some pr =>
          have hlt := length_rest_lt hd hcut
          obtain ⟨parts, hparts⟩ := ih _ (hn ▸ hlt) pr.2 rfl
          exact ⟨pr.1 :: parts, .cut hcut hparts⟩

theorem part_clear (h : s.dropInfix? d = some (p, r)) : ¬d <:+: p := by
  obtain ⟨hs, hfirst⟩ := dropInfix?_eq_some.1 h
  rintro ⟨a, b, rfl⟩
  have hpos := List.length_pos_of_ne_nil hd
  have hle := hfirst a (b ++ d ++ r) (by rw [hs]; simp only [List.append_assoc])
  simp only [List.length_append] at hle
  omega

theorem Cuts.leftmost (h : Cuts d s parts) : LeftmostSplit d s parts := by
  refine ⟨h.ne_nil, h.join, ?_, ?_⟩
  · induction h with
    | last hno => simpa using hno
    | cut hcut _ ih =>
        rintro q (_ | ⟨_, hq⟩)
        · exact part_clear hd hcut
        · exact ih q hq
  · induction h with
    | last =>
        rintro before part after heq hne
        have hlen := congrArg List.length heq
        have hpos := List.length_pos_of_ne_nil hne
        simp only [List.length_append, List.length_cons, List.length_nil] at hlen
        omega
    | cut hcut _ ih =>
        obtain ⟨hs, hfirst⟩ := dropInfix?_eq_some.1 hcut
        rintro (_ | ⟨p, before⟩) part after heq hne q r hq
        · cases heq
          exact hfirst q r hq
        · cases heq
          refine ih before part after rfl hne q r ?_
          rw [hs, List.flatMap_cons, List.append_assoc (_ ++ d), List.append_cancel_left_eq] at hq
          exact hq

end StudyNotes.Words.Leftmost
