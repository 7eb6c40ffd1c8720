import StudyNotes.Words.Leftmost

namespace StudyNotes.Words.Collapse

open Leftmost

variable {α : Type} [DecidableEq α]

/-- The word is empty or goes on with the separator. -/
def ends (x : α) (w : List α) : Bool := w.head?.all (· == x)

/-- The word with one separator for each run of them, and none at the end. -/
def collapse (x : α) : List α → List α
  | [] => []
  | c :: w => if c = x ∧ ends x (collapse x w) then collapse x w else c :: collapse x w

/-- The beginnings of the word that end before a separator or at the end of the word. -/
def stops (x : α) (w : List α) : List (List α) := w.inits.filter fun p => p ≠ [] ∧ ends x (w.drop p.length)

variable {x : α} {s p w : List α} {parts : List (List α)}

theorem collapse_append (hp : x ∉ p) (w : List α) : collapse x (p ++ w) = p ++ collapse x w := by
  induction p with
  | nil => rfl
  | cons c p ih =>
      rw [List.mem_cons, not_or] at hp
      rw [List.cons_append, collapse, if_neg (fun h => hp.1 h.1.symm), ih hp.2, List.cons_append]

theorem ends_joined (parts : List (List α)) : ends x (parts.flatMap (x :: ·)) = true := by
  cases parts with
  | nil => rfl
  | cons p parts => rw [List.flatMap_cons, List.cons_append, ends, List.head?_cons, Option.all_some, beq_self_eq_true]

theorem ends_cons {c : α} (hc : c ≠ x) (w : List α) : ends x (c :: w) = false := by
  rw [ends, List.head?_cons, Option.all_some, beq_eq_false_iff_ne]
  exact hc

/-- A separator before an empty part is left out. -/
theorem collapse_cons (hp : x ∉ p) (hw : ends x (collapse x w) = true) :
    collapse x (x :: (p ++ w)) = ([p].filter (· ≠ [])).flatMap (x :: ·) ++ collapse x w := by
  rw [collapse, collapse_append hp]
  cases p with
  | nil => exact if_pos ⟨rfl, hw⟩
  | cons c p =>
      rw [List.mem_cons, not_or] at hp
      rw [if_neg (fun h => by rw [List.cons_append, ends_cons (Ne.symm hp.1)] at h; cases h.2)]
      simp

/-- The parts between the separators, without the empty ones, give the collapsed word. -/
theorem collapse_cuts (h : Cuts [x] s parts) :
    collapse x (x :: s) = (parts.filter (· ≠ [])).flatMap (x :: ·) := by
  induction h with
  | last hclear =>
      rw [List.singleton_infix_iff] at hclear
      have hcons := collapse_cons (w := []) hclear rfl
      rwa [List.append_nil, collapse, List.append_nil] at hcons
  | cut hcut _ ih =>
      obtain ⟨rfl, hp⟩ := dropInfix?_letter.1 hcut
      rw [collapse_cons hp (by rw [ih]; exact ends_joined _), ih, ← List.flatMap_append, ← List.filter_append,
        List.singleton_append]

theorem ends_append (hp : x ∉ p) (hne : p ≠ []) (w : List α) : ends x (p ++ w) = false := by
  cases p with
  | nil => exact absurd rfl hne
  | cons c p =>
      rw [List.mem_cons, not_or] at hp
      exact ends_cons (Ne.symm hp.1) _

theorem stops_cons (c : α) (w : List α) :
    stops x (c :: w) = (if ends x w then [[c]] else []) ++ (stops x w).map (c :: ·) := by
  have hcons : stops x (c :: w) = (w.inits.filter fun q => ends x (w.drop q.length)).map (c :: ·) := by
    simp [stops, List.filter_map, Function.comp_def]
  have hhead : (w.inits.filter fun q => ends x (w.drop q.length)) = (if ends x w then [[]] else []) ++ stops x w := by
    cases w with
    | nil => rfl
    | cons e w =>
        rw [stops, List.inits_cons, List.filter_cons, List.filter_cons_of_neg (by simp)]
        simp [List.filter_map, Function.comp_def]
        split <;> simp
  rw [hcons, hhead, List.map_append]
  split <;> rfl

theorem stops_append (hp : x ∉ p) (hne : p ≠ []) (hw : ends x w = true) :
    stops x (p ++ w) = p :: (stops x w).map (p ++ ·) := by
  induction p with
  | nil => exact absurd rfl hne
  | cons c p ih =>
      rw [List.mem_cons, not_or] at hp
      rw [List.cons_append, stops_cons]
      cases p with
      | nil =>
          rw [List.nil_append, if_pos hw]
          rfl
      | cons e p =>
          rw [ends_append hp.2 (List.cons_ne_nil e p), ih hp.2 (List.cons_ne_nil e p)]
          simp

theorem stops_joined (hparts : ∀ p ∈ parts, x ∉ p ∧ p ≠ []) :
    stops x (parts.flatMap (x :: ·)) = parts.inits.tail.map fun ps => ps.flatMap (x :: ·) := by
  induction parts with
  | nil => rfl
  | cons p parts ih =>
      obtain ⟨hp, hne⟩ := hparts p List.mem_cons_self
      have hinits : parts.inits = [] :: parts.inits.tail := by cases parts <;> simp
      rw [List.flatMap_cons, List.cons_append, stops_cons, ends_append hp hne, stops_append hp hne (ends_joined parts),
        ih fun q hq => hparts q (List.mem_cons_of_mem p hq), List.inits_cons, List.tail_cons, hinits]
      simp [Function.comp_def]

end StudyNotes.Words.Collapse
