import StudyNotes.Words.Leftmost

namespace StudyNotes.Words.BasicString

open Leftmost

variable {α : Type}

/-- The characters from a position on, at most the given number of them; std::out_of_range is
thrown for a position beyond the end. No string is as long as npos, which is here none. -/
def substr (s : List α) (pos : Nat) (count : Option Nat) : Option (List α) :=
  if pos ≤ s.length then
    match count with
    | some n => some ((s.drop pos).take n)
    | none => some (s.drop pos)
  else
    none

theorem substr_count {s : List α} {pos : Nat} (hpos : pos ≤ s.length) (n : Nat) :
    substr s pos (some n) = some ((s.drop pos).take n) :=
  if_pos hpos

theorem substr_rest {s : List α} {pos : Nat} (hpos : pos ≤ s.length) : substr s pos none = some (s.drop pos) :=
  if_pos hpos

variable [DecidableEq α]

/-- The first occurrence at or after a position. -/
def find (s d : List α) (pos : Nat) : Option Nat :=
  if pos ≤ s.length then ((s.drop pos).dropInfix? d).map fun pr => pos + pr.1.length else none

def findChar (s : List α) (ch : α) (pos : Nat) : Option Nat := ((s.drop pos).idxOf? ch).map (pos + ·)

variable {s d p r : List α} {pos : Nat}

theorem find_of_cut (hpos : pos ≤ s.length) (h : (s.drop pos).dropInfix? d = some (p, r)) :
    find s d pos = some (pos + p.length) := by
  rw [find, if_pos hpos, h]
  rfl

theorem find_of_clear (h : ¬d <:+: s.drop pos) : find s d pos = none := by
  rw [find, dropInfix?_eq_none.2 h, Option.map_none, ite_self]

theorem idxOf?_eq (l : List α) (x : α) : l.idxOf? x = (l.dropInfix? [x]).map fun pr => pr.1.length := by
  cases h : l.dropInfix? [x] with
  | none =>
      rw [dropInfix?_eq_none, List.singleton_infix_iff] at h
      rw [List.idxOf?_eq_none_iff.2 h, Option.map_none]
  | some pr =>
      obtain ⟨p, r⟩ := pr
      obtain ⟨rfl, hnot⟩ := dropInfix?_letter.1 h
      rw [Option.map_some, List.idxOf?_eq_some_iff]
      refine ⟨by simp, by simp, fun j hj heq => hnot ?_⟩
      rw [List.getElem_append_left hj] at heq
      rw [← heq]
      exact List.getElem_mem hj

theorem findChar_eq_find (ch : α) (hpos : pos ≤ s.length) : findChar s ch pos = find s [ch] pos := by
  rw [findChar, find, if_pos hpos, idxOf?_eq, Option.map_map]
  rfl

end StudyNotes.Words.BasicString
