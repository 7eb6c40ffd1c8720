import Mathlib.Data.List.Basic

namespace StudyNotes.Words.Outline

variable {α : Type} [DecidableEq α]

/-- The lines of a text, each of them closed by a line end. What stands behind the
last line end is not a line. -/
def cutLines (nl : α) : List α → List (List α)
  | [] => []
  | c :: text =>
      if c = nl then [] :: cutLines nl text
      else
        match cutLines nl text with
        | [] => []
        | line :: lines => (c :: line) :: lines

theorem cutLines_line (nl : α) {line : List α} (h : nl ∉ line) (text : List α) :
    cutLines nl (line ++ nl :: text) = line :: cutLines nl text := by
  induction line with
  | nil => simp [cutLines]
  | cons c line ih =>
      rw [List.mem_cons, not_or] at h
      rw [List.cons_append, cutLines, if_neg (Ne.symm h.1), ih h.2]

/-- One entry of an outline: its depth, its text, and whether it is marked. -/
structure Entry (α : Type) where
  depth : Nat
  text : List α
  marked : Bool
deriving DecidableEq

/-- The marked entries in order, each with the texts on the path to it. The path of
an entry consists of the last entries of smaller depth before it. -/
def spelled (path : List (List α)) : List (Entry α) → List (List α)
  | [] => []
  | e :: es => (if e.marked then [(path.take e.depth ++ [e.text]).flatten] else []) ++
      spelled (path.take e.depth ++ [e.text]) es

omit [DecidableEq α] in
theorem spelled_cons (path : List (List α)) (e : Entry α) (es : List (Entry α)) :
    spelled path (e :: es) = (if e.marked then [(path.take e.depth ++ [e.text]).flatten] else []) ++
      spelled (path.take e.depth ++ [e.text]) es := rfl

end StudyNotes.Words.Outline
