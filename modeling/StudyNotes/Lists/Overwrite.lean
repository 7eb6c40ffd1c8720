import Mathlib.Data.List.Basic

namespace StudyNotes.Lists.Overwrite

variable {α : Type}

/-- The cells from a position on are replaced by the new ones. -/
def overwrite (l : List α) (pos : Nat) (new : List α) : List α := l.take pos ++ (new ++ l.drop (pos + new.length))

theorem length_overwrite {l new : List α} {pos : Nat} (h : pos + new.length ≤ l.length) :
    (overwrite l pos new).length = l.length := by
  simp only [overwrite, List.length_append, List.length_take, List.length_drop]
  omega

theorem take_overwrite {l : List α} {pos : Nat} (h : pos ≤ l.length) (new : List α) :
    (overwrite l pos new).take pos = l.take pos := by
  rw [overwrite, List.take_append_of_le_length (by simp [h]), List.take_take, Nat.min_self]

theorem drop_overwrite {l : List α} {pos : Nat} (h : pos ≤ l.length) (new : List α) :
    (overwrite l pos new).drop pos = new ++ l.drop (pos + new.length) := by
  rw [overwrite, List.drop_append_of_le_length (by simp [h]), List.drop_of_length_le (List.length_take_le _ _),
    List.nil_append]

theorem overwrite_zero (l new : List α) : overwrite l 0 new = new ++ l.drop new.length := by
  rw [overwrite, List.take_zero, List.nil_append, Nat.zero_add]

theorem take_overwrite_zero (l new : List α) : (overwrite l 0 new).take new.length = new := by
  rw [overwrite_zero, List.take_left]

theorem set_eq_overwrite {l : List α} {pos : Nat} (h : pos < l.length) (a : α) : l.set pos a = overwrite l pos [a] := by
  rw [List.set_eq_take_append_cons_drop, if_pos h, overwrite, List.singleton_append, List.length_singleton]

/-- Cells written one after the other are written at once. -/
theorem overwrite_overwrite {l xs : List α} {pos : Nat} (h : pos + xs.length ≤ l.length) (ys : List α) :
    overwrite (overwrite l pos xs) (pos + xs.length) ys = overwrite l pos (xs ++ ys) := by
  have hlen : (l.take pos ++ xs).length = pos + xs.length := by
    rw [List.length_append, List.length_take, Nat.min_eq_left (by omega)]
  have hsplit : overwrite l pos xs = (l.take pos ++ xs) ++ l.drop (pos + xs.length) := by
    rw [overwrite, List.append_assoc]
  rw [hsplit, overwrite, ← hlen, List.take_left, List.drop_length_add_append, hlen, List.drop_drop, overwrite,
    List.append_assoc, List.append_assoc, List.length_append, Nat.add_assoc]

end StudyNotes.Lists.Overwrite
