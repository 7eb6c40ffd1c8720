import StudyNotes.Heap.Triple
import Mathlib.Logic.Function.Basic

namespace StudyNotes.Heap.Outcome

open Program Triple

variable {α β γ : Type}

/-- A computation that does not fail, with a result in P. -/
def Succeeds (x : Except Fault α) (P : α → Prop) : Prop := ∃ v, x = .ok v ∧ P v

variable {x : Except Fault α} {P Q : α → Prop}

theorem succeeds_ok {v : α} (h : P v) : Succeeds (.ok v) P := ⟨v, rfl, h⟩

theorem Succeeds.bind {f : α → Except Fault γ} {R : γ → Prop} (hx : Succeeds x P)
    (hf : ∀ v, P v → Succeeds (f v) R) : Succeeds (x >>= f) R := by
  obtain ⟨v, rfl, hv⟩ := hx
  exact hf v hv

theorem eq_ok_of_bind {f : α → Except Fault γ} {w : γ} (h : x >>= f = .ok w) : ∃ v, x = .ok v ∧ f v = .ok w := by
  cases x with
  | error e => cases h
  | ok v => exact ⟨v, rfl, h⟩

theorem Succeeds.mono (hx : Succeeds x P) (h : ∀ v, P v → Q v) : Succeeds x Q := by
  obtain ⟨v, hv, hp⟩ := hx
  exact ⟨v, hv, h v hp⟩

theorem Succeeds.of_eq_ok {v : α} (hx : Succeeds x P) (h : x = .ok v) : P v := by
  obtain ⟨w, hw, hp⟩ := hx
  cases hw.symm.trans h
  exact hp

theorem Spec.succeeds {p : Mem β → Prop} {y : HeapM β α} {q : α → Mem β → Prop} (h : Spec p y q (fun _ => False))
    {m : Mem β} (hm : p m) : Succeeds (y m) (fun r => q r.1 r.2) := by
  obtain ⟨v, m', hy, hq⟩ := (h m hm).exists_ok
  exact ⟨(v, m'), hy, hq⟩

section Cells

/-- A memory as a function, where only its live blocks matter. -/
def cell (m : Mem β) (a : Addr) : Option β := m.cells.lookup a

variable {m m' : Mem β} {a : Addr} {b : β}

theorem cells_of_malloc {A : Allocator β} {size : Nat} {init : UInt8 → β} (h : malloc A size init m = .ok (a, m')) :
    cell m a = none ∧ cell m' = Function.update (cell m) a (some (init (A.garbage m))) := by
  unfold malloc at h
  split_ifs at h
  cases h
  refine ⟨Finmap.lookup_eq_none.2 (A.malloc_fresh m size), funext fun a' => ?_⟩
  rcases eq_or_ne a' (A.malloc m size) with rfl | hne
  · rw [Function.update_self, cell, Finmap.lookup_insert]
  · rw [Function.update_of_ne hne, cell, Finmap.lookup_insert_of_ne _ hne, cell]

theorem exists_malloc (A : Allocator β) {size : Nat} (init : UInt8 → β) (m : Mem β) (hsize : size ≤ maxRequest) :
    ∃ a m', malloc A size init m = .ok (a, m') :=
  ⟨_, _, if_neg (Nat.not_lt.2 hsize)⟩

theorem load_eq_ok_iff : load a m = .ok (b, m') ↔ m' = m ∧ cell m a = some b := by
  unfold load cell
  cases m.cells.lookup a <;> simp [and_comm, eq_comm]

theorem cell_of_load_error {e : Fault} (h : load a m = .error e) : cell m a = none := by
  unfold load at h
  split at h <;> [cases h; assumption]

theorem cells_of_free {u : Unit} (h : free a m = .ok (u, m')) : cell m' = Function.update (cell m) a none := by
  unfold free at h
  split at h
  · cases h
    funext a'
    rcases eq_or_ne a' a with rfl | hne
    · rw [Function.update_self, cell, Finmap.lookup_erase]
    · rw [Function.update_of_ne hne, cell, Finmap.lookup_erase_ne hne, cell]
  · cases h

theorem exists_free_of_cell (h : cell m a = some b) : ∃ m', free a m = .ok ((), m') := by
  unfold free
  rw [show m.cells.lookup a = some b from h]
  exact ⟨_, rfl⟩

theorem cell_of_free_error {e : Fault} (h : free a m = .error e) : cell m a = none := by
  unfold free at h
  split at h <;> [cases h; assumption]

end Cells

end StudyNotes.Heap.Outcome
