import StudyNotes.Heap.Triple

namespace StudyNotes.Heap.Relational

open Program Triple

variable {α β γ : Type} {P : Mem β → Prop}

/-- The two programs cannot be told apart in a memory with P. -/
def Alike (P : Mem β → Prop) (x y : HeapM β α) : Prop := ∀ m, P m → x m = y m

/-- Where both programs return a result in K, they return the same one in the
same memory. -/
def Agree (K : α → Prop) (x y : HeapM β α) : Prop :=
  ∀ m r r' m₁ m₂, x m = .ok (r, m₁) → y m = .ok (r', m₂) → K r → K r' → r = r' ∧ m₁ = m₂

theorem spec_any {x : HeapM β α} : Spec P x (fun _ _ => True) (fun _ => True) := by
  intro m _
  cases h : x m <;> trivial

theorem bind_eq_ok {x : HeapM β α} {f : α → HeapM β γ} {m : Mem β} {r : γ × Mem β} (h : (x >>= f) m = .ok r) :
    ∃ v m₁, x m = .ok (v, m₁) ∧ f v m₁ = .ok r := by
  change Except.bind (x m) _ = _ at h
  cases hx : x m with
  | ok p =>
      rw [hx] at h
      exact ⟨p.1, p.2, rfl, h⟩
  | error e =>
      rw [hx] at h
      cases h

theorem bind_of_ok {x : HeapM β α} {f : α → HeapM β γ} {m m₁ : Mem β} {v : α} (h : x m = .ok (v, m₁)) :
    (x >>= f) m = f v m₁ := by
  change Except.bind (x m) _ = _
  rw [h]
  rfl

theorem alike_refl (x : HeapM β α) : Alike P x x := fun _ _ => rfl

theorem alike_bind {x : HeapM β α} {f g : α → HeapM β γ} {R : α → Mem β → Prop}
    (hx : Spec P x R (fun _ => True)) (hfg : ∀ v, Alike (R v) (f v) (g v)) : Alike P (x >>= f) (x >>= g) := by
  intro m hm
  have h := hx m hm
  change Except.bind (x m) _ = Except.bind (x m) _
  cases hr : x m with
  | ok p => rw [hr] at h; exact hfg p.1 p.2 h
  | error e => rfl

theorem alike_head {x y : HeapM β α} {f : α → HeapM β γ} (h : Alike P x y) : Alike P (x >>= f) (y >>= f) := by
  intro m hm
  change Except.bind (x m) _ = Except.bind (y m) _
  rw [h m hm]

variable {K : γ → Prop}

theorem agree_bind {x : HeapM β α} {f g : α → HeapM β γ} (h : ∀ v, Agree K (f v) (g v)) :
    Agree K (x >>= f) (x >>= g) := by
  intro m r r' m₁ m₂ hx hy hr hr'
  obtain ⟨v, n, hv, hf⟩ := bind_eq_ok hx
  obtain ⟨v', n', hv', hg⟩ := bind_eq_ok hy
  rw [hv] at hv'
  cases hv'
  exact h v n r r' m₁ m₂ hf hg hr hr'

theorem agree_ite {p : Prop} [Decidable p] {x y x' y' : HeapM β γ} (h : p → Agree K x x') (h' : ¬p → Agree K y y') :
    Agree K (if p then x else y) (if p then x' else y') := by
  by_cases hp : p
  · rw [if_pos hp, if_pos hp]; exact h hp
  · rw [if_neg hp, if_neg hp]; exact h' hp

theorem agree_refl (x : HeapM β γ) : Agree K x x := by
  intro m r r' m₁ m₂ hx hy _ _
  rw [hx] at hy
  cases hy
  exact ⟨rfl, rfl⟩

/-- No result of the first program is in K. -/
theorem agree_of_left {x y : HeapM β γ} (h : Spec (fun _ => True) x (fun r _ => ¬K r) (fun _ => True)) :
    Agree K x y := by
  intro m r r' m₁ m₂ hx _ hr _
  have hs := h m trivial
  rw [hx] at hs
  exact absurd hr hs

theorem agree_symm {x y : HeapM β γ} (h : Agree K x y) : Agree K y x := by
  intro m r r' m₁ m₂ hx hy hr hr'
  obtain ⟨hv, hm⟩ := h m r' r m₂ m₁ hy hx hr' hr
  exact ⟨hv.symm, hm.symm⟩

end StudyNotes.Heap.Relational
