import StudyNotes.Heap.Triple

namespace StudyNotes.Heap.Mirror

open Program Triple

variable {α β β' γ : Type} {P : Mem β → Prop} {P' : Mem β' → Prop}

/-- In a memory with P the program ends with v and leaves the memory as it is. -/
def Gives (P : Mem β → Prop) (x : HeapM β α) (v : α) : Prop := ∀ m, P m → x m = .ok (v, m)

/-- What x finds in a memory with P, it finds without changing it, and y finds the
same in every memory with P'. -/
def Mirrors (P : Mem β → Prop) (P' : Mem β' → Prop) (x : HeapM β α) (y : HeapM β' α) : Prop :=
  ∀ m v m', P m → x m = .ok (v, m') → m' = m ∧ Gives P' y v

section Gives

variable {x : HeapM β α} {f : α → HeapM β γ} {v : α} {w : γ}

theorem gives_pure (v : α) : Gives P (pure v) v := fun _ _ => rfl

theorem gives_bind (hx : Gives P x v) (hf : Gives P (f v) w) : Gives P (x >>= f) w := by
  intro m hm
  change Except.bind (x m) _ = _
  rw [hx m hm]
  exact hf m hm

theorem gives_assert {p : Prop} [Decidable p] (hp : p) : Gives P (assert p) () := by
  intro m _
  rw [assert, if_pos hp]
  rfl

theorem gives_load {S : Multiset (Addr × β)} {a : Addr} {b : β} (hb : (a, b) ∈ S) : Gives (Holds S) (load a) b := by
  intro m hm
  rw [load, hm.lookup hb]

theorem gives_liveBlocks (S : Multiset (Addr × β)) : Gives (Holds S) liveBlocks (Multiset.card S) := by
  intro m hm
  have hcard : m.cells.keys.card = Multiset.card S := by rw [← Finset.card_val, holds_keys hm, Multiset.card_map]
  rw [liveBlocks, hcard]

/-- A counting loop whose state before each pass is known. -/
theorem gives_range {σ : Type} {f : σ → Nat → HeapM β σ} (s : Nat → σ) (n : Nat)
    (h : ∀ i, i < n → Gives P (f (s i) i) (s (i + 1))) : Gives P ((List.range n).foldlM f (s 0)) (s n) := by
  induction n with
  | zero => exact gives_pure _
  | succ n ih =>
      rw [List.range_succ, List.foldlM_append]
      refine gives_bind (ih fun i hi => h i (by omega)) ?_
      rw [List.foldlM_cons]
      exact gives_bind (h n (by omega)) (gives_pure _)

theorem spec_gives {Q : γ → Mem β → Prop} {E : Fault → Prop} (hx : Gives P x v) (h : Spec P (f v) Q E) :
    Spec P (x >>= f) Q E := by
  intro m hm
  change Ends (Except.bind (x m) _) Q E
  rw [hx m hm]
  exact h m hm

end Gives

section Mirrors

variable {x : HeapM β α} {y : HeapM β' α} {f : α → HeapM β γ} {g : α → HeapM β' γ}

theorem mirrors_pure (v : α) : Mirrors P P' (pure v) (pure v) := by
  intro m v' m' _ h
  cases h
  exact ⟨rfl, gives_pure _⟩

theorem mirrors_fail (e : Fault) : Mirrors P P' (fail e) y := by
  intro m v m' _ h
  cases h

theorem mirrors_bind (hx : Mirrors P P' x y) (hf : ∀ v, Mirrors P P' (f v) (g v)) :
    Mirrors P P' (x >>= f) (y >>= g) := by
  intro m w m' hm h
  change Except.bind (x m) _ = _ at h
  cases hr : x m with
  | error e =>
      rw [hr] at h
      cases h
  | ok p =>
      rw [hr] at h
      obtain ⟨hp, hy⟩ := hx m p.1 p.2 hm hr
      obtain ⟨rfl, hg⟩ := hf p.1 p.2 w m' (hp ▸ hm) h
      exact ⟨hp, gives_bind hy hg⟩

/-- A part whose outcome is known on both sides. -/
theorem mirrors_step {v : α} (hx : Gives P x v) (hy : Gives P' y v) (hf : Mirrors P P' (f v) (g v)) :
    Mirrors P P' (x >>= f) (y >>= g) := by
  intro m w m' hm h
  change Except.bind (x m) _ = _ at h
  rw [hx m hm] at h
  obtain ⟨hm', hg⟩ := hf m w m' hm h
  exact ⟨hm', gives_bind hy hg⟩

/-- A part that only x has. -/
theorem mirrors_left {y : HeapM β' γ} {v : α} (hx : Gives P x v) (hf : Mirrors P P' (f v) y) :
    Mirrors P P' (x >>= f) y := by
  intro m w m' hm h
  change Except.bind (x m) _ = _ at h
  rw [hx m hm] at h
  exact hf m w m' hm h

/-- A part that only y has. -/
theorem mirrors_right {x : HeapM β γ} {v : α} (hy : Gives P' y v) (hg : Mirrors P P' x (g v)) :
    Mirrors P P' x (y >>= g) := by
  intro m w m' hm h
  obtain ⟨hm', hg'⟩ := hg m w m' hm h
  exact ⟨hm', gives_bind hy hg'⟩

theorem mirrors_ite {p : Prop} [Decidable p] {x' : HeapM β α} {y' : HeapM β' α} (hx : Mirrors P P' x y)
    (hy : Mirrors P P' x' y') : Mirrors P P' (if p then x else x') (if p then y else y') := by
  split_ifs
  · exact hx
  · exact hy

theorem mirrors_assert (p : Prop) [Decidable p] : Mirrors P P' (assert p) (assert p) :=
  mirrors_ite (mirrors_pure ()) (mirrors_fail _)

/-- Where the first block of a program is missing, it finds nothing. -/
theorem mirrors_load {S : Multiset (Addr × β)} {a : Addr} {f : β → HeapM β γ} {y : HeapM β' γ}
    (h : ∀ b, (a, b) ∈ S → Mirrors (Holds S) P' (load a >>= f) y) : Mirrors (Holds S) P' (load a >>= f) y := by
  intro m w m' hm hr
  cases hb : m.cells.lookup a with
  | none =>
      change Except.bind (load a m) _ = _ at hr
      rw [load, hb] at hr
      cases hr
  | some b => exact h b ((hm.2 a b).mp hb) m w m' hm hr

theorem Mirrors.gives {Q : α → Mem β → Prop} {m : Mem β} (h : Mirrors P P' x y) (hm : P m)
    (hx : Ends (x m) Q (fun _ => False)) : ∃ v, Q v m ∧ Gives P' y v := by
  obtain ⟨v, m', hr, hv⟩ := hx.exists_ok
  obtain ⟨rfl, hy⟩ := h m v m' hm hr
  exact ⟨v, hv, hy⟩

end Mirrors

/-- Cells at distinct addresses make up a memory. -/
theorem exists_holds (S : Multiset (Addr × β)) (h : (S.map Prod.fst).Nodup) : ∃ m, Holds S m := by
  induction S using Multiset.induction with
  | empty => exact ⟨emptyMem, holds_empty⟩
  | cons c S ih =>
      rw [Multiset.map_cons, Multiset.nodup_cons] at h
      obtain ⟨m, hm⟩ := ih h.2
      refine ⟨⟨m.cells.insert c.1 c.2, 0⟩, holds_alloc hm (fun hc => h.1 ?_)⟩
      rw [← Finmap.mem_keys, ← Finset.mem_val, holds_keys hm] at hc
      exact hc

end StudyNotes.Heap.Mirror
