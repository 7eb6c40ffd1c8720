import StudyNotes.Heap.Program

namespace StudyNotes.Heap.Triple

open Program

variable {α β γ : Type}

/-- The memory consists of exactly the given cells, at distinct addresses. A
cell that is no longer listed has been freed, and a leaked one must be listed. -/
def Holds (S : Multiset (Addr × β)) (m : Mem β) : Prop :=
  (S.map Prod.fst).Nodup ∧ ∀ a b, m.cells.lookup a = some b ↔ (a, b) ∈ S

def Ends (r : Except Fault (α × Mem β)) (Q : α → Mem β → Prop) (E : Fault → Prop) : Prop :=
  match r with
  | .ok (a, m) => Q a m
  | .error e => E e

/-- From every memory with P the program ends with Q, or with one of the
faults that E tolerates. -/
def Spec (P : Mem β → Prop) (x : HeapM β α) (Q : α → Mem β → Prop) (E : Fault → Prop) : Prop :=
  ∀ m, P m → Ends (x m) Q E

variable {P P' : Mem β → Prop} {Q Q' : α → Mem β → Prop} {E E' : Fault → Prop}
variable {S : Multiset (Addr × β)} {a : Addr} {b : β}

theorem Ends.mono {r : Except Fault (α × Mem β)} (h : Ends r Q E)
    (hQ : ∀ a m, Q a m → Q' a m) (hE : ∀ e, E e → E' e) : Ends r Q' E' := by
  cases r with
  | ok p => exact hQ p.1 p.2 h
  | error e => exact hE e h

theorem Ends.exists_ok {r : Except Fault (α × Mem β)} (h : Ends r Q (fun _ => False)) :
    ∃ a m, r = .ok (a, m) ∧ Q a m := by
  cases r with
  | ok p => exact ⟨p.1, p.2, rfl, h⟩
  | error e => exact h.elim

theorem Ends.eq_error {r : Except Fault (α × Mem β)} {e : Fault} (h : Ends r (fun _ _ => False) (fun e' => e' = e)) :
    r = .error e := by
  cases r with
  | ok p => exact h.elim
  | error e' => exact congrArg Except.error h

theorem Spec.mono {x : HeapM β α} (h : Spec P x Q E) (hP : ∀ m, P' m → P m)
    (hQ : ∀ a m, Q a m → Q' a m) (hE : ∀ e, E e → E' e) : Spec P' x Q' E' :=
  fun m hm => (h m (hP m hm)).mono hQ hE

theorem Spec.post {x : HeapM β α} (h : Spec P x Q E) (hQ : ∀ a m, Q a m → Q' a m) : Spec P x Q' E :=
  h.mono (fun _ hm => hm) hQ (fun _ he => he)

theorem spec_pure {v : α} (h : ∀ m, P m → Q v m) : Spec P (pure v : HeapM β α) Q E := h

theorem spec_fail {e : Fault} (h : E e) : Spec P (fail e : HeapM β α) Q E := fun _ _ => h

theorem spec_bind {x : HeapM β α} {f : α → HeapM β γ} {R : γ → Mem β → Prop}
    (hx : Spec P x Q E) (hf : ∀ v, Spec (Q v) (f v) R E) : Spec P (x >>= f) R E := by
  intro m hm
  have h := hx m hm
  change Ends (Except.bind (x m) _) R E
  cases hr : x m with
  | ok p => rw [hr] at h; exact hf p.1 p.2 h
  | error e => rw [hr] at h; exact h

theorem spec_assert_bind {p : Prop} [Decidable p] {f : Unit → HeapM β α} (hp : p)
    (h : Spec P (f ()) Q E) : Spec P (assert p >>= f) Q E := by
  rw [assert, if_pos hp]
  exact h

theorem spec_ite {p : Prop} [Decidable p] {x y : HeapM β α}
    (hx : p → Spec P x Q E) (hy : ¬p → Spec P y Q E) : Spec P (if p then x else y) Q E := by
  by_cases hp : p
  · rw [if_pos hp]; exact hx hp
  · rw [if_neg hp]; exact hy hp

theorem holds_empty : Holds (0 : Multiset (Addr × β)) emptyMem := by
  simp [Holds, emptyMem]

theorem Holds.lookup {m : Mem β} (h : Holds S m) (hb : (a, b) ∈ S) : m.cells.lookup a = some b :=
  (h.2 a b).mpr hb

theorem Holds.head_notMem {m : Mem β} (h : Holds ((a, b) ::ₘ S) m) : a ∉ S.map Prod.fst := by
  have hn := h.1
  rw [Multiset.map_cons, Multiset.nodup_cons] at hn
  exact hn.1

/-- The cells determine the memory. -/
theorem holds_cells_eq {m m' : Mem β} (h : Holds S m) (h' : Holds S m') : m'.cells = m.cells := by
  apply Finmap.ext_lookup
  intro x
  apply Option.ext
  intro b
  rw [h'.2, h.2]

theorem Holds.nodup {m : Mem β} (h : Holds S m) : (S.map Prod.fst).Nodup := h.1

theorem holds_keys {m : Mem β} (h : Holds S m) : m.cells.keys.val = S.map Prod.fst := by
  refine (Multiset.Nodup.ext m.cells.keys.nodup h.1).mpr (fun a => ?_)
  rw [Finset.mem_val, Finmap.mem_keys, Finmap.mem_iff, Multiset.mem_map]
  constructor
  · rintro ⟨b, hb⟩
    exact ⟨(a, b), (h.2 a b).mp hb, rfl⟩
  · rintro ⟨⟨a', b⟩, hb, rfl⟩
    exact ⟨b, (h.2 a' b).mpr hb⟩

/-- Replacing the head cell, possibly at another address, changes nothing else. -/
theorem holds_insert {m : Mem β} {a' : Addr} {b' : β} {c : Nat}
    (h : Holds ((a, b) ::ₘ S) m) (ha : a' = a ∨ a' ∉ m.cells) :
    Holds ((a', b') ::ₘ S) ⟨(m.cells.erase a).insert a' b', c⟩ := by
  have hfresh : a' ∉ S.map Prod.fst := by
    rcases ha with rfl | ha
    · exact h.head_notMem
    · intro hmem
      obtain ⟨⟨x, y⟩, hp, rfl⟩ := Multiset.mem_map.mp hmem
      exact ha (Finmap.mem_of_lookup_eq_some (h.lookup (Multiset.mem_cons_of_mem hp)))
  have hn := h.1
  rw [Multiset.map_cons, Multiset.nodup_cons] at hn
  refine ⟨by rw [Multiset.map_cons, Multiset.nodup_cons]; exact ⟨hfresh, hn.2⟩, ?_⟩
  intro x y
  by_cases hx : x = a'
  · subst x
    rw [Finmap.lookup_insert, Multiset.mem_cons, Prod.mk.injEq, Option.some.injEq]
    constructor
    · rintro rfl; exact Or.inl ⟨rfl, rfl⟩
    · rintro (⟨-, rfl⟩ | hy)
      · rfl
      · exact absurd (Multiset.mem_map_of_mem Prod.fst hy) hfresh
  · rw [Finmap.lookup_insert_of_ne _ hx, Multiset.mem_cons, Prod.mk.injEq]
    by_cases hxa : x = a
    · subst x
      rw [Finmap.lookup_erase]
      constructor
      · intro he; cases he
      · rintro (⟨he, -⟩ | hy)
        · exact absurd he hx
        · exact absurd (Multiset.mem_map_of_mem Prod.fst hy) h.head_notMem
    · rw [Finmap.lookup_erase_ne hxa, h.2 x y, Multiset.mem_cons, Prod.mk.injEq]
      simp [hx, hxa]

theorem holds_alloc {m : Mem β} {a' : Addr} {b' : β} {c : Nat}
    (h : Holds S m) (ha : a' ∉ m.cells) : Holds ((a', b') ::ₘ S) ⟨m.cells.insert a' b', c⟩ := by
  have hfresh : a' ∉ S.map Prod.fst := by
    intro hmem
    obtain ⟨⟨x, y⟩, hp, rfl⟩ := Multiset.mem_map.mp hmem
    exact ha (Finmap.mem_of_lookup_eq_some (h.lookup hp))
  refine ⟨by rw [Multiset.map_cons, Multiset.nodup_cons]; exact ⟨hfresh, h.1⟩, ?_⟩
  intro x y
  rw [Multiset.mem_cons, Prod.mk.injEq]
  by_cases hx : x = a'
  · subst x
    have hy : (a', y) ∉ S := fun hy => hfresh (Multiset.mem_map_of_mem Prod.fst hy)
    simp [hy, eq_comm]
  · rw [Finmap.lookup_insert_of_ne _ hx, h.2 x y]
    simp [hx]

theorem holds_free {m : Mem β} {c : Nat} (h : Holds ((a, b) ::ₘ S) m) :
    Holds S ⟨m.cells.erase a, c⟩ := by
  have hn := h.1
  rw [Multiset.map_cons, Multiset.nodup_cons] at hn
  refine ⟨hn.2, ?_⟩
  intro x y
  by_cases hx : x = a
  · subst x
    have hy : (a, y) ∉ S := fun hy => h.head_notMem (Multiset.mem_map_of_mem Prod.fst hy)
    simp [hy]
  · rw [Finmap.lookup_erase_ne hx, h.2 x y, Multiset.mem_cons, Prod.mk.injEq]
    simp [hx]

theorem Holds.insert_self {m : Mem β} {b' : β} (h : Holds ((a, b) ::ₘ S) m) :
    Holds ((a, b') ::ₘ S) ⟨m.cells.insert a b', m.clock⟩ := by
  have he : (m.cells.erase a).insert a b' = m.cells.insert a b' := by
    apply Finmap.ext_lookup
    intro x
    by_cases hx : x = a
    · subst x; simp
    · simp [Finmap.lookup_insert_of_ne _ hx, Finmap.lookup_erase_ne hx]
  rw [← he]
  exact holds_insert h (Or.inl rfl)

theorem spec_load_bind {f : β → HeapM β α} (hb : (a, b) ∈ S)
    (h : Spec (Holds S) (f b) Q E) : Spec (Holds S) (load a >>= f) Q E := by
  intro m hm
  change Ends (Except.bind (load a m) _) Q E
  rw [load, hm.lookup hb]
  exact h m hm

theorem spec_store_bind {b' : β} {f : Unit → HeapM β α}
    (h : Spec (Holds ((a, b') ::ₘ S)) (f ()) Q E) :
    Spec (Holds ((a, b) ::ₘ S)) (store a b' >>= f) Q E := by
  intro m hm
  change Ends (Except.bind (store a b' m) _) Q E
  rw [store, hm.lookup (Multiset.mem_cons_self _ _)]
  exact h _ hm.insert_self

theorem spec_malloc_bind {A : Allocator β} {size : Nat} {init : UInt8 → β} {f : Addr → HeapM β α}
    (hsize : size ≤ maxRequest ∨ E .outOfMemory)
    (h : ∀ x g, x ≠ 0 → Spec (Holds ((x, init g) ::ₘ S)) (f x) Q E) :
    Spec (Holds S) (malloc A size init >>= f) Q E := by
  intro m hm
  change Ends (Except.bind (malloc A size init m) _) Q E
  rw [malloc]
  split_ifs with hbig
  · exact hsize.resolve_left (by omega)
  · exact h _ _ (A.malloc_ne_null m size) _ (holds_alloc hm (A.malloc_fresh m size))

theorem spec_realloc_bind {A : Allocator β} {size : Nat} {g : UInt8 → β → β} {f : Addr → HeapM β α}
    (hsize : size ≤ maxRequest ∨ E .outOfMemory)
    (h : ∀ x y, x ≠ 0 → Spec (Holds ((x, g y b) ::ₘ S)) (f x) Q E) :
    Spec (Holds ((a, b) ::ₘ S)) (realloc A a size g >>= f) Q E := by
  intro m hm
  change Ends (Except.bind (realloc A a size g m) _) Q E
  rw [realloc, hm.lookup (Multiset.mem_cons_self _ _)]
  dsimp only
  split_ifs with hbig
  · exact hsize.resolve_left (by omega)
  · exact h _ _ (A.realloc_ne_null m a size) _ (holds_insert hm (A.realloc_fresh m a size))

theorem spec_free_bind {f : Unit → HeapM β α} (h : Spec (Holds S) (f ()) Q E) :
    Spec (Holds ((a, b) ::ₘ S)) (free a >>= f) Q E := by
  intro m hm
  change Ends (Except.bind (free a m) _) Q E
  rw [free, hm.lookup (Multiset.mem_cons_self _ _)]
  exact h _ (holds_free hm)

theorem spec_garbage_bind {A : Allocator β} {f : UInt8 → HeapM β α}
    (h : ∀ g, Spec P (f g) Q E) : Spec P (garbage A >>= f) Q E :=
  fun m hm => h (A.garbage m) m hm

/-- The rule for a loop over a list: the invariant speaks about the part already
processed, and each step may use that it is a part of the whole list. -/
theorem spec_foldlM {σ ι : Type} {I : List ι → σ → Mem β → Prop} {f : σ → ι → HeapM β σ} {s : σ}
    (l : List ι) (hstep : ∀ pre x, pre ++ [x] <+: l → ∀ s, Spec (I pre s) (f s x) (I (pre ++ [x])) E) :
    Spec (I [] s) (l.foldlM f s) (I l) E := by
  induction l using List.reverseRecOn with
  | nil => exact spec_pure (fun _ hm => hm)
  | append_singleton l x ih =>
      rw [List.foldlM_append]
      refine spec_bind (ih fun pre y hpre => hstep pre y (hpre.trans (List.prefix_append _ _))) (fun s' => ?_)
      simpa using hstep l x (List.prefix_refl _) s'

/-- The rule for a counting loop. -/
theorem spec_range {σ : Type} {I : Nat → σ → Mem β → Prop} {f : σ → Nat → HeapM β σ} {s : σ} (n : Nat)
    (hstep : ∀ i, i < n → ∀ s, Spec (I i s) (f s i) (I (i + 1)) E) :
    Spec (I 0 s) ((List.range n).foldlM f s) (I n) E := by
  induction n with
  | zero => exact spec_pure (fun _ hm => hm)
  | succ n ih =>
      rw [List.range_succ, List.foldlM_append]
      refine spec_bind (ih fun i hi => hstep i (by omega)) (fun s' => ?_)
      simpa using hstep n (by omega) s'

/-- Reading leaves the memory as it is, whatever it is. -/
theorem spec_load_any {m : Mem β} {f : β → HeapM β α} (hE : E .dangling)
    (h : ∀ b, m.cells.lookup a = some b → Spec (· = m) (f b) Q E) : Spec (· = m) (load a >>= f) Q E := by
  intro m' hm
  subst hm
  change Ends (Except.bind (load a m') _) Q E
  rw [load]
  cases hb : m'.cells.lookup a with
  | none => exact hE
  | some b => exact h b hb m' rfl

end StudyNotes.Heap.Triple
