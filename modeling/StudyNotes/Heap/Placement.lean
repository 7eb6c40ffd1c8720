import StudyNotes.Heap.Bytes
import Mathlib.Order.Interval.Finset.Nat

namespace StudyNotes.Heap.Placement

open Program Triple Bytes

variable {α β γ : Type} {bound room k : Nat}

/-- Every block lies below the bound. -/
def Below (bound : Nat) (m : Mem β) : Prop := ∀ a ∈ m.cells, a < bound

/-- As long as the number of live blocks leaves room, requests are served below
the bound. -/
structure Confined (A : Allocator β) (bound room : Nat) : Prop where
  malloc : ∀ m size, m.cells.keys.card < room → A.malloc m size < bound
  realloc : ∀ m a size, m.cells.keys.card ≤ room → A.realloc m a size = a ∨ A.realloc m a size < bound

/-- A run of the program adds at most k blocks. If there is room for them, all
blocks stay below the bound. -/
def Makes (bound room k : Nat) (x : HeapM β α) : Prop :=
  ∀ m v m', x m = .ok (v, m') → Below bound m → m.cells.keys.card + k ≤ room →
    Below bound m' ∧ m'.cells.keys.card ≤ m.cells.keys.card + k

theorem below_empty : Below bound (emptyMem : Mem β) := fun _ h => absurd h Finmap.notMem_empty

/-- A run that is specified keeps its blocks below the bound. -/
theorem Makes.ends {x : HeapM β α} {m : Mem β} {Q : α → Mem β → Prop} {E : Fault → Prop} (hx : Makes bound room k x)
    (h : Ends (x m) Q E) (hm : Below bound m) (hroom : m.cells.keys.card + k ≤ room) :
    Ends (x m) (fun v m' => Q v m' ∧ Below bound m' ∧ m'.cells.keys.card ≤ m.cells.keys.card + k) E := by
  cases hr : x m with
  | ok p =>
      rw [hr] at h
      exact ⟨h, hx m p.1 p.2 hr hm hroom⟩
  | error e =>
      rw [hr] at h
      exact h

section Rules

theorem makes_keep {x : HeapM β α} (h : ∀ m v m', x m = .ok (v, m') → m'.cells.keys = m.cells.keys) :
    Makes bound room 0 x := by
  intro m v m' hx hm _
  have hkeys := h m v m' hx
  refine ⟨fun a ha => hm a ?_, by rw [hkeys, Nat.add_zero]⟩
  rw [← Finmap.mem_keys, hkeys, Finmap.mem_keys] at ha
  exact ha

theorem makes_pure (v : α) : Makes bound room 0 (pure v : HeapM β α) := by
  refine makes_keep (fun m v' m' h => ?_)
  cases h
  rfl

theorem makes_fail (e : Fault) : Makes bound room k (fail e : HeapM β α) := by
  intro m v m' h
  cases h

theorem Makes.mono {x : HeapM β α} {l : Nat} (h : Makes bound room k x) (hkl : k ≤ l) : Makes bound room l x := by
  intro m v m' hx hm hroom
  obtain ⟨hm', hcard⟩ := h m v m' hx hm (by omega)
  exact ⟨hm', by omega⟩

theorem makes_bind {x : HeapM β α} {f : α → HeapM β γ} {l : Nat} (hx : Makes bound room k x)
    (hf : ∀ v, Makes bound room l (f v)) : Makes bound room (k + l) (x >>= f) := by
  intro m w m' h hm hroom
  change Except.bind (x m) _ = _ at h
  cases hr : x m with
  | error e =>
      rw [hr] at h
      cases h
  | ok p =>
      rw [hr] at h
      obtain ⟨hm₁, hcard₁⟩ := hx m p.1 p.2 hr hm (by omega)
      obtain ⟨hm₂, hcard₂⟩ := hf p.1 p.2 w m' h hm₁ (by omega)
      exact ⟨hm₂, by omega⟩

/-- The first part makes no blocks. -/
theorem makes_then {x : HeapM β α} {f : α → HeapM β γ} (hx : Makes bound room 0 x) (hf : ∀ v, Makes bound room k (f v)) :
    Makes bound room k (x >>= f) :=
  (makes_bind hx hf).mono (by omega)

theorem makes_ite {p : Prop} [Decidable p] {x y : HeapM β α} (hx : Makes bound room k x) (hy : Makes bound room k y) :
    Makes bound room k (if p then x else y) := by
  split_ifs
  · exact hx
  · exact hy

theorem makes_assert (p : Prop) [Decidable p] : Makes bound room 0 (assert p : HeapM β Unit) :=
  makes_ite (makes_pure ()) (makes_fail _)

theorem keys_insert_mem {m : Mem β} {a : Addr} (b : β) (ha : a ∈ m.cells) :
    (m.cells.insert a b).keys = m.cells.keys := by
  ext x
  rw [Finmap.mem_keys, Finmap.mem_insert, Finmap.mem_keys]
  exact ⟨fun h => h.elim (fun h => h ▸ ha) id, Or.inr⟩

theorem makes_load (a : Addr) : Makes bound room 0 (load a : HeapM β β) := by
  refine makes_keep (fun m v m' h => ?_)
  rw [load] at h
  split at h <;> cases h
  rfl

theorem makes_store (a : Addr) (b : β) : Makes bound room 0 (store a b) := by
  refine makes_keep (fun m v m' h => ?_)
  rw [store] at h
  split at h <;> cases h
  exact keys_insert_mem b (Finmap.mem_of_lookup_eq_some ‹_›)

theorem makes_free (a : Addr) : Makes bound room 0 (free a : HeapM β Unit) := by
  intro m v m' h hm _
  rw [free] at h
  split at h <;> cases h
  refine ⟨fun x hx => hm x (Finmap.mem_erase.mp hx).2, ?_⟩
  rw [Nat.add_zero]
  exact Finset.card_le_card (fun x hx => Finmap.mem_keys.mpr (Finmap.mem_erase.mp (Finmap.mem_keys.mp hx)).2)

theorem card_keys_insert (m : Mem β) (a : Addr) (b : β) :
    (m.cells.insert a b).keys.card ≤ m.cells.keys.card + 1 := by
  have hsub : (m.cells.insert a b).keys ⊆ insert a m.cells.keys := by
    intro x hx
    rw [Finset.mem_insert, Finmap.mem_keys]
    exact Finmap.mem_insert.mp (Finmap.mem_keys.mp hx)
  exact (Finset.card_le_card hsub).trans (Finset.card_insert_le _ _)

theorem makes_malloc {A : Allocator β} (hA : Confined A bound room) (size : Nat) (init : UInt8 → β) :
    Makes bound room 1 (malloc A size init) := by
  intro m v m' h hm hroom
  rw [malloc] at h
  split at h <;> cases h
  refine ⟨fun x hx => ?_, card_keys_insert m _ _⟩
  rcases Finmap.mem_insert.mp hx with rfl | hx
  · exact hA.malloc m size (by omega)
  · exact hm x hx

theorem makes_realloc {A : Allocator β} (hA : Confined A bound room) (a : Addr) (size : Nat) (g : UInt8 → β → β) :
    Makes bound room 0 (realloc A a size g) := by
  intro m v m' h hm hroom
  rw [realloc] at h
  split at h
  · cases h
  rename_i b hb
  split at h <;> cases h
  have ha : a ∈ m.cells := Finmap.mem_of_lookup_eq_some hb
  refine ⟨fun x hx => ?_, ?_⟩
  · rcases Finmap.mem_insert.mp hx with rfl | hx
    · rcases hA.realloc m a size hroom with hstay | hmove
      · rw [hstay]
        exact hm a ha
      · exact hmove
    · exact hm x (Finmap.mem_erase.mp hx).2
  · have hcard := card_keys_insert ⟨m.cells.erase a, 0⟩ (A.realloc m a size) (g (A.garbage m) b)
    have herase : (m.cells.erase a).keys.card + 1 = m.cells.keys.card := by
      rw [Finmap.keys_erase, Finset.card_erase_add_one (Finmap.mem_keys.mpr ha)]
    dsimp only at hcard ⊢
    omega

end Rules

section Bytes

theorem makes_readAt (a : Addr) (off len : Nat) : Makes bound room 0 (readAt a off len) :=
  makes_then (makes_load a) (fun _ => makes_ite (makes_fail _) (makes_pure _))

theorem makes_writeAt (a : Addr) (off : Nat) (bytes : List UInt8) : Makes bound room 0 (writeAt a off bytes) :=
  makes_then (makes_load a) (fun _ => makes_ite (makes_fail _) (makes_store _ _))

theorem makes_memmove (a : Addr) (dst src len : Nat) : Makes bound room 0 (memmove a dst src len) :=
  makes_then (makes_readAt _ _ _) (fun _ => makes_writeAt _ _ _)

theorem makes_memcpy (a : Addr) (off : Nat) {src : Source} (hsrc : ∀ len, Makes bound room 0 (src len)) (len : Nat) :
    Makes bound room 0 (memcpy a off src len) :=
  makes_then (hsrc len) (fun _ => makes_writeAt _ _ _)

theorem makes_fromBuffer (buffer : List UInt8) (i len : Nat) : Makes bound room 0 (fromBuffer buffer i len) :=
  makes_ite (makes_fail _) (makes_pure _)

theorem makes_mallocBytes {A : ByteAllocator} (hA : Confined A.toAllocator bound room) (size : Nat) :
    Makes bound room 1 (mallocBytes A size) := makes_malloc hA _ _

theorem makes_reallocBytes {A : ByteAllocator} (hA : Confined A.toAllocator bound room) (a : Addr) (size : Nat) :
    Makes bound room 0 (reallocBytes A a size) := makes_realloc hA _ _ _

end Bytes

section Lowest

theorem exists_free (m : Mem β) : ∃ a, a ≠ 0 ∧ a ∉ m.cells := ⟨_, Nat.succ_ne_zero _, above_fresh m⟩

/-- The lowest address that is neither null nor taken. -/
def lowestFree (m : Mem β) : Nat := Nat.find (exists_free m)

theorem lowestFree_spec (m : Mem β) : lowestFree m ≠ 0 ∧ lowestFree m ∉ m.cells := Nat.find_spec (exists_free m)

theorem lowestFree_le (m : Mem β) : lowestFree m ≤ m.cells.keys.card + 1 := by
  -- all addresses below it, except for null, are taken
  have hsub : Finset.Ico 1 (lowestFree m) ⊆ m.cells.keys := by
    intro a ha
    rw [Finset.mem_Ico] at ha
    have hmin := Nat.find_min (exists_free m) ha.2
    rw [Finmap.mem_keys]
    by_contra hn
    exact hmin ⟨Nat.one_le_iff_ne_zero.mp ha.1, hn⟩
  have hcard := Finset.card_le_card hsub
  rw [Nat.card_Ico] at hcard
  omega

/-- Every request, reallocations included, is served from the lowest free address. -/
def lowest : Allocator β where
  malloc m _ := lowestFree m
  realloc m _ _ := lowestFree m
  garbage _ := 0
  malloc_fresh m _ := (lowestFree_spec m).2
  malloc_ne_null m _ := (lowestFree_spec m).1
  realloc_fresh m _ _ := Or.inr (lowestFree_spec m).2
  realloc_ne_null m _ _ := (lowestFree_spec m).1

theorem lowest_confined (h : room + 1 < bound) : Confined (lowest : Allocator β) bound room where
  malloc m _ hm := Nat.lt_of_le_of_lt (lowestFree_le m) (by omega)
  realloc m _ _ hm := Or.inr (Nat.lt_of_le_of_lt (lowestFree_le m) (by omega))

def lowestBytes : ByteAllocator where
  toAllocator := lowest
  junk g _ := g

end Lowest

end StudyNotes.Heap.Placement
