import Mathlib.Data.Finmap
import Mathlib.Order.Lattice.Nat

namespace StudyNotes.Heap.Program

abbrev Addr := Nat

/-- The ways a program over an explicit heap can stop without a result. -/
inductive Fault
  | assertion
  | outOfMemory
  | outOfBounds
  | dangling
  | overflow
  | diverged
deriving DecidableEq, Repr

/-- The live blocks, and the number of allocation requests made so far. -/
structure Mem (β : Type) where
  cells : Finmap (fun _ : Addr => β)
  clock : Nat

variable {α β γ : Type}

def emptyMem : Mem β := ⟨∅, 0⟩

/-- An allocator may look at the whole memory and its clock, so it can move a
block at one request and leave it in place at the next. Address 0 is null. -/
structure Allocator (β : Type) where
  malloc : Mem β → Nat → Addr
  realloc : Mem β → Addr → Nat → Addr
  garbage : Mem β → UInt8
  malloc_fresh : ∀ m n, (malloc m n) ∉ m.cells
  malloc_ne_null : ∀ m n, malloc m n ≠ 0
  realloc_fresh : ∀ m a n, realloc m a n = a ∨ realloc m a n ∉ m.cells
  realloc_ne_null : ∀ m a n, realloc m a n ≠ 0

abbrev HeapM (β : Type) := StateT (Mem β) (Except Fault)

/-- No request above the largest object size can succeed. -/
def maxRequest : Nat := 2 ^ 63 - 1

def fail (e : Fault) : HeapM β α := fun _ => .error e

def assert (p : Prop) [Decidable p] : HeapM β Unit :=
  if p then pure () else fail .assertion

def load (a : Addr) : HeapM β β := fun m =>
  match m.cells.lookup a with
  | some b => .ok (b, m)
  | none => .error .dangling

def store (a : Addr) (b : β) : HeapM β Unit := fun m =>
  match m.cells.lookup a with
  | some _ => .ok ((), { m with cells := m.cells.insert a b })
  | none => .error .dangling

/-- The initial contents may depend on the byte found in unwritten memory. -/
def malloc (A : Allocator β) (size : Nat) (init : UInt8 → β) : HeapM β Addr := fun m =>
  if maxRequest < size then .error .outOfMemory
  else .ok (A.malloc m size, ⟨m.cells.insert (A.malloc m size) (init (A.garbage m)), m.clock + 1⟩)

def realloc (A : Allocator β) (a : Addr) (size : Nat) (f : UInt8 → β → β) : HeapM β Addr := fun m =>
  match m.cells.lookup a with
  | none => .error .dangling
  | some b =>
      if maxRequest < size then .error .outOfMemory
      else .ok (A.realloc m a size,
        ⟨(m.cells.erase a).insert (A.realloc m a size) (f (A.garbage m) b), m.clock + 1⟩)

def free (a : Addr) : HeapM β Unit := fun m =>
  match m.cells.lookup a with
  | some _ => .ok ((), { m with cells := m.cells.erase a })
  | none => .error .dangling

def garbage (A : Allocator β) : HeapM β UInt8 := fun m => .ok (A.garbage m, m)

/-- The number of live blocks, a bound for loops that visit each of them once. -/
def liveBlocks : HeapM β Nat := fun m => .ok (m.cells.keys.card, m)

theorem above_fresh (m : Mem β) : m.cells.keys.sup id + 1 ∉ m.cells := by
  intro h
  have hle : m.cells.keys.sup id + 1 ≤ m.cells.keys.sup id :=
    Finset.le_sup (f := id) (Finmap.mem_keys.mpr h)
  exact Nat.not_succ_le_self _ hle

/-- Addresses are handed out above every live one and live blocks never move. -/
def bump : Allocator β where
  malloc m _ := m.cells.keys.sup id + 1
  realloc m a _ := if a = 0 then m.cells.keys.sup id + 1 else a
  garbage _ := 0
  malloc_fresh m _ := above_fresh m
  malloc_ne_null m n := by simp
  realloc_fresh m a n := by
    split_ifs with ha
    · exact Or.inr (above_fresh m)
    · exact Or.inl rfl
  realloc_ne_null m a n := by
    split_ifs with ha
    · simp
    · exact ha

/-- Every request, reallocations included, is served from a new address. -/
def moving : Allocator β where
  malloc m _ := m.cells.keys.sup id + 1
  realloc m _ _ := m.cells.keys.sup id + 1
  garbage _ := 0
  malloc_fresh m _ := above_fresh m
  malloc_ne_null m n := by simp
  realloc_fresh m _ _ := Or.inr (above_fresh m)
  realloc_ne_null m _ n := by simp

end StudyNotes.Heap.Program
