import StudyNotes.Heap.Triple

namespace StudyNotes.Heap.Variants

open Program Triple

variable {α β γ : Type}

/-- Where a memory has blocks of several kinds, a block that is used as another kind
than it is counts as a dangling pointer. -/
def loadAs (pick : β → Option γ) (a : Addr) : HeapM β γ := do
  match pick (← load a) with
  | some v => return v
  | none => fail .dangling

theorem spec_loadAs_bind {S : Multiset (Addr × β)} {a : Addr} {b : β} {Q : α → Mem β → Prop} {E : Fault → Prop}
    {pick : β → Option γ} {v : γ} {f : γ → HeapM β α} (hb : (a, b) ∈ S) (hv : pick b = some v)
    (h : Spec (Holds S) (f v) Q E) : Spec (Holds S) (loadAs pick a >>= f) Q E := by
  rw [loadAs, bind_assoc]
  refine spec_load_bind hb ?_
  rw [hv]
  exact h

/-- A program that ends with an operation, for the rules of the operations. -/
theorem spec_of_bind_pure {P : Mem β → Prop} {Q : α → Mem β → Prop} {E : Fault → Prop} {x : HeapM β α}
    (h : Spec P (x >>= pure) Q E) : Spec P x Q E := by
  rwa [bind_pure] at h

end StudyNotes.Heap.Variants
