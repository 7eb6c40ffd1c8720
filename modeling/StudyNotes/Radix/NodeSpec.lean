import StudyNotes.Heap.Triple
import StudyNotes.Radix.Node
import Mathlib.Data.List.TakeDrop

namespace StudyNotes.Radix.NodeSpec

open Heap.Program Heap.Triple Node

variable {γ : Type} {S : Multiset (Addr × Block)} {Q : γ → Mem Block → Prop} {E : Fault → Prop}
variable {n : Addr} {b : Block}

theorem spec_refcount {f : UInt32 → NodeM γ} (hb : (n, b) ∈ S)
    (h : Spec (Holds S) (f b.refcount) Q E) : Spec (Holds S) (refcount n >>= f) Q E := by
  rw [refcount, bind_assoc]
  exact spec_load_bind hb h

theorem spec_prefixLength {f : Nat → NodeM γ} (hb : (n, b) ∈ S)
    (h : Spec (Holds S) (f b.prefixBytes.length) Q E) : Spec (Holds S) (prefixLength n >>= f) Q E := by
  rw [prefixLength, bind_assoc]
  exact spec_load_bind hb h

theorem spec_edgecount {f : Nat → NodeM γ} (hb : (n, b) ∈ S)
    (h : Spec (Holds S) (f b.edges.length) Q E) : Spec (Holds S) (edgecount n >>= f) Q E := by
  rw [edgecount, bind_assoc]
  exact spec_load_bind hb h

theorem spec_prefixChunk {f : List UInt8 → NodeM γ} (hb : (n, b) ∈ S)
    (h : Spec (Holds S) (f b.prefixBytes) Q E) : Spec (Holds S) (prefixChunk n >>= f) Q E := by
  rw [prefixChunk, bind_assoc]
  exact spec_load_bind hb h

theorem spec_firstBytes {f : List UInt8 → NodeM γ} (hb : (n, b) ∈ S)
    (h : Spec (Holds S) (f (b.edges.map Prod.fst)) Q E) : Spec (Holds S) (firstBytes n >>= f) Q E := by
  rw [firstBytes, bind_assoc]
  exact spec_load_bind hb h

theorem spec_nodePtrs {f : List Addr → NodeM γ} (hb : (n, b) ∈ S)
    (h : Spec (Holds S) (f (b.edges.map Prod.snd)) Q E) : Spec (Holds S) (nodePtrs n >>= f) Q E := by
  rw [nodePtrs, bind_assoc]
  exact spec_load_bind hb h

theorem spec_edgeAt {f : UInt8 × Addr → NodeM γ} {i : Nat} {e : UInt8 × Addr} (hb : (n, b) ∈ S)
    (he : b.edges[i]? = some e) (h : Spec (Holds S) (f e) Q E) : Spec (Holds S) (edgeAt n i >>= f) Q E := by
  rw [edgeAt, bind_assoc]
  apply spec_load_bind hb
  rw [he]
  exact h

theorem spec_firstByteAt {f : UInt8 → NodeM γ} {i : Nat} {e : UInt8 × Addr} (hb : (n, b) ∈ S)
    (he : b.edges[i]? = some e) (h : Spec (Holds S) (f e.1) Q E) :
    Spec (Holds S) (firstByteAt n i >>= f) Q E := by
  rw [firstByteAt, bind_assoc]
  exact spec_edgeAt hb he h

theorem spec_nodeAt {f : Addr → NodeM γ} {i : Nat} {e : UInt8 × Addr} (hb : (n, b) ∈ S)
    (he : b.edges[i]? = some e) (h : Spec (Holds S) (f e.2) Q E) :
    Spec (Holds S) (nodeAt n i >>= f) Q E := by
  rw [nodeAt, bind_assoc]
  exact spec_edgeAt hb he h

theorem spec_prefixAt {A : Allocator Block} {f : UInt8 → NodeM γ} {j : Nat} {c : UInt8}
    (hb : (n, b) ∈ S) (hc : b.prefixBytes[j]? = some c) (h : Spec (Holds S) (f c) Q E) :
    Spec (Holds S) (prefixAt A n j >>= f) Q E := by
  rw [prefixAt, bind_assoc]
  apply spec_load_bind hb
  rw [hc]
  exact h

/-- Whatever byte is read, the program goes on. -/
theorem spec_prefixAt_any {A : Allocator Block} {f : UInt8 → NodeM γ} {j : Nat}
    (hb : (n, b) ∈ S) (h : ∀ c, (∀ c', b.prefixBytes[j]? = some c' → c = c') → Spec (Holds S) (f c) Q E) :
    Spec (Holds S) (prefixAt A n j >>= f) Q E := by
  cases hc : b.prefixBytes[j]? with
  | some c => exact spec_prefixAt hb hc (h c (fun c' hc' => by rw [hc] at hc'; exact Option.some.inj hc'))
  | none =>
      rw [prefixAt, bind_assoc]
      apply spec_load_bind hb
      rw [hc]
      exact spec_garbage_bind (fun g => h g (fun c' hc' => by rw [hc] at hc'; cases hc'))

theorem spec_setRefcount {f : Unit → NodeM γ} {v : UInt32}
    (h : Spec (Holds ((n, ⟨v, b.prefixBytes, b.edges⟩) ::ₘ S)) (f ()) Q E) :
    Spec (Holds ((n, b) ::ₘ S)) (setRefcount n v >>= f) Q E := by
  rw [setRefcount, bind_assoc]
  exact spec_load_bind (Multiset.mem_cons_self _ _) (spec_store_bind h)

theorem spec_updateEdge {f : Unit → NodeM γ} {i : Nat} {g : UInt8 × Addr → UInt8 × Addr}
    (hi : i < b.edges.length)
    (h : Spec (Holds ((n, ⟨b.refcount, b.prefixBytes, b.edges.modify i g⟩) ::ₘ S)) (f ()) Q E) :
    Spec (Holds ((n, b) ::ₘ S)) (updateEdge n i g >>= f) Q E := by
  rw [updateEdge, bind_assoc]
  apply spec_load_bind (Multiset.mem_cons_self _ _)
  rw [bind_assoc]
  exact spec_assert_bind hi (spec_store_bind h)

theorem modify_middle {ι : Type} (l : List ι) (x : ι) (r : List ι) (g : ι → ι) :
    (l ++ x :: r).modify l.length g = l ++ g x :: r := by
  induction l with
  | nil => rfl
  | cons y l ih => simpa using ih

/-- Patching the slot of the edge that stands behind l. -/
theorem spec_setNodeAt {f : Unit → NodeM γ} {rc : UInt32} {p : List UInt8} {l r : List (UInt8 × Addr)}
    {c : UInt8} {x x' : Addr}
    (h : Spec (Holds ((n, ⟨rc, p, l ++ (c, x') :: r⟩) ::ₘ S)) (f ()) Q E) :
    Spec (Holds ((n, ⟨rc, p, l ++ (c, x) :: r⟩) ::ₘ S)) (setNodeAt n l.length x' >>= f) Q E := by
  rw [setNodeAt]
  apply spec_updateEdge (by simp)
  rw [modify_middle]
  exact h

theorem spec_setEdgeAt {f : Unit → NodeM γ} {rc : UInt32} {p : List UInt8} {l r : List (UInt8 × Addr)}
    {e : UInt8 × Addr} {i : Nat} {c : UInt8} {x : Addr} (hi : i = l.length)
    (h : Spec (Holds ((n, ⟨rc, p, l ++ (c, x) :: r⟩) ::ₘ S)) (f ()) Q E) :
    Spec (Holds ((n, ⟨rc, p, l ++ e :: r⟩) ::ₘ S)) (setEdgeAt n i c x >>= f) Q E := by
  subst hi
  rw [setEdgeAt, bind_assoc, setFirstByteAt]
  apply spec_updateEdge (by simp)
  rw [modify_middle]
  exact spec_setNodeAt h

theorem spec_setPrefix {f : Unit → NodeM γ} {bytes : List UInt8}
    (hlen : b.prefixBytes.length ≤ bytes.length)
    (h : Spec (Holds ((n, ⟨b.refcount, bytes.take b.prefixBytes.length, b.edges⟩) ::ₘ S)) (f ()) Q E) :
    Spec (Holds ((n, b) ::ₘ S)) (setPrefix n bytes >>= f) Q E := by
  rw [setPrefix, bind_assoc]
  apply spec_load_bind (Multiset.mem_cons_self _ _)
  rw [if_neg (by omega)]
  exact spec_store_bind h

theorem spec_copyPrefixAt {f : Unit → NodeM γ} {off : Nat} {bytes : List UInt8}
    (hlen : off + bytes.length = b.prefixBytes.length)
    (h : Spec (Holds ((n, ⟨b.refcount, b.prefixBytes.take off ++ bytes, b.edges⟩) ::ₘ S)) (f ()) Q E) :
    Spec (Holds ((n, b) ::ₘ S)) (copyPrefixAt n off bytes >>= f) Q E := by
  rw [copyPrefixAt, bind_assoc]
  apply spec_load_bind (Multiset.mem_cons_self _ _)
  rw [if_neg (by omega)]
  apply spec_store_bind
  rw [hlen, List.drop_length, List.append_nil]
  exact h

theorem spec_copyPrefixAt_over {f : Unit → NodeM γ} {off : Nat} {bytes : List UInt8}
    (hlen : b.prefixBytes.length < off + bytes.length) (h : E .outOfBounds) :
    Spec (Holds ((n, b) ::ₘ S)) (copyPrefixAt n off bytes >>= f) Q E := by
  rw [copyPrefixAt, bind_assoc]
  apply spec_load_bind (Multiset.mem_cons_self _ _)
  rw [if_pos hlen]
  exact fun _ _ => h

theorem zip_chunks (es es' : List (UInt8 × Addr)) (h : es'.length = es.length) :
    List.zipWith (fun x e => (e.1, x)) (es.map Prod.snd)
      (List.zipWith (fun c (e : UInt8 × Addr) => (c, e.2)) (es.map Prod.fst) es') = es := by
  induction es generalizing es' with
  | nil => simp
  | cons e es ih =>
      cases es' with
      | nil => simp at h
      | cons e' es' => simp [ih es' (by simpa using h)]

theorem spec_setFirstBytes {f : Unit → NodeM γ} {bytes : List UInt8}
    (hlen : bytes.length = b.edges.length)
    (h : Spec (Holds ((n, ⟨b.refcount, b.prefixBytes,
      List.zipWith (fun c e => (c, e.2)) bytes b.edges⟩) ::ₘ S)) (f ()) Q E) :
    Spec (Holds ((n, b) ::ₘ S)) (setFirstBytes n bytes >>= f) Q E := by
  rw [setFirstBytes, bind_assoc]
  apply spec_load_bind (Multiset.mem_cons_self _ _)
  rw [if_neg (by omega)]
  exact spec_store_bind h

theorem spec_setNodePtrs {f : Unit → NodeM γ} {ptrs : List Addr}
    (hlen : ptrs.length = b.edges.length)
    (h : Spec (Holds ((n, ⟨b.refcount, b.prefixBytes,
      List.zipWith (fun x e => (e.1, x)) ptrs b.edges⟩) ::ₘ S)) (f ()) Q E) :
    Spec (Holds ((n, b) ::ₘ S)) (setNodePtrs n ptrs >>= f) Q E := by
  rw [setNodePtrs, bind_assoc]
  apply spec_load_bind (Multiset.mem_cons_self _ _)
  rw [if_neg (by omega)]
  exact spec_store_bind h

theorem spec_resize {A : Allocator Block} {f : Addr → NodeM γ} {bytes edges : Nat}
    (hsize : blockSize bytes edges ≤ maxRequest ∨ E .outOfMemory)
    (h : ∀ x g, Spec (Holds ((x, ⟨b.refcount, b.prefixBytes.takeD (u32 bytes) g,
      b.edges.takeD (u32 edges) (g, 0)⟩) ::ₘ S)) (f x) Q E) :
    Spec (Holds ((n, b) ::ₘ S)) (resize A n bytes edges >>= f) Q E := by
  rw [resize, bind_assoc]
  apply spec_realloc_bind hsize
  intro x g hx
  rw [bind_assoc]
  exact spec_assert_bind hx (h x g)

theorem spec_makeNode {A : Allocator Block} {f : Addr → NodeM γ} {refs bytes edges : Nat}
    (hsmall : headerSize ≤ blockSize bytes edges ∨ E .outOfBounds)
    (hsize : blockSize bytes edges ≤ maxRequest ∨ E .outOfMemory)
    (h : headerSize ≤ blockSize bytes edges → blockSize bytes edges ≤ maxRequest → ∀ x g,
      Spec (Holds ((x, ⟨UInt32.ofNat refs, List.replicate (u32 bytes) g,
        List.replicate (u32 edges) (g, 0)⟩) ::ₘ S)) (f x) Q E) :
    Spec (Holds S) (makeNode A refs bytes edges >>= f) Q E := by
  rw [makeNode]
  by_cases hh : blockSize bytes edges < headerSize
  · rw [if_pos hh]
    exact fun _ _ => hsmall.resolve_left (by omega)
  · rw [if_neg hh, bind_assoc]
    by_cases hm : blockSize bytes edges ≤ maxRequest
    · apply spec_malloc_bind hsize
      intro x g hx
      rw [bind_assoc]
      exact spec_assert_bind hx (h (by omega) hm x g)
    · intro m _
      have hE := hsize.resolve_left hm
      change Heap.Triple.Ends (Except.bind (malloc A _ _ m) _) Q E
      rw [malloc, if_pos (by omega)]
      exact hE

theorem blockSize_small {bytes edges : Nat} (hb : bytes ≤ 2 ^ 62) (he : edges ≤ 2 ^ 58) :
    headerSize ≤ blockSize bytes edges ∧ blockSize bytes edges ≤ maxRequest := by
  unfold blockSize headerSize maxRequest
  rw [Nat.mod_eq_of_lt (by omega)]
  omega

theorem sizeSub_of_le {a b : Nat} (h : b ≤ a) (hlt : a - b < 2 ^ 64) : sizeSub a b = a - b := by
  unfold sizeSub
  rw [show a + 2 ^ 64 - b = (a - b) + 2 ^ 64 by omega, Nat.add_mod_right, Nat.mod_eq_of_lt hlt]

theorem u32_of_lt {a : Nat} (h : a < 2 ^ 32) : u32 a = a := Nat.mod_eq_of_lt h

end StudyNotes.Radix.NodeSpec
