import StudyNotes.Radix.MatchSpec

namespace StudyNotes.Radix.InsertSpec

open Heap.Program Heap.Triple Node NodeSpec Program KeyTree Context MatchSpec

variable {γ : Type}

theorem takeD_grow {ι : Type} (l : List ι) (n : Nat) (d : ι) :
    l.takeD (l.length + n) d = l ++ List.replicate n d := by
  induction l with
  | nil => simp
  | cons x l ih => simpa [Nat.add_right_comm] using ih

section Rules

variable {S : Multiset (Addr × Block)} {Q : γ → Mem Block → Prop} {E : Fault → Prop}

/-- Repairing the slot above a position whose block has moved. -/
theorem spec_patch {f : Frame Addr} {C : List (Frame Addr)} {a a' : Addr} {g : Unit → NodeM γ}
    (h : Spec (Holds (S + ctxCells (f :: C) a')) (g ()) Q E) :
    Spec (Holds (S + ctxCells (f :: C) a)) (setNodeAt f.tag f.left.length a' >>= g) Q E := by
  rw [ctxCells, Multiset.add_cons, ← slots_length]
  apply spec_setNodeAt
  rw [← Multiset.add_cons]
  exact h

end Rules

/-- The block at a position comes first, then what hangs below it and around it. -/
theorem cells_focus (C : List (Frame Addr)) (a : Addr) (rc : UInt32) (p : List UInt8) (es : Edges Addr)
    (F : Multiset (Addr × Block)) : cells (plug C (.node a rc p es)) + F =
      (a, ⟨rc, p, slots es⟩) ::ₘ (edgesCells es + F + ctxCells C a) := by
  rw [cells_plug, cells, Trie.tag_node]
  simp only [Multiset.cons_add]
  congr 1
  ac_rfl

/-- The prefix of the leaf made for the rest of a key, after truncation. -/
def leafBytes (key : List UInt8) (size i : Nat) : List UInt8 := (key.drop i).take (u32 (size - i))

theorem u32_sizeSub {a b : Nat} (h : b ≤ a) : u32 (sizeSub a b) = u32 (a - b) := by
  unfold u32 sizeSub
  rw [show a + 2 ^ 64 - b = (a - b) + 2 ^ 64 by omega]
  omega

theorem u32_le (a : Nat) : u32 a ≤ a := Nat.mod_le _ _

theorem u32_lt (a : Nat) : u32 a < 2 ^ 32 := Nat.mod_lt _ (by decide)

/-- Faults of the two kinds that oversized allocations cause. -/
structure Tolerates (E : Fault → Prop) : Prop where
  memory : E .outOfMemory
  bounds : E .outOfBounds

theorem spec_makeLeaf {A : Allocator Block} {size i : Nat}
    {S : Multiset (Addr × Block)} {Q : γ → Mem Block → Prop} {E : Fault → Prop} {f : Addr → NodeM γ}
    (hi : i < size) (hE : size < 2 ^ 62 ∨ Tolerates E)
    (h : ∀ x g, Spec (Holds ((x, ⟨1, List.replicate (u32 (size - i)) g, []⟩) ::ₘ S)) (f x) Q E) :
    Spec (Holds S) (makeNode A 1 (sizeSub size i) 0 >>= f) Q E := by
  have hs (hsize : size < 2 ^ 62) : headerSize ≤ blockSize (sizeSub size i) 0 ∧
      blockSize (sizeSub size i) 0 ≤ maxRequest := by
    rw [sizeSub_of_le hi.le (by omega)]
    exact blockSize_small (by omega) (by omega)
  apply spec_makeNode (hE.imp (fun h => (hs h).1) (fun h => h.bounds))
    (hE.imp (fun h => (hs h).2) (fun h => h.memory))
  intro _ _ x g
  rw [u32_sizeSub hi.le]
  exact h x g

theorem spec_fillLeaf {key : List UInt8} {size i : Nat} {x : Addr} {g : UInt8}
    {S : Multiset (Addr × Block)} {Q : γ → Mem Block → Prop} {E : Fault → Prop} {f : Unit → NodeM γ}
    (hsize : size ≤ key.length)
    (h : Spec (Holds ((x, ⟨1, leafBytes key size i, []⟩) ::ₘ S)) (f ()) Q E) :
    Spec (Holds ((x, ⟨1, List.replicate (u32 (size - i)) g, []⟩) ::ₘ S))
      (setPrefix x (key.drop i) >>= f) Q E := by
  have hle := u32_le (size - i)
  apply spec_setPrefix (by simp only [List.length_replicate, List.length_drop]; omega)
  simp only [List.length_replicate]
  exact h

/-- Adding an edge to the node at a position. When its prefix is empty the node
becomes the root, whatever was above it. -/
theorem insertEdge_spec {A : Allocator Block} {key : List UInt8} {size i : Nat} {C : List (Frame Addr)}
    {a : Addr} {rc : UInt32} {p : List UInt8} {es : Edges Addr} {F : Multiset (Addr × Block)}
    {E : Fault → Prop} {y : UInt8} (root : Addr) (w : UInt64) (j : Nat)
    (hi : i < size) (hsize : size ≤ key.length) (hE : size < 2 ^ 62 ∨ Tolerates E)
    (hy : keyAt key i = pure y) (hp : p.length < 2 ^ 32) (hes : es.length < 2 ^ 10)
    (hC : p ≠ [] → C ≠ []) :
    Spec (Holds (cells (plug C (.node a rc p es)) + F))
      (insertEdge A ⟨root, w⟩ key size (located C a i j))
      (fun r m => ∃ a' x,
        (p = [] ∧ r = (true, ⟨a', w + 1⟩) ∧
          Holds (cells (.node a' rc p (es ++ [(y, .node x 1 (leafBytes key size i) [])])) +
            (ctxCells C a + F)) m) ∨
        (p ≠ [] ∧ r = (true, ⟨root, w + 1⟩) ∧
          Holds (cells (plug C (.node a' rc p (es ++ [(y, .node x 1 (leafBytes key size i) [])]))) + F) m))
      E := by
  rw [cells_focus, insertEdge]
  apply spec_makeLeaf hi hE
  intro x g
  apply spec_fillLeaf hsize
  rw [Multiset.cons_swap]
  have hb : (a, ⟨rc, p, slots es⟩) ∈ (a, ⟨rc, p, slots es⟩) ::ₘ
      (x, ⟨1, leafBytes key size i, []⟩) ::ₘ (edgesCells es + F + ctxCells C a) := Multiset.mem_cons_self _ _
  apply spec_prefixLength hb
  apply spec_edgecount hb
  have hlen : (slots es).length + 1 < 2 ^ 32 := by rw [slots_length]; omega
  apply spec_resize (Or.inl (blockSize_small (by dsimp only; omega) (by dsimp only; rw [slots_length]; omega)).2)
  intro a' g
  dsimp only
  rw [u32_of_lt hp, u32_of_lt hlen, takeD_grow, ← Nat.add_zero p.length, takeD_grow, List.replicate_zero,
    List.append_nil]
  apply spec_edgecount (Multiset.mem_cons_self _ _)
  rw [show (located C a i j).nkey = i from rfl, hy, pure_bind]
  apply spec_setEdgeAt (l := slots es) (r := []) (by simp)
  apply spec_prefixLength (Multiset.mem_cons_self _ _)
  have hleaf : slots es ++ [(y, x)] = slots (es ++ [(y, .node x 1 (leafBytes key size i) [])]) := by
    rw [slots_append, slots_cons]
    rfl
  have hcells' (G : Multiset (Addr × Block)) :
      (a', ⟨rc, p, slots es ++ [(y, x)]⟩) ::ₘ (x, ⟨1, leafBytes key size i, []⟩) ::ₘ (edgesCells es + F + G) =
        cells (.node a' rc p (es ++ [(y, .node x 1 (leafBytes key size i) [])])) + (G + F) := by
    rw [cells, hleaf, edgesCells_append, edgesCells, edgesCells, cells, edgesCells]
    simp only [slots, List.map_nil, add_zero, Multiset.cons_add, Multiset.add_cons]
    congr 2
    ac_rfl
  refine spec_ite (fun h0 => ?_) (fun h0 => ?_)
  · have hp0 : p = [] := List.length_eq_zero_iff.mp h0
    rw [hcells']
    exact spec_pure (fun m hm => ⟨a', x, Or.inl ⟨hp0, rfl, hm⟩⟩)
  · have hp0 : p ≠ [] := fun h => h0 (by simp [h])
    cases C with
    | nil => exact absurd rfl (hC hp0)
    | cons f C =>
        have hplug : cells (plug (f :: C) (.node a' rc p
            (es ++ [(y, .node x 1 (leafBytes key size i) [])]))) + F =
            cells (.node a' rc p (es ++ [(y, .node x 1 (leafBytes key size i) [])])) +
              (ctxCells (f :: C) a' + F) := by
          rw [cells_plug, Trie.tag_node, add_assoc]
        rw [← Multiset.cons_add, ← Multiset.cons_add]
        apply spec_patch
        rw [Multiset.cons_add, Multiset.cons_add, hcells', ← hplug]
        exact spec_pure (fun m hm => ⟨a', x, Or.inr ⟨hp0, rfl, hm⟩⟩)

theorem spec_splitOff {A : Allocator Block} {a : Addr} {rc : UInt32} {p : List UInt8}
    {es : List (UInt8 × Addr)} {j : Nat} {S : Multiset (Addr × Block)} {Q : γ → Mem Block → Prop}
    {E : Fault → Prop} {f : Addr → NodeM γ} (hb : (a, ⟨rc, p, es⟩) ∈ S) (hj : j ≤ p.length)
    (hp : p.length < 2 ^ 32) (hes : es.length < 2 ^ 32)
    (h : ∀ x g, Spec (Holds ((x, ⟨rc, List.replicate (p.length - j) g, List.replicate es.length (g, 0)⟩) ::ₘ S))
      (f x) Q E) :
    Spec (Holds S) (splitOff A a j >>= f) Q E := by
  have hsub : sizeSub p.length j = p.length - j := sizeSub_of_le hj (by omega)
  have hs : headerSize ≤ blockSize (p.length - j) es.length ∧ blockSize (p.length - j) es.length ≤ maxRequest :=
    blockSize_small (by omega) (by omega)
  simp only [splitOff, bind_assoc]
  apply spec_refcount hb
  apply spec_prefixLength hb
  apply spec_edgecount hb
  dsimp only
  rw [hsub]
  apply spec_makeNode (Or.inl hs.1) (Or.inl hs.2)
  intro _ _ x g
  rw [u32_of_lt (by omega), u32_of_lt (by omega), UInt32.ofNat_toNat]
  exact h x g

theorem spec_copyTail {a x : Addr} {rc rc' : UInt32} {p pre : List UInt8} {es es' : List (UInt8 × Addr)}
    {j : Nat} {S : Multiset (Addr × Block)} {Q : γ → Mem Block → Prop} {E : Fault → Prop} {f : Unit → NodeM γ}
    (hb : (a, ⟨rc, p, es⟩) ∈ S) (hpre : pre.length = p.length - j) (hes : es'.length = es.length)
    (h : Spec (Holds ((x, ⟨rc', p.drop j, es⟩) ::ₘ S)) (f ()) Q E) :
    Spec (Holds ((x, ⟨rc', pre, es'⟩) ::ₘ S)) (copyTail a x j >>= f) Q E := by
  simp only [copyTail, bind_assoc]
  apply spec_prefixChunk (Multiset.mem_cons_of_mem hb)
  apply spec_setPrefix (by simp [hpre])
  apply spec_firstBytes (Multiset.mem_cons_of_mem hb)
  apply spec_setFirstBytes (by simp [hes])
  apply spec_nodePtrs (Multiset.mem_cons_of_mem hb)
  apply spec_setNodePtrs (by simp [hes])
  dsimp only
  rw [zip_chunks es es' hes, hpre, List.take_of_length_le (by simp)]
  exact h

theorem cons_rotate {ι : Type} (x y z : ι) (S : Multiset ι) : x ::ₘ y ::ₘ z ::ₘ S = z ::ₘ x ::ₘ y ::ₘ S := by
  rw [Multiset.cons_swap y z, Multiset.cons_swap x z]

/-- Splitting the node at a position below the root. The first byte of a leaf whose
prefix was truncated to nothing is whatever the allocator left there. -/
theorem insertSplit_spec {A : Allocator Block} {key : List UInt8} {size i : Nat} {f : Frame Addr}
    {C : List (Frame Addr)} {a : Addr} {rc : UInt32} {c : List UInt8} {x : UInt8} {q : List UInt8}
    {es : Edges Addr} {F : Multiset (Addr × Block)} {E : Fault → Prop} (root : Addr) (w : UInt64)
    (hi : i < size) (hsize : size ≤ key.length) (hE : size < 2 ^ 62 ∨ Tolerates E)
    (hp : (c ++ x :: q).length < 2 ^ 32) (hes : es.length < 2 ^ 10) :
    Spec (Holds (cells (plug (f :: C) (.node a rc (c ++ x :: q) es)) + F))
      (insertSplit A ⟨root, w⟩ key size (located (f :: C) a i c.length))
      (fun r m => r = (true, ⟨root, w + 1⟩) ∧ ∃ a' x₁ x₂ y,
        (∀ y', (leafBytes key size i).head? = some y' → y = y') ∧
        Holds (cells (plug (f :: C) (.node a' 0 c
          [(y, .node x₁ 1 (leafBytes key size i) []), (x, .node x₂ rc (x :: q) es)])) + F) m) E := by
  rw [cells_focus, insertSplit]
  apply spec_makeLeaf hi hE
  intro x₁ g
  apply spec_splitOff (Multiset.mem_cons_of_mem (Multiset.mem_cons_self _ _)) (by simp [located]) hp
    (by rw [slots_length]; omega)
  intro x₂ g₂
  rw [Multiset.cons_swap]
  apply spec_fillLeaf hsize
  rw [Multiset.cons_swap]
  apply spec_copyTail (Multiset.mem_cons_of_mem (Multiset.mem_cons_self _ _)) (by simp [located]) (by simp)
  rw [show (located (f :: C) a i c.length).nPrefix = c.length from rfl, List.drop_left]
  rw [cons_rotate]
  have hc : c.length < 2 ^ 32 := by simp only [List.length_append] at hp; omega
  apply spec_resize (Or.inl (blockSize_small (by omega) (by omega)).2)
  intro a' g₃
  dsimp only
  rw [u32_of_lt hc, u32_of_lt (by omega), List.takeD_left]
  obtain ⟨e₁, e₂, he⟩ := List.length_eq_two.mp (List.takeD_length 2 (slots es) (g₃, 0))
  rw [he]
  apply spec_setRefcount
  apply spec_prefixAt_any (Multiset.mem_cons_of_mem (Multiset.mem_cons_of_mem (Multiset.mem_cons_self _ _)))
  intro y hy
  apply spec_setEdgeAt (l := []) (r := [e₂]) rfl
  apply spec_prefixAt (c := x) (Multiset.mem_cons_of_mem (Multiset.mem_cons_self _ _)) rfl
  apply spec_setEdgeAt (l := [(y, x₁)]) (r := []) rfl
  rw [← Multiset.cons_add, ← Multiset.cons_add, ← Multiset.cons_add]
  apply spec_patch
  have hcells : cells (plug (f :: C) (.node a' 0 c
      [(y, .node x₁ 1 (leafBytes key size i) []), (x, .node x₂ rc (x :: q) es)])) + F =
      (a', ⟨0, c, [(y, x₁)] ++ [(x, x₂)]⟩) ::ₘ (x₂, ⟨rc, x :: q, slots es⟩) ::ₘ
        (x₁, ⟨1, leafBytes key size i, []⟩) ::ₘ (edgesCells es + F) + ctxCells (f :: C) a' := by
    rw [cells_focus, edgesCells, edgesCells, edgesCells, cells, cells, edgesCells]
    simp only [slots, List.map_nil, List.map_cons, Trie.tag_node, add_zero, Multiset.cons_add,
      Multiset.add_cons, List.cons_append, List.nil_append, zero_add]
  rw [← hcells]
  refine spec_pure (fun m hm => ⟨rfl, a', x₁, x₂, y, ?_, hm⟩)
  intro y' hy'
  exact hy y' (by rw [List.head?_eq_getElem?] at hy'; exact hy')

theorem insertPrefix_spec {A : Allocator Block} {i : Nat} {f : Frame Addr} {C : List (Frame Addr)}
    {a : Addr} {rc : UInt32} {c : List UInt8} {x : UInt8} {q : List UInt8} {es : Edges Addr}
    {F : Multiset (Addr × Block)} {E : Fault → Prop} (root : Addr) (w : UInt64)
    (hp : (c ++ x :: q).length < 2 ^ 32) (hes : es.length < 2 ^ 10) :
    Spec (Holds (cells (plug (f :: C) (.node a rc (c ++ x :: q) es)) + F))
      (insertPrefix A ⟨root, w⟩ (located (f :: C) a i c.length))
      (fun r m => r = (true, ⟨root, w + 1⟩) ∧ ∃ a' x₂,
        Holds (cells (plug (f :: C) (.node a' 1 c [(x, .node x₂ rc (x :: q) es)])) + F) m) E := by
  rw [cells_focus, insertPrefix]
  apply spec_splitOff (Multiset.mem_cons_self _ _) (by simp [located]) hp (by rw [slots_length]; omega)
  intro x₂ g₂
  apply spec_copyTail (Multiset.mem_cons_self _ _) (by simp [located]) (by simp)
  rw [show (located (f :: C) a i c.length).nPrefix = c.length from rfl, List.drop_left, Multiset.cons_swap]
  have hc : c.length < 2 ^ 32 := by simp only [List.length_append] at hp; omega
  apply spec_resize (Or.inl (blockSize_small (by omega) (by omega)).2)
  intro a' g₃
  dsimp only
  rw [u32_of_lt hc, u32_of_lt (by omega), List.takeD_left]
  obtain ⟨e, he⟩ := List.length_eq_one_iff.mp (List.takeD_length 1 (slots es) (g₃, 0))
  rw [he]
  apply spec_prefixAt (c := x) (Multiset.mem_cons_of_mem (Multiset.mem_cons_self _ _)) rfl
  apply spec_setEdgeAt (l := []) (r := []) rfl
  apply spec_setRefcount
  rw [← Multiset.cons_add, ← Multiset.cons_add]
  apply spec_patch
  have hcells : cells (plug (f :: C) (.node a' 1 c [(x, .node x₂ rc (x :: q) es)])) + F =
      (a', ⟨1, c, [] ++ [(x, x₂)]⟩) ::ₘ (x₂, ⟨rc, x :: q, slots es⟩) ::ₘ (edgesCells es + F) +
        ctxCells (f :: C) a' := by
    rw [cells_focus, edgesCells, edgesCells, cells]
    simp only [slots, List.map_nil, List.map_cons, Trie.tag_node, add_zero, Multiset.cons_add, List.nil_append]
  rw [← hcells]
  exact spec_pure (fun m hm => ⟨rfl, a', x₂, hm⟩)

theorem insertCopy_spec {size : Nat} {C : List (Frame Addr)} {a : Addr} {rc : UInt32} {p : List UInt8}
    {es : Edges Addr} {F : Multiset (Addr × Block)} {E : Fault → Prop} (root : Addr) (w : UInt64) :
    Spec (Holds (cells (plug C (.node a rc p es)) + F))
      (insertCopy ⟨root, w⟩ size (located C a size p.length))
      (fun r m => r = (decide (rc + 1 = 1), ⟨root, w + 1⟩) ∧
        Holds (cells (plug C (.node a (rc + 1) p es)) + F) m) E := by
  rw [cells_focus, cells_focus, insertCopy]
  apply spec_assert_bind rfl
  apply spec_prefixLength (Multiset.mem_cons_self _ _)
  apply spec_assert_bind rfl
  apply spec_refcount (Multiset.mem_cons_self _ _)
  apply spec_setRefcount
  apply spec_refcount (Multiset.mem_cons_self _ _)
  exact spec_pure (fun m hm => ⟨rfl, hm⟩)

end StudyNotes.Radix.InsertSpec
