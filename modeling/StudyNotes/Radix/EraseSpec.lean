import StudyNotes.Radix.InsertSpec

namespace StudyNotes.Radix.EraseSpec

open Heap.Program Heap.Triple Node NodeSpec Program KeyTree KeyTreeCases KeyTreeShape Context MatchSpec InsertSpec

variable {γ : Type}

/-- Taking over a child. When the joined prefix does not fit the 32-bit length,
the copy of the child's prefix runs past the end of the block. -/
theorem spec_absorb {A : Allocator Block} {n c : Addr} {rc rc' : UInt32} {p q : List UInt8}
    {es es' : List (UInt8 × Addr)} {S : Multiset (Addr × Block)} {Q : γ → Mem Block → Prop} {E : Fault → Prop}
    {f : Addr → NodeM γ} (hc : (c, ⟨rc', q, es'⟩) ∈ S) (hes : es'.length < 2 ^ 32)
    (hE : p.length + q.length < 2 ^ 32 ∨ E .outOfBounds)
    (h : ∀ n', p.length + q.length < 2 ^ 32 → Spec (Holds ((n', ⟨rc', p ++ q, es'⟩) ::ₘ S)) (f n') Q E) :
    Spec (Holds ((n, ⟨rc, p, es⟩) ::ₘ S)) (absorb A n c >>= f) Q E := by
  simp only [absorb, bind_assoc]
  apply spec_prefixLength (Multiset.mem_cons_self _ _)
  apply spec_prefixLength (Multiset.mem_cons_of_mem hc)
  apply spec_edgecount (Multiset.mem_cons_of_mem hc)
  have hu := u32_lt (p.length + q.length)
  apply spec_resize (Or.inl (blockSize_small (by dsimp only; omega) (by dsimp only; omega)).2)
  intro n' g
  dsimp only
  rw [u32_of_lt hu]
  have hlen : (p.takeD (u32 (p.length + q.length)) g).length = u32 (p.length + q.length) :=
    List.takeD_length _ _ _
  apply spec_prefixChunk (Multiset.mem_cons_of_mem hc)
  by_cases hfit : p.length + q.length < 2 ^ 32
  · rw [u32_of_lt hfit, takeD_grow] at *
    apply spec_copyPrefixAt (by simp)
    dsimp only
    rw [List.take_left]
    apply spec_firstBytes (Multiset.mem_cons_of_mem hc)
    apply spec_setFirstBytes (by dsimp only; rw [List.takeD_length, u32_of_lt hes, List.length_map])
    apply spec_nodePtrs (Multiset.mem_cons_of_mem hc)
    apply spec_setNodePtrs (by dsimp only; simp [u32_of_lt hes])
    apply spec_refcount (Multiset.mem_cons_of_mem hc)
    apply spec_setRefcount
    dsimp only
    rw [zip_chunks es' _ (by rw [List.takeD_length, u32_of_lt hes])]
    exact h n' hfit
  · apply spec_copyPrefixAt_over
    · dsimp only
      rw [hlen]
      omega
    · exact hE.resolve_left hfit

theorem eraseMergeChild_spec {A : Allocator Block} {f : Frame Addr} {C : List (Frame Addr)} {a c : Addr}
    {rc rc' : UInt32} {p q : List UInt8} {b : UInt8} {es : Edges Addr} {F : Multiset (Addr × Block)}
    {E : Fault → Prop} {i j : Nat} (hes : es.length < 2 ^ 10)
    (hE : p.length + q.length < 2 ^ 32 ∨ E .outOfBounds) :
    Spec (Holds (cells (plug (f :: C) (.node a rc p [(b, .node c rc' q es)])) + F))
      (eraseMergeChild A (located (f :: C) a i j))
      (fun _ m => p.length + q.length < 2 ^ 32 ∧
        ∃ a', Holds (cells (plug (f :: C) (.node a' rc' (p ++ q) es)) + F) m) E := by
  have hcells : cells (plug (f :: C) (.node a rc p [(b, .node c rc' q es)])) + F =
      (a, ⟨rc, p, [(b, c)]⟩) ::ₘ (c, ⟨rc', q, slots es⟩) ::ₘ (edgesCells es + F + ctxCells (f :: C) a) := by
    rw [cells_focus, edgesCells, edgesCells, cells]
    simp only [slots, List.map_nil, List.map_cons, Trie.tag_node, add_zero, Multiset.cons_add]
  rw [hcells, eraseMergeChild]
  apply spec_nodeAt (e := (b, c)) (Multiset.mem_cons_self _ _) rfl
  apply spec_absorb (Multiset.mem_cons_self _ _) (by rw [slots_length]; omega) hE
  intro a' hfit
  rw [Multiset.cons_swap]
  apply spec_free_bind
  rw [← Multiset.cons_add, ← bind_pure (setNodeAt _ _ _)]
  apply spec_patch
  rw [Multiset.cons_add, ← cells_focus]
  exact spec_pure (fun m hm => ⟨hfit, a', hm⟩)

/-- The cells around a leaf, its parent first. -/
theorem cells_parent (f : Frame Addr) (C : List (Frame Addr)) (a : Addr) (rc : UInt32) (p : List UInt8)
    (F : Multiset (Addr × Block)) : cells (plug (f :: C) (.node a rc p [])) + F =
      (f.tag, ⟨f.refcount, f.bytes, slots f.left ++ (f.label, a) :: slots f.right⟩) ::ₘ (a, ⟨rc, p, []⟩) ::ₘ
        (edgesCells (f.left ++ f.right) + F + ctxCells C f.tag) := by
  rw [cells_focus, ctxCells, edgesCells, edgesCells_append, zero_add]
  simp only [slots, List.map_nil, Multiset.add_cons]
  rw [Multiset.cons_swap]
  congr 2
  ac_rfl

theorem eraseMergeParent_spec {A : Allocator Block} {f g : Frame Addr} {C : List (Frame Addr)} {a o : Addr}
    {rc rc' : UInt32} {p q : List UInt8} {b : UInt8} {es : Edges Addr} {F : Multiset (Addr × Block)}
    {E : Fault → Prop} {i j : Nat} (he : f.left ++ f.right = [(b, .node o rc' q es)]) (hes : es.length < 2 ^ 10)
    (hE : f.bytes.length + q.length < 2 ^ 32 ∨ E .outOfBounds) :
    Spec (Holds (cells (plug (f :: g :: C) (.node a rc p [])) + F))
      (eraseMergeParent A (located (f :: g :: C) a i j))
      (fun _ m => f.bytes.length + q.length < 2 ^ 32 ∧
        ∃ n, Holds (cells (plug (g :: C) (.node n rc' (f.bytes ++ q) es)) + F) m) E := by
  have hlen : f.left.length + f.right.length = 1 := by
    rw [← List.length_append, he]
    rfl
  have hother : (slots f.left ++ (f.label, a) :: slots f.right)[if f.left.length = 0 then 1 else 0]? =
      some (b, o) := by
    rcases List.append_eq_singleton_iff.mp he with ⟨hl, hr⟩ | ⟨hl, hr⟩
    · rw [hl, hr]; rfl
    · rw [hl, hr]; rfl
  have hcells : cells (plug (f :: g :: C) (.node a rc p [])) + F =
      (f.tag, ⟨f.refcount, f.bytes, slots f.left ++ (f.label, a) :: slots f.right⟩) ::ₘ (a, ⟨rc, p, []⟩) ::ₘ
        (o, ⟨rc', q, slots es⟩) ::ₘ (edgesCells es + F + ctxCells (g :: C) f.tag) := by
    rw [cells_parent, he, edgesCells, edgesCells, cells, add_zero]
    simp only [Multiset.cons_add]
  rw [hcells, eraseMergeParent]
  apply spec_assert_bind (by dsimp only [located, edgeIndexOf]; omega)
  apply spec_nodeAt (Multiset.mem_cons_self _ _) hother
  apply spec_absorb (Multiset.mem_cons_of_mem (Multiset.mem_cons_self _ _)) (by rw [slots_length]; omega) hE
  intro n hfit
  rw [Multiset.cons_swap]
  apply spec_free_bind
  rw [Multiset.cons_swap]
  apply spec_free_bind
  rw [← Multiset.cons_add, ← bind_pure (setNodeAt _ _ _)]
  apply spec_patch
  rw [Multiset.cons_add, ← cells_focus]
  exact spec_pure (fun m hm => ⟨hfit, n, hm⟩)

theorem edgesCells_perm {es es' : Edges Addr} (h : es.Perm es') : edgesCells es = edgesCells es' := by
  induction h with
  | nil => rfl
  | cons e _ ih => rw [edgesCells, edgesCells, ih]
  | swap e e' es => rw [edgesCells, edgesCells, edgesCells, edgesCells, add_left_comm]
  | trans _ _ ih ih' => rw [ih, ih']

/-- Overwriting slot l with the last one leaves the wanted slots and the last one. -/
theorem slots_swap (l : Edges Addr) (b : UInt8) (t : Trie Addr) (r : Edges Addr) :
    ∃ z, (slots l ++ (b, t.tag) :: slots r)[l.length + r.length]? = some z ∧
      slots l ++ z :: slots r = slots (swapRemove l.length (l ++ (b, t) :: r)) ++ [z] := by
  rcases swapRemove_cases l (b, t) r with ⟨rfl, hs⟩ | ⟨e, r', rfl, hs⟩
  · refine ⟨(b, t.tag), ?_, ?_⟩
    · rw [List.length_nil, Nat.add_zero, ← slots_length l]
      simp [slots]
    · rw [hs]
      rfl
  · refine ⟨(e.1, e.2.tag), ?_, ?_⟩
    · rw [← slots_length l, List.getElem?_append_right (Nat.le_add_right _ _), Nat.add_sub_cancel_left,
        List.length_append, List.length_singleton, List.getElem?_cons_succ, slots_append,
        List.getElem?_append_right (by rw [slots_length]), slots_length]
      simp [slots]
    · rw [hs]
      simp [slots]

theorem eraseEdge_spec {A : Allocator Block} {f : Frame Addr} {C : List (Frame Addr)} {a : Addr}
    {rc : UInt32} {p : List UInt8} {F : Multiset (Addr × Block)} {E : Fault → Prop} {i j : Nat} (w : UInt64)
    (hC : f.bytes = [] ↔ C = []) (hshort : f.bytes.length < 2 ^ 32)
    (hfew : f.left.length + f.right.length < 2 ^ 10) :
    Spec (Holds (cells (plug (f :: C) (.node a rc p [])) + F))
      (eraseEdge A ⟨(plug (f :: C) (.node a rc p [])).tag, w⟩ (located (f :: C) a i j))
      (fun r m => ∃ n T', T' = plug C (.node n f.refcount f.bytes
          (swapRemove f.left.length (f.left ++ (f.label, .node a rc p []) :: f.right))) ∧
        r = ⟨T'.tag, w⟩ ∧ Holds (cells T' + F) m) E := by
  obtain ⟨z, hz, hset⟩ := slots_swap f.left f.label (.node a rc p []) f.right
  have hlen : (slots f.left ++ (f.label, a) :: slots f.right).length = f.left.length + f.right.length + 1 := by
    simp only [List.length_append, List.length_cons, slots_length]
    omega
  have hlast : (slots f.left ++ (f.label, a) :: slots f.right)[(slots f.left ++
      (f.label, a) :: slots f.right).length - 1]? = some z := by
    rw [hlen, Nat.add_sub_cancel]
    exact hz
  rw [cells_parent, eraseEdge]
  apply spec_edgecount (Multiset.mem_cons_self _ _)
  apply spec_firstByteAt (Multiset.mem_cons_self _ _) hlast
  apply spec_nodeAt (Multiset.mem_cons_self _ _) hlast
  apply spec_setEdgeAt (by simp [located, edgeIndexOf, slots_length])
  rw [hset]
  apply spec_prefixLength (Multiset.mem_cons_self _ _)
  apply spec_edgecount (Multiset.mem_cons_self _ _)
  generalize hes : swapRemove f.left.length (f.left ++ (f.label, .node a rc p []) :: f.right) = es at hset ⊢
  have hcount : (slots es).length = f.left.length + f.right.length := by
    have h := congrArg List.length hset
    simp only [List.length_append, List.length_cons, List.length_nil, slots_length] at h ⊢
    omega
  have hcells : edgesCells (f.left ++ f.right) = edgesCells es := by
    rw [← hes]
    exact (edgesCells_perm (swapRemove_perm f.left _ f.right)).symm
  apply spec_resize (Or.inl (blockSize_small (by dsimp only; omega)
    (by simp only [List.length_append, List.length_singleton]; omega)).2)
  intro n g
  dsimp only
  rw [List.length_append, List.length_singleton, Nat.add_sub_cancel, u32_of_lt hshort, u32_of_lt (by omega),
    List.takeD_left, ← Nat.add_zero f.bytes.length, takeD_grow, List.replicate_zero, List.append_nil,
    Multiset.cons_swap]
  apply spec_free_bind
  apply spec_prefixLength (Multiset.mem_cons_self _ _)
  rw [hcells]
  refine spec_ite (fun h0 => ?_) (fun h0 => ?_)
  · obtain rfl := hC.mp (List.length_eq_zero_iff.mp h0)
    refine spec_pure (fun m hm => ⟨n, _, rfl, rfl, ?_⟩)
    rw [cells_focus]
    exact hm
  · cases C with
    | nil => exact absurd (List.length_eq_zero_iff.mpr (hC.mpr rfl)) h0
    | cons g C =>
        rw [← Multiset.cons_add]
        apply spec_patch
        rw [Multiset.cons_add, ← cells_focus]
        exact spec_pure (fun m hm => ⟨n, _, rfl, congrArg (RadixTree.mk · w) (plug_cons_tag g C _ _), hm⟩)

end StudyNotes.Radix.EraseSpec
