import StudyNotes.Radix.ByteInsert

namespace StudyNotes.Radix.ByteErase

open Heap.Program Heap.Triple Heap.Bytes Heap.Mirror
open KeyTree KeyTreeCases KeyTreeShape Context MatchSpec InsertSpec InsertStep EraseSpec EraseStep
open Layout LayoutEdits InPlaceEdits ByteMatch ByteInsert
open Node (Block u32)
open Program (RadixTree)

/-- The outcome of erase on the bytes of a given tree. -/
def Erased (key : List UInt8) (size : Nat) (w : UInt64) (T : Trie Addr) (F : Multiset (Addr × List UInt8))
    (r : Bool × RadixTree) (m : Mem (List UInt8)) : Prop :=
  ∃ T', Shrinks key size T r.1 T' ∧ r.2 = ⟨T'.tag, if r.1 then w - 1 else w⟩ ∧ Holds (laid (cells T') + F) m

theorem toNat_eq_zero (rc : UInt32) : rc.toNat = 0 ↔ rc = 0 := by
  rw [← UInt32.toNat_inj]
  rfl

section Cases

variable {A : ByteAllocator} {key : List UInt8} {size : Nat} {w : UInt64} {F : Multiset (Addr × List UInt8)}
variable {f : Frame Addr} {C : List (Frame Addr)} {a : Addr} {p q : List UInt8} {rc rc₀ rc' : UInt32}
variable {es : Edges Addr}

theorem eraseMergeChild_spec {c : Addr} {b : UInt8} {i j : Nat}
    (hsound : AllNodes Sound (plug (f :: C) (.node a rc₀ p [(b, .node c rc' q es)]))) (hlow : c < 2 ^ 64)
    (hroom : p.length + q.length < 2 ^ 32) :
    Spec (Holds (laid (cells (plug (f :: C) (.node a rc p [(b, .node c rc' q es)]))) + F))
      (ByteTree.eraseMergeChild A (located (f :: C) a i j))
      (fun _ m => ∃ a', Holds (laid (cells (plug (f :: C) (.node a' rc' (p ++ q) es))) + F) m) (fun _ => False) := by
  have hnode := AllNodes.focus (C := f :: C) hsound
  have hchild : Sound (.node c rc' q es) := (hnode.child (b, .node c rc' q es) (by simp)).here
  have hcells : laid (cells (plug (f :: C) (.node a rc p [(b, .node c rc' q es)]))) + F =
      (a, layout ⟨rc, p, [(b, c)]⟩) ::ₘ (c, layout ⟨rc', q, slots es⟩) ::ₘ
        (laid (edgesCells es) + F + laid (ctxCells (f :: C) a)) := by
    rw [laid_focus, edgesCells, edgesCells, cells, add_zero, laid_cons]
    simp only [slots, List.map_nil, List.map_cons, Trie.tag_node, Multiset.cons_add]
  rw [hcells, ByteTree.eraseMergeChild]
  have hfits := fits_of_sound hnode.here
  refine spec_mergeChild ⟨hfits.prefix_lt, hfits.edges_lt⟩ (fits_of_sound hchild) hlow hroom (fun a' => ?_)
  rw [← Multiset.cons_add, ← bind_pure (ByteNode.setNodeAt _ _ _)]
  refine spec_patch hsound ?_
  rw [Multiset.cons_add, ← laid_focus]
  exact spec_pure (fun m hm => ⟨a', hm⟩)

/-- The bytes around a leaf, those of its parent first. -/
theorem laid_parent (f : Frame Addr) (C : List (Frame Addr)) (a : Addr) (rc : UInt32) (p : List UInt8)
    (F : Multiset (Addr × List UInt8)) : laid (cells (plug (f :: C) (.node a rc p []))) + F =
      (f.tag, layout ⟨f.refcount, f.bytes, slots f.left ++ (f.label, a) :: slots f.right⟩) ::ₘ
        (a, layout ⟨rc, p, []⟩) ::ₘ (laid (edgesCells (f.left ++ f.right)) + F + laid (ctxCells C f.tag)) := by
  have hparent := cells_parent f C a rc p 0
  rw [add_zero, add_zero] at hparent
  rw [hparent, laid_cons, laid_cons, laid_add, Multiset.cons_add, Multiset.cons_add]
  congr 2
  ac_rfl

theorem eraseMergeParent_spec {g : Frame Addr} {o : Addr} {b : UInt8} {i j : Nat}
    (he : f.left ++ f.right = [(b, .node o rc' q es)]) (hsound : AllNodes Sound (plug (f :: g :: C) (.node a rc₀ p [])))
    (hlow : o < 2 ^ 64) (hroom : f.bytes.length + q.length < 2 ^ 32) :
    Spec (Holds (laid (cells (plug (f :: g :: C) (.node a rc p []))) + F))
      (ByteTree.eraseMergeParent A (located (f :: g :: C) a i j))
      (fun _ m => ∃ n, Holds (laid (cells (plug (g :: C) (.node n rc' (f.bytes ++ q) es))) + F) m)
      (fun _ => False) := by
  have hparent := AllNodes.focus (C := g :: C) (t := f.fill (.node a rc₀ p [])) hsound
  have hchild : Sound (.node o rc' q es) :=
    (hparent.child (b, .node o rc' q es) (mem_of_append_eq he)).here
  have hslots : slots f.left ++ slots f.right = [(b, o)] := by
    rw [← slots_append, he]
    rfl
  have hcells : laid (cells (plug (f :: g :: C) (.node a rc p []))) + F =
      (f.tag, layout ⟨f.refcount, f.bytes, slots f.left ++ (f.label, a) :: slots f.right⟩) ::ₘ
        (a, layout ⟨rc, p, []⟩) ::ₘ (o, layout ⟨rc', q, slots es⟩) ::ₘ
          (laid (edgesCells es) + F + laid (ctxCells (g :: C) f.tag)) := by
    rw [laid_parent, he, edgesCells, edgesCells, cells, add_zero, laid_cons]
    simp only [Multiset.cons_add]
  rw [hcells, ByteTree.eraseMergeParent]
  refine spec_mergeOther hslots (slots_length f.left).symm (frame_fits hsound a) (fits_of_sound hchild) hlow hroom
    (fun n => ?_)
  rw [← Multiset.cons_add, ← bind_pure (ByteNode.setNodeAt _ _ _)]
  refine spec_patch (t := f.fill (.node a rc₀ p [])) hsound ?_
  rw [Multiset.cons_add, ← laid_focus]
  exact spec_pure (fun m hm => ⟨n, hm⟩)

theorem slots_swapRemove (l : Edges Addr) (b : UInt8) (t : Trie Addr) (r : Edges Addr) :
    swapRemove l.length (slots l ++ (b, t.tag) :: slots r) = slots (swapRemove l.length (l ++ (b, t) :: r)) := by
  have hlen := slots_length l
  rcases List.eq_nil_or_concat r with rfl | ⟨r', z, rfl⟩
  · rw [swapRemove_last, ← hlen]
    exact swapRemove_last _ _
  · rw [List.concat_eq_append, swapRemove_append, slots_append, slots_append, slots_cons, slots_cons, ← hlen]
    exact swapRemove_append _ _ _ _

theorem eraseEdge_spec {i j : Nat} (hC : f.bytes = [] ↔ C = [])
    (hsound : AllNodes Sound (plug (f :: C) (.node a rc₀ p []))) :
    Spec (Holds (laid (cells (plug (f :: C) (.node a rc p []))) + F))
      (ByteTree.eraseEdge A ⟨(plug (f :: C) (.node a rc p [])).tag, w⟩ (located (f :: C) a i j))
      (fun r m => ∃ n T', T' = plug C (.node n f.refcount f.bytes
          (swapRemove f.left.length (f.left ++ (f.label, .node a rc p []) :: f.right))) ∧
        r = ⟨T'.tag, w⟩ ∧ Holds (laid (cells T') + F) m) (fun _ => False) := by
  have hfits := frame_fits hsound a
  have hslots : swapRemove f.left.length (slots f.left ++ (f.label, a) :: slots f.right) = _ :=
    slots_swapRemove f.left f.label (.node a rc p []) f.right
  have hlen := swapRemove_length (slots f.left) (f.label, a) (slots f.right)
  rw [slots_length, hslots] at hlen
  have hcells := edgesCells_perm (swapRemove_perm f.left (f.label, .node a rc p []) f.right)
  rw [laid_parent, ByteTree.eraseEdge]
  refine spec_removeEdge hfits (slots_length f.left).symm (fun n => ?_)
  rw [Multiset.cons_swap]
  apply spec_free_bind
  rw [show (located (f :: C) a i j).edgeIndex = f.left.length from rfl, hslots, ← hcells]
  generalize swapRemove f.left.length (f.left ++ (f.label, .node a rc p []) :: f.right) = es' at hlen ⊢
  have hcount : (slots f.left ++ (f.label, a) :: slots f.right).length < 2 ^ 32 := hfits.edges_lt
  refine spec_gives (gives_prefixLength (Multiset.mem_cons_self _ _) ⟨hfits.prefix_lt, by dsimp only; omega⟩) ?_
  refine spec_ite (fun h0 => ?_) (fun h0 => ?_)
  · obtain rfl := hC.mp (List.length_eq_zero_iff.mp h0)
    rw [show ctxCells [] f.tag = ctxCells [] n from rfl, ← laid_focus]
    exact spec_pure (fun m hm => ⟨n, _, rfl, rfl, hm⟩)
  · cases C with
    | nil => exact absurd (List.length_eq_zero_iff.mpr (hC.mpr rfl)) h0
    | cons g C =>
        rw [← Multiset.cons_add]
        refine spec_patch (t := f.fill (.node a rc₀ p [])) hsound ?_
        rw [Multiset.cons_add, ← laid_focus]
        exact spec_pure (fun m hm => ⟨n, _, rfl, congrArg (RadixTree.mk · w) (plug_cons_tag g C _ _), hm⟩)

/-- The structural cases, once the last copy is gone. The header already says so,
while the tree before the call still had a copy. -/
theorem eraseNode_spec {i j : Nat} (hit : Hit key size (f :: C) p)
    (hroot : (plug (f :: C) (.node a 1 p es)).bytes = [])
    (hsound : AllNodes Sound (plug (f :: C) (.node a 1 p es)))
    (hroomy : AllNodes Roomy (plug (f :: C) (.node a 1 p es)))
    (hlow : ∀ x ∈ addresses (plug (f :: C) (.node a 1 p es)), x < 2 ^ 64)
    (hnodup : (addresses (plug (f :: C) (.node a 1 p es))).Nodup) :
    Spec (Holds (laid (cells (plug (f :: C) (.node a 0 p es))) + F))
      (ByteTree.eraseNode A ⟨(plug (f :: C) (.node a 1 p es)).tag, w⟩ (located (f :: C) a i j))
      (fun r m => ∃ T', Shrinks key size (plug (f :: C) (.node a 1 p es)) true T' ∧ r = ⟨T'.tag, w⟩ ∧
        Holds (laid (cells T') + F) m) (fun _ => False) := by
  have hb : (a, layout ⟨0, p, slots es⟩) ∈ laid (cells (plug (f :: C) (.node a 0 p es))) + F := by
    rw [laid_focus]
    exact Multiset.mem_cons_self _ _
  have hnode := AllNodes.focus (C := f :: C) hsound
  have hfits := fits_of_sound hnode.here
  rw [ByteTree.eraseNode]
  refine spec_gives (gives_edgecount hb ⟨hfits.prefix_lt, hfits.edges_lt⟩) ?_
  dsimp only
  rw [slots_length]
  refine spec_ite (fun hmany => ?_) (fun hfew => spec_ite (fun hone => ?_) (fun hzero => ?_))
  · exact spec_pure (fun m hm => ⟨_, .branch f C a p es hit hmany, by rw [plug_cons_tag], hm⟩)
  · obtain ⟨⟨b, c, rc, q, es'⟩, rfl⟩ := List.length_eq_one_iff.mp hone
    have hroom : p.length + q.length < 2 ^ 32 :=
      (AllNodes.focus (C := f :: C) hroomy).here (b, .node c rc q es') (by simp)
    have hc : c < 2 ^ 64 := by
      have hmem := mem_cells_plug (f :: C) (.node a 1 p [(b, .node c rc q es')])
      exact hlow c (slot_mem hmem (e := (b, c)) (by simp [blockOf, slots]))
    refine spec_bind (eraseMergeChild_spec hsound hc hroom) (fun _ => ?_)
    rintro m ⟨a', hm⟩
    exact ⟨_, .merge f C a c a' p b rc q es' hit hroom, by rw [plug_cons_tag], hm⟩
  · obtain rfl : es = [] := List.length_eq_zero_iff.mp (by omega)
    have hparent : (f.tag, layout ⟨f.refcount, f.bytes, slots f.left ++ (f.label, a) :: slots f.right⟩) ∈
        laid (cells (plug (f :: C) (.node a 0 p []))) + F := by
      rw [laid_parent]
      exact Multiset.mem_cons_self _ _
    refine spec_gives (gives_edgecount hparent (frame_fits hsound a)) ?_
    refine spec_gives (gives_refcount hparent) ?_
    have hcount : (slots f.left ++ (f.label, a) :: slots f.right).length = (f.left ++ f.right).length + 1 := by
      simp only [List.length_append, List.length_cons, slots_length]
      omega
    dsimp only
    rw [hcount]
    refine spec_ite (fun hm => ?_) (fun hm => ?_)
    · obtain ⟨htwo, hf, hne⟩ := hm
      obtain ⟨⟨b, o, rc, q, es'⟩, he⟩ := List.length_eq_one_iff.mp (Nat.succ.inj htwo)
      have hmem : (b, .node o rc q es') ∈ f.left ++ (f.label, .node a 1 p []) :: f.right := mem_of_append_eq he
      have hroom : f.bytes.length + q.length < 2 ^ 32 :=
        (AllNodes.focus (C := C) (t := f.fill (.node a 1 p [])) hroomy).here _ hmem
      have ho : o < 2 ^ 64 := by
        have hslot := slot_mem (mem_cells_plug C (f.fill (.node a 1 p []))) (e := (b, o))
          (List.mem_map.mpr ⟨_, hmem, rfl⟩)
        exact hlow o hslot
      cases C with
      | nil => exact absurd rfl hne
      | cons g C =>
          refine spec_bind (eraseMergeParent_spec he hsound ho hroom) (fun _ => ?_)
          rintro m ⟨n, hm⟩
          exact ⟨_, .sibling f g C a o n p b rc q es' hit ((toNat_eq_zero _).mp hf) he hroom,
            congrArg (RadixTree.mk · w) (plug_cons_tag g C _ _), hm⟩
    · have hn : ¬(f.refcount = 0 ∧ C.isEmpty = false ∧ (f.left ++ f.right).length = 1) := by
        rintro ⟨hf, hC, hlen⟩
        cases C with
        | nil => simp at hC
        | cons g C =>
            refine hm ⟨by omega, (toNat_eq_zero _).mpr hf, fun heq => ?_⟩
            exact root_tag_ne (F := 0) (t := f.fill (.node a 1 p [])) (by rwa [add_zero]) heq.symm
      apply spec_assert_bind (by rfl)
      rw [plug_cons_tag f C (.node a 1 p []) (.node a 0 p [])]
      refine Spec.post (eraseEdge_spec (frame_nil_iff hroot hsound) hsound) ?_
      rintro r m ⟨n, T', rfl, rfl, hm⟩
      exact ⟨_, .edge f C a n p hit hn, rfl, hm⟩

theorem toNat_decr {rc : UInt32} (h : rc ≠ 0) : ByteNode.u32Sub rc.toNat 1 = (rc - 1).toNat := by
  have hle : 1 ≤ rc.toNat := by
    rw [Nat.one_le_iff_ne_zero, ne_eq, toNat_eq_zero]
    exact h
  have hle' : 1 ≤ rc := UInt32.le_iff_toNat_le.mpr hle
  rw [u32Sub_of_le rc.toNat_lt hle, UInt32.toNat_sub_of_le _ _ hle']
  rfl

theorem eraseFrom_hit (hit : Hit key size (f :: C) p) (hrc : rc ≠ 0)
    (hroot : (plug (f :: C) (.node a rc p es)).bytes = [])
    (hsound : AllNodes Sound (plug (f :: C) (.node a rc p es)))
    (hroomy : AllNodes Roomy (plug (f :: C) (.node a rc p es)))
    (hlow : ∀ x ∈ addresses (plug (f :: C) (.node a rc p es)), x < 2 ^ 64)
    (hnodup : (addresses (plug (f :: C) (.node a rc p es))).Nodup) :
    Spec (Holds (laid (cells (plug (f :: C) (.node a rc p es))) + F))
      (ByteTree.eraseFrom A ⟨(plug (f :: C) (.node a rc p es)).tag, w⟩ size
        (located (f :: C) a ((path (f :: C)).length + p.length) p.length))
      (Erased key size w (plug (f :: C) (.node a rc p es)) F) (fun _ => False) := by
  have hne : f.tag ≠ a := by
    have h := child_tag_ne (C := C) (a := f.tag) (F := 0) (by rwa [add_zero]) (e := (f.label, .node a rc p es)) (by simp)
    exact Ne.symm h
  have hfits := fits_of_sound (AllNodes.focus hsound).here
  rw [laid_focus, ByteTree.eraseFrom]
  refine spec_gives (gives_prefixLength (Multiset.mem_cons_self _ _) hfits) ?_
  refine spec_gives (gives_refcount (Multiset.mem_cons_self _ _)) ?_
  refine spec_ite (fun h => ?_) (fun _ => ?_)
  · exact absurd h (by simp [located, hit.size_eq, toNat_eq_zero, hrc])
  apply spec_assert_bind hne
  dsimp only
  rw [toNat_decr hrc]
  apply spec_setRefcount
  change Spec (Holds ((a, layout ⟨rc - 1, p, slots es⟩) ::ₘ _)) _ _ _
  refine spec_gives (gives_refcount (Multiset.mem_cons_self _ _)) ?_
  rw [← laid_focus]
  refine spec_ite (fun hpos => ?_) (fun hpos => ?_)
  · have hmany : rc - 1 ≠ 0 := fun h0 => by
      dsimp only at hpos
      rw [h0] at hpos
      exact absurd hpos (by decide)
    exact spec_pure (fun m hm => ⟨_, .copy f C a rc p es hit hrc hmany, by rw [plug_cons_tag]; rfl, hm⟩)
  · have hlast : rc - 1 = 0 := (toNat_eq_zero _).mp (Nat.eq_zero_of_not_pos hpos)
    obtain rfl := sub_one_eq_zero hlast
    rw [hlast]
    refine spec_bind (eraseNode_spec hit hroot hsound hroomy hlow hnodup) (fun r => ?_)
    rintro m ⟨T', hT', rfl, hm⟩
    exact ⟨T', hT', rfl, hm⟩

/-- On the bytes of a tree an erasure ends without a fault, with the bytes of a
tree that has shrunk as the blocks shrink. -/
theorem erase_spec (hpos : 0 < size) (hsize : size ≤ key.length) {T : Trie Addr} (hroot : T.bytes = [])
    (hsound : AllNodes Sound T) (hends : ¬EndsInside key size T) (hroomy : AllNodes Roomy T)
    (hlow : ∀ x ∈ addresses T, x < 2 ^ 64) :
    Spec (Holds (laid (cells T) + F)) (ByteTree.erase A ⟨T.tag, w⟩ key size) (Erased key size w T F)
      (fun _ => False) := by
  intro m hm
  have hn := hm.nodup
  rw [Multiset.map_add, laid_fst, Multiset.nodup_add] at hn
  obtain ⟨C, t, i, j, rfl, hstop, hmatch⟩ := matchKey_gives (F := F) hpos hsize hsound hlow hends w hn.1
  refine (spec_gives hmatch ?_ : Spec _ _ _ _) m hm
  by_cases h : i ≠ size ∨ j ≠ t.bytes.length ∨ t.refcount = 0
  · obtain ⟨a, rc, p, es⟩ := t
    have hb : (a, layout ⟨rc, p, slots es⟩) ∈ laid (cells (plug C (.node a rc p es))) + F := by
      rw [laid_focus]
      exact Multiset.mem_cons_self _ _
    rw [ByteTree.eraseFrom]
    refine spec_gives (gives_prefixLength hb (fits_of_sound (AllNodes.focus hsound).here)) ?_
    refine spec_gives (gives_refcount hb) ?_
    refine spec_ite (fun _ => ?_) (fun hn => absurd (h.imp_right (Or.imp_right (toNat_eq_zero rc).mpr)) hn)
    exact spec_pure (fun m hm => ⟨_, .missing C _ i j hstop h, rfl, hm⟩)
  · simp only [not_or, not_not] at h
    obtain ⟨hi, hj, hrc⟩ := h
    cases hstop with
    | inside C a rc c x q es y rest hkey hxy hC hlt => simp at hj
    | empty f C a rc rest hkey hC hlt => omega
    | full C a rc p es rest hkey hC hlt hp hend =>
        have hp0 : p ≠ [] := by
          rintro rfl
          simp only [List.length_nil] at hi
          omega
        cases C with
        | nil => exact absurd hroot hp0
        | cons f C => exact eraseFrom_hit ⟨⟨rest, hkey, hC⟩, hi, hp0⟩ hrc hroot hsound hroomy hlow hn.1

end Cases

end StudyNotes.Radix.ByteErase
