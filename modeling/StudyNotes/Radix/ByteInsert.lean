import StudyNotes.Radix.ByteMatch

namespace StudyNotes.Radix.ByteInsert

open Heap.Program Heap.Triple Heap.Bytes Heap.Mirror Codes.LittleEndian
open KeyTree KeyTreeShape Context MatchSpec InsertSpec InsertStep Layout LayoutEdits InPlaceEdits ByteMatch ByteTree
open Node (Block sizeSub u32)
open NodeSpec (u32_of_lt sizeSub_of_le)
open Program (RadixTree)

variable {γ : Type}

/-- The bytes of the node at a position, then those of what hangs below it and around it. -/
theorem laid_focus (C : List (Frame Addr)) (a : Addr) (rc : UInt32) (p : List UInt8) (es : Edges Addr)
    (F : Multiset (Addr × List UInt8)) : laid (cells (plug C (.node a rc p es))) + F =
      (a, layout ⟨rc, p, slots es⟩) ::ₘ (laid (edgesCells es) + F + laid (ctxCells C a)) := by
  have hfocus := cells_focus C a rc p es 0
  rw [add_zero, add_zero] at hfocus
  rw [hfocus, laid_cons, laid_add, Multiset.cons_add]
  congr 1
  ac_rfl

section Rules

variable {S : Multiset (Addr × List UInt8)} {Q : γ → Mem (List UInt8) → Prop} {E : Fault → Prop}

/-- Overwriting the pointer of edge l of a laid out node. -/
theorem spec_setSlot {n x : Addr} {rc : UInt32} {p : List UInt8} {l r : List (UInt8 × Addr)} {e : UInt8 × Addr}
    {g : Unit → ByteM γ} (hb : Fits ⟨rc, p, l ++ e :: r⟩)
    (h : Spec (Holds ((n, layout ⟨rc, p, l ++ (e.1, x) :: r⟩) ::ₘ S)) (g ()) Q E) :
    Spec (Holds ((n, layout ⟨rc, p, l ++ e :: r⟩) ::ₘ S)) (ByteNode.setNodeAt n l.length x >>= g) Q E := by
  have hcount : l.length + 1 + r.length < 2 ^ 32 := by
    have hlt := hb.edges_lt
    rw [List.length_append, List.length_cons] at hlt
    omega
  rw [layout_middle] at h ⊢
  refine spec_setNodeAt hb.prefix_lt hcount rfl ?_ (by omega) (pointers_length l) (encode_length _ _) h
  simp only [List.length_append, List.length_map, List.length_cons]
  omega

/-- A frame of a tree fits into its block, whatever is placed into its hole. -/
theorem frame_fits {f : Frame Addr} {C : List (Frame Addr)} {t : Trie Addr} (h : AllNodes Sound (plug (f :: C) t))
    (a : Addr) : Fits ⟨f.refcount, f.bytes, slots f.left ++ (f.label, a) :: slots f.right⟩ := by
  have hframe : Sound (f.fill t) := (AllNodes.focus (C := C) h).here
  have hfew := hframe.few
  simp only [Frame.fill, Trie.edges_node, List.length_append, List.length_cons] at hfew
  refine ⟨hframe.short, ?_⟩
  simp only [List.length_append, List.length_cons, slots_length]
  omega

/-- Repairing the slot above a position whose block has moved. -/
theorem spec_patch {f : Frame Addr} {C : List (Frame Addr)} {t : Trie Addr} {a a' : Addr} {g : Unit → ByteM γ}
    (hf : AllNodes Sound (plug (f :: C) t)) (h : Spec (Holds (S + laid (ctxCells (f :: C) a'))) (g ()) Q E) :
    Spec (Holds (S + laid (ctxCells (f :: C) a))) (ByteNode.setNodeAt f.tag f.left.length a' >>= g) Q E := by
  rw [ctxCells, laid_cons, Multiset.add_cons, ← slots_length]
  apply spec_setSlot (frame_fits hf a)
  rw [← Multiset.add_cons, ← laid_cons]
  exact h

/-- The leaf made for the rest of a key. -/
theorem spec_makeLeaf {A : ByteAllocator} {u leaf w : List UInt8} {size i : Nat} {g : Addr → ByteM γ} (hi : i = u.length)
    (hsize : size = u.length + leaf.length) (hlt : leaf.length < 2 ^ 32)
    (h : ∀ k, Spec (Holds ((k, layout ⟨1, leaf, []⟩) ::ₘ S)) (g k) Q E) :
    Spec (Holds S) (ByteNode.makeNode A 1 (sizeSub size i) 0 >>= fun k =>
      ByteNode.setPrefix k (fromBuffer (u ++ (leaf ++ w)) i) >>= fun _ => g k) Q E := by
  have hlen : sizeSub size i = leaf.length := by
    rw [sizeSub_of_le (by omega) (by omega)]
    omega
  rw [hlen]
  refine spec_makeNode (by omega) (by omega) (fun k body hbody => ?_)
  rw [← List.append_nil body]
  refine spec_setPrefix hlt hbody (yields_fromBuffer rfl hi rfl) rfl ?_
  rw [← layout_leaf]
  exact h k

end Rules

/-- A buffer around the part of the key that its leaf gets. -/
theorem cut_key {key : List UInt8} {size i : Nat} (hi : i ≤ size) (hsize : size ≤ key.length) (hlt : size < 2 ^ 32) :
    key = key.take i ++ (leafBytes key size i ++ key.drop size) ∧ (leafBytes key size i).length = size - i := by
  have hleaf : leafBytes key size i = (key.drop i).take (size - i) := by rw [leafBytes, u32_of_lt (by omega)]
  constructor
  · have hdrop : key.drop size = (key.drop i).drop (size - i) := by
      rw [List.drop_drop]
      congr 1
      omega
    rw [hleaf, hdrop, List.take_append_drop, List.take_append_drop]
  · rw [hleaf, List.length_take, List.length_drop]
    omega

/-- The outcome of insert on the bytes of a given tree. -/
def Inserted (key : List UInt8) (size : Nat) (w : UInt64) (T : Trie Addr) (F : Multiset (Addr × List UInt8))
    (r : Bool × RadixTree) (m : Mem (List UInt8)) : Prop :=
  ∃ T', Grows key size T 0 r.1 T' 0 ∧ r.2 = ⟨T'.tag, w + 1⟩ ∧ Holds (laid (cells T') + F) m

section Cases

variable {A : ByteAllocator} {key : List UInt8} {size : Nat} {w : UInt64} {F : Multiset (Addr × List UInt8)}

/-- A new edge with a leaf at the node of a position. -/
theorem insertEdge_spec {C : List (Frame Addr)} {a : Addr} {rc : UInt32} {p : List UInt8} {es : Edges Addr} {y : UInt8}
    {rest : List UInt8} (j : Nat) (hi : (path C).length + p.length < size) (hsize : size ≤ key.length)
    (hshort : size < 2 ^ 32) (hsound : AllNodes Sound (plug C (.node a rc p es))) (hroot : p = [] ↔ C = [])
    (hkey : key = path C ++ (p ++ y :: rest)) (hC : Follows C (p ++ y :: rest)) (hy : y ∉ labels es) :
    Spec (Holds (laid (cells (plug C (.node a rc p es))) + F))
      (insertEdge A ⟨(plug C (.node a rc p es)).tag, w⟩ key size (located C a ((path C).length + p.length) j))
      (Inserted key size w (plug C (.node a rc p es)) F) (fun _ => False) := by
  have hnode : Sound (.node a rc p es) := (AllNodes.focus hsound).here
  have hp : p.length < 2 ^ 32 := hnode.short
  have hfew : es.length < 2 ^ 10 := hnode.few
  have hat : keyAt key ((path C).length + p.length) = pure y := by
    rw [hkey, ← List.append_assoc, ← List.length_append, keyAt]
    simp
  obtain ⟨hcut, hlen⟩ := cut_key hi.le hsize hshort
  have hgrown (a' x : Addr) := @Grows.edge key size C a rc p es y rest a' x 0 hkey hC hi hy
    (by by_cases h : p = [] <;> simp [h, hroot.mp])
  generalize leafBytes key size ((path C).length + p.length) = leaf at hcut hlen hgrown
  have htake : (key.take ((path C).length + p.length)).length = (path C).length + p.length := by
    rw [List.length_take]
    omega
  rw [laid_focus, insertEdge]
  dsimp only [located]
  rw [hat]
  conv in (fromBuffer key _) => rw [hcut]
  refine spec_makeLeaf htake.symm (by omega) (by omega) (fun x => ?_)
  rw [pure_bind, Multiset.cons_swap]
  refine spec_addEdge (fits_of_sound hnode) (by rw [slots_length]; omega) (fun a' => ?_)
  have hleaf : slots es ++ [(y, x)] = slots (es ++ [(y, .node x 1 leaf [])]) := by
    rw [slots_append, slots_cons]
    rfl
  have hcells (D : List (Frame Addr)) : laid (cells (plug D (.node a' rc p (es ++ [(y, .node x 1 leaf [])])))) + F =
      (a', layout ⟨rc, p, slots es ++ [(y, x)]⟩) ::ₘ (x, layout ⟨1, leaf, []⟩) ::ₘ
        (laid (edgesCells es) + F + laid (ctxCells D a')) := by
    rw [laid_focus, hleaf, edgesCells_append, edgesCells, edgesCells, cells, edgesCells, laid_add, laid_add, laid_cons]
    simp only [slots, List.map_nil, laid, Multiset.map_zero, add_zero, Multiset.cons_add, Multiset.add_cons]
  refine spec_gives (gives_prefixLength (Multiset.mem_cons_self _ _)
    ⟨hp, by simp only [List.length_append, slots_length, List.length_singleton]; omega⟩) ?_
  refine spec_ite (fun h0 => ?_) (fun h0 => ?_)
  · obtain rfl := hroot.mp (List.length_eq_zero_iff.mp h0)
    rw [show ctxCells [] a = ctxCells [] a' from rfl, ← hcells]
    exact spec_pure (fun m hm => ⟨_, hgrown a' x, rfl, hm⟩)
  · cases C with
    | nil => exact absurd (List.length_eq_zero_iff.mpr (hroot.mpr rfl)) h0
    | cons f C =>
        rw [← Multiset.cons_add, ← Multiset.cons_add]
        refine spec_patch hsound ?_
        rw [Multiset.cons_add, Multiset.cons_add, ← hcells]
        exact spec_pure (fun m hm => ⟨_, hgrown a' x, by rw [plug_cons_tag], hm⟩)

/-- A node split where the key leaves its prefix. -/
theorem insertSplit_spec {f : Frame Addr} {C : List (Frame Addr)} {a : Addr} {rc : UInt32} {c : List UInt8} {x : UInt8}
    {q : List UInt8} {es : Edges Addr} {y : UInt8} {rest : List UInt8}
    (hi : (path (f :: C)).length + c.length < size) (hsize : size ≤ key.length) (hshort : size < 2 ^ 32)
    (hsound : AllNodes Sound (plug (f :: C) (.node a rc (c ++ x :: q) es))) (hxy : x ≠ y) (hc : c ≠ [])
    (hkey : key = path (f :: C) ++ (c ++ y :: rest)) (hC : Follows (f :: C) (c ++ y :: rest)) :
    Spec (Holds (laid (cells (plug (f :: C) (.node a rc (c ++ x :: q) es))) + F))
      (insertSplit A ⟨(plug (f :: C) (.node a rc (c ++ x :: q) es)).tag, w⟩ key size
        (located (f :: C) a ((path (f :: C)).length + c.length) c.length))
      (Inserted key size w (plug (f :: C) (.node a rc (c ++ x :: q) es)) F) (fun _ => False) := by
  have hnode : Sound (.node a rc (c ++ x :: q) es) := (AllNodes.focus hsound).here
  obtain ⟨hcut, hlen⟩ := cut_key hi.le hsize hshort
  have hcons : ∃ k, leafBytes key size ((path (f :: C)).length + c.length) = y :: k := by
    have hkey' : key = (path (f :: C) ++ c) ++ y :: rest := by rw [hkey, List.append_assoc]
    have h := Refine.leaf_cons hkey' (by rwa [List.length_append]) hshort
    rwa [List.length_append] at h
  have hgrown (a' x₁ x₂ : Addr) := @Grows.fork key size f C a rc c x q es y rest y a' x₁ x₂ 0 hkey hxy hC hi hc
    (fun z hz => by
      obtain ⟨k, hk⟩ := hcons
      rw [hk] at hz
      simpa using hz)
  generalize leafBytes key size ((path (f :: C)).length + c.length) = leaf at hcut hlen hcons hgrown
  obtain ⟨k, rfl⟩ := hcons
  have htake : (key.take ((path (f :: C)).length + c.length)).length = (path (f :: C)).length + c.length := by
    rw [List.length_take]
    omega
  rw [laid_focus, insertSplit]
  dsimp only [located]
  conv in (ByteNode.forkNode A a key _ _ _) => rw [hcut]
  refine spec_forkNode (fits_of_sound hnode) (by omega) htake.symm rfl (by omega) (fun a' x₁ x₂ => ?_)
  have hcells : laid (cells (plug (f :: C) (.node a' 0 c
      [(y, .node x₁ 1 (y :: k) []), (x, .node x₂ rc (x :: q) es)]))) + F =
      (a', layout ⟨0, c, [(y, x₁), (x, x₂)]⟩) ::ₘ (x₂, layout ⟨rc, x :: q, slots es⟩) ::ₘ
        (x₁, layout ⟨1, y :: k, []⟩) ::ₘ (laid (edgesCells es) + F) + laid (ctxCells (f :: C) a') := by
    rw [laid_focus, edgesCells, edgesCells, edgesCells, cells, cells, edgesCells, laid_add, laid_add, laid_cons,
      laid_cons]
    simp only [slots, List.map_nil, List.map_cons, Trie.tag_node, laid, Multiset.map_zero, add_zero, Multiset.cons_add,
      Multiset.add_cons, zero_add]
  rw [← Multiset.cons_add, ← Multiset.cons_add, ← Multiset.cons_add]
  refine spec_patch hsound ?_
  rw [← hcells]
  exact spec_pure (fun m hm => ⟨_, hgrown a' x₁ x₂, by rw [plug_cons_tag], hm⟩)

/-- A node split where the key ends inside its prefix. -/
theorem insertPrefix_spec {f : Frame Addr} {C : List (Frame Addr)} {a : Addr} {rc : UInt32} {c : List UInt8} {x : UInt8}
    {q : List UInt8} {es : Edges Addr} {y : UInt8} {rest : List UInt8} (i : Nat)
    (hi : (path (f :: C)).length + c.length = size)
    (hsound : AllNodes Sound (plug (f :: C) (.node a rc (c ++ x :: q) es))) (hc : c ≠ [])
    (hkey : key = path (f :: C) ++ (c ++ y :: rest)) (hC : Follows (f :: C) (c ++ y :: rest)) :
    Spec (Holds (laid (cells (plug (f :: C) (.node a rc (c ++ x :: q) es))) + F))
      (insertPrefix A ⟨(plug (f :: C) (.node a rc (c ++ x :: q) es)).tag, w⟩ (located (f :: C) a i c.length))
      (Inserted key size w (plug (f :: C) (.node a rc (c ++ x :: q) es)) F) (fun _ => False) := by
  have hnode : Sound (.node a rc (c ++ x :: q) es) := (AllNodes.focus hsound).here
  rw [laid_focus, insertPrefix]
  refine spec_cutNode (fits_of_sound hnode) rfl (fun a' x₂ => ?_)
  have hcells : laid (cells (plug (f :: C) (.node a' 1 c [(x, .node x₂ rc (x :: q) es)]))) + F =
      (a', layout ⟨1, c, [(x, x₂)]⟩) ::ₘ (x₂, layout ⟨rc, x :: q, slots es⟩) ::ₘ (laid (edgesCells es) + F) +
        laid (ctxCells (f :: C) a') := by
    rw [laid_focus, edgesCells, edgesCells, cells, laid_add, laid_cons]
    simp only [slots, List.map_nil, List.map_cons, Trie.tag_node, laid, Multiset.map_zero, add_zero, Multiset.cons_add]
  rw [← Multiset.cons_add, ← Multiset.cons_add]
  refine spec_patch hsound ?_
  rw [← hcells]
  exact spec_pure (fun m hm =>
    ⟨_, .inside f C a rc c x q es y rest a' x₂ 0 hkey hC hi hc, by rw [plug_cons_tag], hm⟩)

theorem toNat_incr (rc : UInt32) : u32 (rc.toNat + 1) = (rc + 1).toNat := by
  rw [u32, UInt32.toNat_add]
  rfl

theorem toNat_eq_one (rc : UInt32) : rc.toNat = 1 ↔ rc = 1 := by
  rw [← UInt32.toNat_inj]
  rfl

/-- One more copy of a key that the tree spells. -/
theorem insertCopy_spec {f : Frame Addr} {C : List (Frame Addr)} {a : Addr} {rc : UInt32} {p : List UInt8}
    {es : Edges Addr} {rest : List UInt8} (hi : (path (f :: C)).length + p.length = size)
    (hsound : AllNodes Sound (plug (f :: C) (.node a rc p es))) (hp : p ≠ [])
    (hkey : key = path (f :: C) ++ (p ++ rest)) (hC : Follows (f :: C) (p ++ rest)) :
    Spec (Holds (laid (cells (plug (f :: C) (.node a rc p es))) + F))
      (insertCopy ⟨(plug (f :: C) (.node a rc p es)).tag, w⟩ size (located (f :: C) a size p.length))
      (Inserted key size w (plug (f :: C) (.node a rc p es)) F) (fun _ => False) := by
  have hfits := fits_of_sound (AllNodes.focus hsound).here
  rw [laid_focus, insertCopy]
  apply spec_assert_bind rfl
  refine spec_gives (gives_prefixLength (Multiset.mem_cons_self _ _) hfits) ?_
  apply spec_assert_bind rfl
  refine spec_gives (gives_refcount (Multiset.mem_cons_self _ _)) ?_
  dsimp only
  rw [toNat_incr]
  apply spec_setRefcount
  change Spec (Holds ((a, layout ⟨rc + 1, p, slots es⟩) ::ₘ _)) _ _ _
  refine spec_gives (gives_refcount (Multiset.mem_cons_self _ _)) ?_
  rw [← laid_focus]
  refine spec_pure (fun m hm => ⟨_, ?_, by rw [plug_cons_tag], hm⟩)
  simp only [toNat_eq_one]
  exact .copy f C a rc p es rest 0 hkey hC hi hp

theorem insertAt_inside {f : Frame Addr} {C : List (Frame Addr)} {a : Addr} {rc : UInt32} {c : List UInt8} {x : UInt8}
    {q : List UInt8} {es : Edges Addr} {y : UInt8} {rest : List UInt8} (hsize : size ≤ key.length)
    (hshort : size < 2 ^ 32) (hsound : AllNodes Sound (plug (f :: C) (.node a rc (c ++ x :: q) es)))
    (hstays : (path (f :: C)).length + c.length ≤ size) (hkey : key = path (f :: C) ++ (c ++ y :: rest)) (hxy : x ≠ y)
    (hC : Follows (f :: C) (c ++ y :: rest)) :
    Spec (Holds (laid (cells (plug (f :: C) (.node a rc (c ++ x :: q) es))) + F))
      (insertAt A ⟨(plug (f :: C) (.node a rc (c ++ x :: q) es)).tag, w⟩ key size
        (located (f :: C) a ((path (f :: C)).length + c.length) c.length))
      (Inserted key size w (plug (f :: C) (.node a rc (c ++ x :: q) es)) F) (fun _ => False) := by
  have hc : c ≠ [] := fork_ne_nil (AllNodes.mono (fun _ h => h.first) hsound) hxy hC
  have hfits := fits_of_sound (AllNodes.focus hsound).here
  have hb : (a, layout ⟨rc, c ++ x :: q, slots es⟩) ∈
      laid (cells (plug (f :: C) (.node a rc (c ++ x :: q) es))) + F := by
    rw [laid_focus]
    exact Multiset.mem_cons_self _ _
  rw [ByteTree.insertAt]
  refine spec_gives (gives_prefixLength hb hfits) ?_
  refine spec_ite (fun hne => ?_) (fun heq => ?_)
  · refine spec_ite (fun h => ?_) (fun _ => ?_)
    · simp [located, hc] at h
    · have hi : (path (f :: C)).length + c.length < size := by
        dsimp only [located] at hne
        omega
      exact insertSplit_spec hi hsize hshort hsound hxy hc hkey hC
  · refine spec_ite (fun _ => ?_) (fun h => ?_)
    · exact insertPrefix_spec _ (not_not.mp heq) hsound hc hkey hC
    · simp [located] at h

theorem insertAt_full {C : List (Frame Addr)} {a : Addr} {rc : UInt32} {p : List UInt8} {es : Edges Addr}
    {rest : List UInt8} (hsize : size ≤ key.length) (hshort : size < 2 ^ 32)
    (hroot : (plug C (.node a rc p es)).bytes = []) (hsound : AllNodes Sound (plug C (.node a rc p es)))
    (hstays : (path C).length + p.length ≤ size) (hkey : key = path C ++ (p ++ rest)) (hC : Follows C (p ++ rest))
    (hlt : (path C).length < size) (hp : C = [] ∨ p ≠ [])
    (hend : size ≤ (path C).length + p.length ∨ ∀ y ∈ rest.head?, y ∉ labels es) :
    Spec (Holds (laid (cells (plug C (.node a rc p es))) + F))
      (insertAt A ⟨(plug C (.node a rc p es)).tag, w⟩ key size (located C a ((path C).length + p.length) p.length))
      (Inserted key size w (plug C (.node a rc p es)) F) (fun _ => False) := by
  have hp' : p = [] ↔ C = [] := by
    constructor
    · exact fun h => hp.resolve_right (fun h' => h' h)
    · rintro rfl
      exact hroot
  have hfits := fits_of_sound (AllNodes.focus hsound).here
  have hb : (a, layout ⟨rc, p, slots es⟩) ∈ laid (cells (plug C (.node a rc p es))) + F := by
    rw [laid_focus]
    exact Multiset.mem_cons_self _ _
  rw [ByteTree.insertAt]
  refine spec_gives (gives_prefixLength hb hfits) ?_
  refine spec_ite (fun hne => ?_) (fun heq => ?_)
  · refine spec_ite (fun _ => ?_) (fun h => absurd (Or.inr rfl) h)
    have hi : (path C).length + p.length < size := by
      dsimp only [located] at hne
      omega
    cases rest with
    | nil =>
        rw [hkey] at hsize
        simp only [List.length_append, List.length_nil] at hsize
        omega
    | cons y rest =>
        exact insertEdge_spec _ hi hsize hshort hsound hp' hkey hC (hend.resolve_left (by omega) y rfl)
  · have hi : (path C).length + p.length = size := not_not.mp heq
    refine spec_ite (fun h => absurd rfl h) (fun _ => ?_)
    cases C with
    | nil =>
        obtain rfl := hp'.mpr rfl
        simp only [path, List.length_nil] at hi hlt
        omega
    | cons f C =>
        rw [hi]
        exact insertCopy_spec hi hsound (fun h => List.cons_ne_nil f C (hp'.mp h)) hkey hC

/-- On the bytes of a tree an insertion ends without a fault, with the bytes of a
tree that has grown as the blocks grow. -/
theorem insert_spec (hpos : 0 < size) (hsize : size ≤ key.length) (hshort : size < 2 ^ 32) {T : Trie Addr}
    (hroot : T.bytes = []) (hsound : AllNodes Sound T) (hsolid : AllNodes Solid T)
    (hlow : ∀ x ∈ addresses T, x < 2 ^ 64) (hcalm : Calm key size T) :
    Spec (Holds (laid (cells T) + F)) (insert A ⟨T.tag, w⟩ key size) (Inserted key size w T F) (fun _ => False) := by
  intro m hm
  have hn := hm.nodup
  rw [Multiset.map_add, laid_fst, Multiset.nodup_add] at hn
  obtain ⟨C, t, i, j, rfl, hstop, hmatch⟩ := matchKey_gives (F := F) hpos hsize hsound hlow hcalm.ends w hn.1
  have hin := hcalm.stays C t i j rfl hstop
  refine (spec_gives hmatch ?_ : Spec _ _ _ _) m hm
  cases hstop with
  | inside C a rc c x q es y rest hkey hxy hC hlt =>
      cases C with
      | nil => simp [plug] at hroot
      | cons f C => exact insertAt_inside hsize hshort hsound hin hkey hxy hC
  | full C a rc p es rest hkey hC hlt hp hend =>
      exact insertAt_full hsize hshort hroot hsound hin hkey hC hlt hp hend
  | empty f C a rc rest hkey hC hlt =>
      have hf : Solid (f.fill (.node a rc [] [])) := (AllNodes.focus (C := C) hsolid).here
      exact absurd rfl (hf (f.label, .node a rc [] []) (by simp [Frame.fill]))

end Cases

end StudyNotes.Radix.ByteInsert
