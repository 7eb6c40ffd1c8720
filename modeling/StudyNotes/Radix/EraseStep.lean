import StudyNotes.Radix.EraseSpec
import StudyNotes.Radix.InsertStep

namespace StudyNotes.Radix.EraseStep

open Heap.Program Heap.Triple Node NodeSpec Program KeyTree KeyTreeCases KeyTreeShape Context MatchSpec
open InsertSpec InsertStep EraseSpec

/-- No node can be joined with one of its children beyond the 32-bit length. -/
def Roomy (t : Trie Addr) : Prop := ∀ e ∈ t.edges, t.bytes.length + e.2.bytes.length < 2 ^ 32

/-- The key is spelled by the prefix p at the position. -/
structure Hit (key : List UInt8) (size : Nat) (C : List (Frame Addr)) (p : List UInt8) : Prop where
  follows : ∃ rest, key = path C ++ (p ++ rest) ∧ Follows C (p ++ rest)
  size_eq : (path C).length + p.length = size
  ne_nil : p ≠ []

/-- Everything an erasure that returns can have done to the placed tree. -/
inductive Shrinks (key : List UInt8) (size : Nat) : Trie Addr → Bool → Trie Addr → Prop
  | missing (C : List (Frame Addr)) (t : Trie Addr) (i j : Nat) (hstop : Stop key size C t i j)
      (h : i ≠ size ∨ j ≠ t.bytes.length ∨ t.refcount = 0) : Shrinks key size (plug C t) false (plug C t)
  | copy (f : Frame Addr) (C : List (Frame Addr)) (a : Addr) (rc : UInt32) (p : List UInt8) (es : Edges Addr)
      (hit : Hit key size (f :: C) p) (hrc : rc ≠ 0) (hmany : rc - 1 ≠ 0) :
      Shrinks key size (plug (f :: C) (.node a rc p es)) true (plug (f :: C) (.node a (rc - 1) p es))
  | branch (f : Frame Addr) (C : List (Frame Addr)) (a : Addr) (p : List UInt8) (es : Edges Addr)
      (hit : Hit key size (f :: C) p) (hes : 2 ≤ es.length) :
      Shrinks key size (plug (f :: C) (.node a 1 p es)) true (plug (f :: C) (.node a 0 p es))
  | merge (f : Frame Addr) (C : List (Frame Addr)) (a c a' : Addr) (p : List UInt8) (b : UInt8) (rc : UInt32)
      (q : List UInt8) (es : Edges Addr) (hit : Hit key size (f :: C) p) (hfit : p.length + q.length < 2 ^ 32) :
      Shrinks key size (plug (f :: C) (.node a 1 p [(b, .node c rc q es)])) true
        (plug (f :: C) (.node a' rc (p ++ q) es))
  | sibling (f g : Frame Addr) (C : List (Frame Addr)) (a o n : Addr) (p : List UInt8) (b : UInt8)
      (rc : UInt32) (q : List UInt8) (es : Edges Addr) (hit : Hit key size (f :: g :: C) p)
      (hf : f.refcount = 0) (he : f.left ++ f.right = [(b, .node o rc q es)])
      (hfit : f.bytes.length + q.length < 2 ^ 32) :
      Shrinks key size (plug (f :: g :: C) (.node a 1 p [])) true (plug (g :: C) (.node n rc (f.bytes ++ q) es))
  | edge (f : Frame Addr) (C : List (Frame Addr)) (a n : Addr) (p : List UInt8)
      (hit : Hit key size (f :: C) p)
      (hn : ¬(f.refcount = 0 ∧ C.isEmpty = false ∧ (f.left ++ f.right).length = 1)) :
      Shrinks key size (plug (f :: C) (.node a 1 p [])) true (plug C (.node n f.refcount f.bytes
        (swapRemove f.left.length (f.left ++ (f.label, .node a 0 p []) :: f.right))))

/-- Only the root has an empty prefix and children. -/
theorem frame_nil_iff {f : Frame Addr} {C : List (Frame Addr)} {t : Trie Addr}
    (hroot : (plug (f :: C) t).bytes = []) (hsound : AllNodes Sound (plug (f :: C) t)) :
    f.bytes = [] ↔ C = [] := by
  cases C with
  | nil => simpa [plug, Frame.fill] using hroot
  | cons g C =>
      simp only [List.cons_ne_nil, iff_false]
      intro hf
      rcases first_focus (AllNodes.mono (fun _ h => h.first) hsound : AllNodes First (plug (g :: C) (f.fill t)))
        with h | h
      · simp [Frame.fill] at h
      · simp [Frame.fill, hf] at h

theorem root_mem_ctx (f : Frame Addr) (C : List (Frame Addr)) (t : Trie Addr) :
    ∃ b, ((plug (f :: C) t).tag, b) ∈ ctxCells (f :: C) t.tag := by
  induction C generalizing f t with
  | nil => exact ⟨_, Multiset.mem_cons_self _ _⟩
  | cons g C ih =>
      obtain ⟨b, hb⟩ := ih g (f.fill t)
      refine ⟨b, ?_⟩
      rw [ctxCells]
      exact Multiset.mem_cons_of_mem (Multiset.mem_add.mpr (Or.inr hb))

/-- A node below the root is not placed at the address of the root. -/
theorem root_tag_ne {f : Frame Addr} {C : List (Frame Addr)} {t : Trie Addr} {F : Multiset (Addr × Block)}
    (hn : ((cells (plug (f :: C) t) + F).map Prod.fst).Nodup) : (plug (f :: C) t).tag ≠ t.tag := by
  obtain ⟨b, hb⟩ := root_mem_ctx f C t
  intro heq
  rw [cells_plug, add_assoc, Multiset.map_add, Multiset.nodup_add] at hn
  have hmem : (plug (f :: C) t).tag ∈ (ctxCells (f :: C) t.tag + F).map Prod.fst :=
    Multiset.mem_map_of_mem Prod.fst (a := (_, b)) (Multiset.mem_add.mpr (Or.inl hb))
  rw [heq] at hmem
  exact Multiset.disjoint_left.mp hn.2.2 (Multiset.mem_map_of_mem Prod.fst (mem_cells t)) hmem

section Cases

variable {A : Allocator Block} {key : List UInt8} {size : Nat} {w : UInt64} {F : Multiset (Addr × Block)}
variable {E : Fault → Prop} {f : Frame Addr} {C : List (Frame Addr)} {a : Addr} {p : List UInt8} {es : Edges Addr}

/-- Once the last copy is gone: the four structural cases. -/
theorem eraseNode_spec {i j : Nat} (hit : Hit key size (f :: C) p)
    (hroot : (plug (f :: C) (.node a 1 p es)).bytes = [])
    (hsound : AllNodes Sound (plug (f :: C) (.node a 1 p es)))
    (hroomy : AllNodes Roomy (plug (f :: C) (.node a 1 p es)) ∨ E .outOfBounds) :
    Spec (Holds (cells (plug (f :: C) (.node a 0 p es)) + F))
      (eraseNode A ⟨(plug (f :: C) (.node a 1 p es)).tag, w⟩ (located (f :: C) a i j))
      (fun r m => ∃ T', Shrinks key size (plug (f :: C) (.node a 1 p es)) true T' ∧ r = ⟨T'.tag, w⟩ ∧
        Holds (cells T' + F) m) E := by
  have hb : (a, ⟨0, p, slots es⟩) ∈ cells (plug (f :: C) (.node a 0 p es)) + F :=
    Multiset.mem_add.mpr (Or.inl (mem_cells_plug (f :: C) (.node a 0 p es)))
  have hframe : Sound (f.fill (.node a 1 p es)) := (AllNodes.focus (C := C) hsound).here
  have hfew : f.left.length + f.right.length + 1 < 2 ^ 10 := by
    have h := hframe.few
    simp only [Frame.fill, Trie.edges_node, List.length_append, List.length_cons] at h
    omega
  rw [eraseNode]
  apply spec_edgecount hb
  dsimp only
  rw [slots_length]
  refine spec_ite (fun hmany => ?_) (fun hfew1 => spec_ite (fun hone => ?_) (fun hzero => ?_))
  · exact spec_pure (fun m hm => ⟨_, .branch f C a p es hit hmany, by rw [plug_cons_tag], hm⟩)
  · obtain ⟨⟨b, c, rc, q, es'⟩, rfl⟩ := List.length_eq_one_iff.mp hone
    have hchild : Sound (.node c rc q es') :=
      ((AllNodes.focus (C := f :: C) hsound).child (b, .node c rc q es') (by simp)).here
    have hE : p.length + q.length < 2 ^ 32 ∨ E .outOfBounds :=
      hroomy.imp (fun h => (AllNodes.focus (P := Roomy) (C := f :: C)
        (t := .node a 1 p [(b, .node c rc q es')]) h).here (b, .node c rc q es') (by simp)) id
    refine spec_bind (eraseMergeChild_spec hchild.few hE) (fun _ => ?_)
    rintro m ⟨hfit, a', hm⟩
    exact ⟨_, .merge f C a c a' p b rc q es' hit hfit, by rw [plug_cons_tag], hm⟩
  · obtain rfl : es = [] := List.length_eq_zero_iff.mp (by omega)
    apply spec_of_nodup
    intro hnodup
    have hpar : (f.tag, ⟨f.refcount, f.bytes, slots f.left ++ (f.label, a) :: slots f.right⟩) ∈
        cells (plug (f :: C) (.node a 0 p [])) + F := by
      rw [cells_parent]
      exact Multiset.mem_cons_self _ _
    apply spec_edgecount hpar
    apply spec_refcount hpar
    have hcount : (slots f.left ++ (f.label, a) :: slots f.right).length =
        (f.left ++ f.right).length + 1 := by
      simp only [List.length_append, List.length_cons, slots_length]
      omega
    dsimp only
    rw [hcount]
    refine spec_ite (fun hm => ?_) (fun hm => ?_)
    · obtain ⟨htwo, hf, hne⟩ := hm
      obtain ⟨⟨b, o, rc, q, es'⟩, he⟩ := List.length_eq_one_iff.mp (Nat.succ.inj htwo)
      have hmem : (b, .node o rc q es') ∈ f.left ++ (f.label, .node a 1 p []) :: f.right :=
        mem_of_append_eq he
      have hchild : Sound (.node o rc q es') :=
        ((AllNodes.focus (C := C) (t := f.fill (.node a 1 p [])) hsound).child _ hmem).here
      have hE : f.bytes.length + q.length < 2 ^ 32 ∨ E .outOfBounds :=
        hroomy.imp (fun h =>
          (AllNodes.focus (P := Roomy) (C := C) (t := f.fill (.node a 1 p [])) h).here _ hmem) id
      cases C with
      | nil => exact absurd rfl hne
      | cons g C =>
          refine spec_bind (eraseMergeParent_spec he hchild.few hE) (fun _ => ?_)
          rintro m ⟨hfit, n, hm⟩
          exact ⟨_, .sibling f g C a o n p b rc q es' hit hf he hfit,
            congrArg (RadixTree.mk · w) (plug_cons_tag g C _ _), hm⟩
    · have hn : ¬(f.refcount = 0 ∧ C.isEmpty = false ∧ (f.left ++ f.right).length = 1) := by
        rintro ⟨hf, hC, hlen⟩
        cases C with
        | nil => simp at hC
        | cons g C =>
            refine hm ⟨by omega, hf, fun heq => ?_⟩
            exact root_tag_ne (t := f.fill (.node a 0 p [])) hnodup ((plug_cons_tag g C _ _).trans heq.symm)
      apply spec_assert_bind (by rfl)
      rw [plug_cons_tag f C (.node a 1 p []) (.node a 0 p [])]
      refine Spec.post (eraseEdge_spec w (frame_nil_iff hroot hsound) hframe.short (by omega)) ?_
      rintro r m ⟨n, T', rfl, rfl, hm⟩
      exact ⟨_, .edge f C a n p hit hn, rfl, hm⟩

/-- The part of erase after the call to match. -/
def eraseFrom (A : Allocator Block) (t : RadixTree) (size : Nat) (r : MatchResult) : NodeM (Bool × RadixTree) := do
  let length ← prefixLength r.currentNode
  let refs ← refcount r.currentNode
  if r.nkey ≠ size ∨ r.nPrefix ≠ length ∨ refs = 0 then return (false, t)
  else
    assert (r.parentNode ≠ r.currentNode)
    setRefcount r.currentNode (refs - 1)
    let refs ← refcount r.currentNode
    if refs > 0 then return (true, ⟨t.root, t.size - 1⟩)
    else
      let t ← eraseNode A ⟨t.root, t.size - 1⟩ r
      return (true, t)

theorem erase_eq (t : RadixTree) : erase A t key size = matchKey t key size >>= eraseFrom A t size := rfl

/-- The outcome of erase on a given tree. -/
def Erases (key : List UInt8) (size : Nat) (w : UInt64) (T : Trie Addr) (F : Multiset (Addr × Block))
    (r : Bool × RadixTree) (m : Mem Block) : Prop :=
  ∃ T', Shrinks key size T r.1 T' ∧ r.2 = ⟨T'.tag, if r.1 then w - 1 else w⟩ ∧ Holds (cells T' + F) m

theorem eraseFrom_hit {rc : UInt32} (hit : Hit key size (f :: C) p) (hrc : rc ≠ 0)
    (hroot : (plug (f :: C) (.node a rc p es)).bytes = [])
    (hsound : AllNodes Sound (plug (f :: C) (.node a rc p es)))
    (hroomy : AllNodes Roomy (plug (f :: C) (.node a rc p es)) ∨ E .outOfBounds) :
    Spec (Holds (cells (plug (f :: C) (.node a rc p es)) + F))
      (eraseFrom A ⟨(plug (f :: C) (.node a rc p es)).tag, w⟩ size
        (located (f :: C) a ((path (f :: C)).length + p.length) p.length))
      (Erases key size w (plug (f :: C) (.node a rc p es)) F) E := by
  apply spec_of_nodup
  intro hnodup
  have hne : f.tag ≠ a := by
    have h := child_tag_ne (C := C) (a := f.tag) hnodup (e := (f.label, .node a rc p es)) (by simp)
    exact Ne.symm h
  rw [cells_focus, eraseFrom]
  apply spec_prefixLength (Multiset.mem_cons_self _ _)
  apply spec_refcount (Multiset.mem_cons_self _ _)
  refine spec_ite (fun h => ?_) (fun _ => ?_)
  · exact absurd h (by simp [located, hit.size_eq, hrc])
  apply spec_assert_bind hne
  apply spec_setRefcount
  apply spec_refcount (Multiset.mem_cons_self _ _)
  rw [← cells_focus]
  refine spec_ite (fun hpos => ?_) (fun hpos => ?_)
  · have hmany : rc - 1 ≠ 0 := by
      intro h0
      rw [show (Block.mk (rc - 1) p (slots es)).refcount = rc - 1 from rfl, h0] at hpos
      exact absurd hpos (by decide)
    exact spec_pure (fun m hm => ⟨_, .copy f C a rc p es hit hrc hmany, by rw [plug_cons_tag]; rfl, hm⟩)
  · have hzero : rc - 1 = 0 := by
      by_contra h0
      exact hpos (UInt32.pos_iff_ne_zero.mpr h0)
    obtain rfl := sub_one_eq_zero hzero
    dsimp only
    rw [hzero]
    refine spec_bind (eraseNode_spec hit hroot hsound hroomy) (fun r => ?_)
    rintro m ⟨T', hT', rfl, hm⟩
    exact ⟨T', hT', rfl, hm⟩

/-- An erasure that returns has changed the tree in one of the six ways. It can
only run out of bounds, where two joined prefixes overflow their length. -/
theorem erase_spec (hpos : 0 < size) (hsize : size ≤ key.length) {T : Trie Addr} (hroot : T.bytes = [])
    (hsound : AllNodes Sound T) (hends : ¬EndsInside key size T ∨ E .outOfBounds)
    (hroomy : AllNodes Roomy T ∨ E .outOfBounds) :
    Spec (Holds (cells T + F)) (erase A ⟨T.tag, w⟩ key size) (Erases key size w T F) E := by
  have hfirst : AllNodes First T := AllNodes.mono (fun _ h => h.first) hsound
  rw [erase_eq]
  apply spec_bind ((matchKey_spec hpos hsize T hfirst w).mono (fun _ hm => hm) (fun _ _ h => h) ?_)
  · rintro r m ⟨hm, C, t, i, j, rfl, rfl, hstop⟩
    have hmiss (h : i ≠ size ∨ j ≠ t.bytes.length ∨ t.refcount = 0) :
        Spec (Holds (cells (plug C t) + F)) (eraseFrom A ⟨(plug C t).tag, w⟩ size (located C t.tag i j))
          (Erases key size w (plug C t) F) E := by
      obtain ⟨a, rc, p, es⟩ := t
      have hb : (a, ⟨rc, p, slots es⟩) ∈ cells (plug C (.node a rc p es)) + F :=
        Multiset.mem_add.mpr (Or.inl (mem_cells_plug C (.node a rc p es)))
      rw [eraseFrom]
      apply spec_prefixLength hb
      apply spec_refcount hb
      refine spec_ite (fun _ => ?_) (fun hn => absurd h hn)
      exact spec_pure (fun m hm => ⟨_, .missing C _ i j hstop h, rfl, hm⟩)
    by_cases h : i ≠ size ∨ j ≠ t.bytes.length ∨ t.refcount = 0
    · exact hmiss h m hm
    · simp only [not_or, not_not] at h
      obtain ⟨hi, hj, hrc⟩ := h
      cases hstop with
      | inside C a rc c x q es y rest hkey hxy hC hlt => simp at hj
      | empty f C a rc rest hkey hC hlt => omega
      | full C a rc p es rest hkey hC hlt hp hend =>
          have hp0 : p ≠ [] := by
            rintro rfl
            simp only [List.length_nil] at hi
            omega
          cases C with
          | nil => exact absurd hroot hp0
          | cons f C => exact eraseFrom_hit ⟨⟨rest, hkey, hC⟩, hi, hp0⟩ hrc hroot hsound hroomy m hm
  · rintro e ⟨rfl, hend⟩
    exact hends.resolve_left (fun h => h hend)

end Cases

end StudyNotes.Radix.EraseStep
