import StudyNotes.Heap.Mirror
import StudyNotes.Radix.ByteTree
import StudyNotes.Radix.HeapShape
import StudyNotes.Radix.InPlaceEdits

namespace StudyNotes.Radix.ByteMatch

open Heap.Program Heap.Triple Heap.Bytes Heap.Mirror Codes.LittleEndian
open Node Program KeyTree KeyTreeShape Context MatchSpec InsertStep Layout InPlaceEdits

/-- The bytes of the nodes can be read back: the lengths stand in the headers in
full, and the pointers fit into eight bytes. -/
structure Readable (B : Multiset (Addr × Block)) : Prop where
  fits : ∀ c ∈ B, Fits c.2
  pointers : ∀ c ∈ B, ∀ e ∈ c.2.edges, e.2 < 2 ^ 64

/-- Where the nodes of a tree are placed. -/
def addresses (T : Trie Addr) : Multiset Addr := (cells T).map Prod.fst

theorem fits_of_sound {t : Trie Addr} (h : Sound t) : Fits (blockOf t) := by
  obtain ⟨a, rc, p, es⟩ := t
  have hfew : es.length < 2 ^ 10 := h.few
  refine ⟨h.short, ?_⟩
  dsimp only [blockOf]
  rw [slots_length]
  omega

/-- Every stored pointer leads to a node of the tree. -/
theorem slot_mem {T : Trie Addr} {c : Addr × Block} (hc : c ∈ cells T) {e : UInt8 × Addr} (he : e ∈ c.2.edges) :
    e.2 ∈ addresses T := by
  obtain ⟨a, b⟩ := c
  obtain ⟨C, t, rfl, rfl, rfl⟩ := HeapShape.mem_cells_sub hc
  rw [HeapShape.blockOf_edges, slots, List.mem_map] at he
  obtain ⟨e', he', rfl⟩ := he
  obtain ⟨f, -, -, hf⟩ := HeapShape.plug_child rfl he'
  rw [← hf]
  exact Multiset.mem_map_of_mem Prod.fst (mem_cells_plug (f :: C) e'.2)

theorem readable_cells {T : Trie Addr} (hsound : AllNodes Sound T) (hlow : ∀ x ∈ addresses T, x < 2 ^ 64) :
    Readable (cells T) where
  fits c hc := by
    obtain ⟨a, b⟩ := c
    obtain ⟨C, t, rfl, rfl, rfl⟩ := HeapShape.mem_cells_sub hc
    exact fits_of_sound (AllNodes.focus hsound).here
  pointers c hc e he := hlow _ (slot_mem hc he)

theorem mem_laid {B : Multiset (Addr × Block)} {n : Addr} {b : Block} (h : (n, b) ∈ B) : (n, layout b) ∈ laid B :=
  Multiset.mem_map_of_mem (fun c : Addr × Block => (c.1, layout c.2)) h

theorem laid_fst (B : Multiset (Addr × Block)) : (laid B).map Prod.fst = B.map Prod.fst := by
  rw [laid, Multiset.map_map]
  rfl

theorem laid_add (B B' : Multiset (Addr × Block)) : laid (B + B') = laid B + laid B' := Multiset.map_add _ _ _

section Readers

variable {S : Multiset (Addr × List UInt8)} {n : Addr} {b : Block}

theorem gives_refcount (hn : (n, layout b) ∈ S) : Gives (Holds S) (ByteNode.refcount n) b.refcount.toNat := by
  have hread : Yields (Holds S) (readAt n 0 4) (encode 4 b.refcount.toNat) :=
    yields_readAt hn (u := []) (w := encode 4 b.prefixBytes.length ++ encode 4 b.edges.length ++
      chunks b.prefixBytes b.edges) (by simp [layout, header]) rfl (by simp)
  refine gives_bind hread ?_
  rw [decode_encode_four b.refcount.toNat_lt]
  exact gives_pure _

theorem gives_prefixLength (hn : (n, layout b) ∈ S) (hb : Fits b) :
    Gives (Holds S) (ByteNode.prefixLength n) b.prefixBytes.length := by
  have hread : Yields (Holds S) (readAt n 4 4) (encode 4 b.prefixBytes.length) :=
    yields_readAt hn (u := encode 4 b.refcount.toNat) (w := encode 4 b.edges.length ++ chunks b.prefixBytes b.edges)
      (by simp [layout, header]) (by simp) (by simp)
  refine gives_bind hread ?_
  rw [decode_encode_four hb.prefix_lt]
  exact gives_pure _

theorem gives_edgecount (hn : (n, layout b) ∈ S) (hb : Fits b) :
    Gives (Holds S) (ByteNode.edgecount n) b.edges.length := by
  have hread : Yields (Holds S) (readAt n 8 4) (encode 4 b.edges.length) :=
    yields_readAt hn (u := encode 4 b.refcount.toNat ++ encode 4 b.prefixBytes.length)
      (w := chunks b.prefixBytes b.edges) (by simp [layout, header]) (by simp) (by simp)
  refine gives_bind hread ?_
  rw [decode_encode_four hb.edges_lt]
  exact gives_pure _

theorem gives_firstBytes (hn : (n, layout b) ∈ S) (hb : Fits b) :
    Gives (Holds S) (ByteNode.firstBytes n) (headerSize + b.prefixBytes.length) :=
  gives_bind (gives_prefixLength hn hb) (gives_pure _)

theorem gives_nodePtrs (hn : (n, layout b) ∈ S) (hb : Fits b) :
    Gives (Holds S) (ByteNode.nodePtrs n) (headerSize + b.prefixBytes.length + b.edges.length) :=
  gives_bind (gives_prefixLength hn hb) (gives_bind (gives_edgecount hn hb) (gives_pure _))

/-- Byte l of the prefix. -/
theorem gives_prefixByte {rc : UInt32} {l r : List UInt8} {c : UInt8} {es : List (UInt8 × Addr)}
    (hn : (n, layout ⟨rc, l ++ c :: r, es⟩) ∈ S) :
    Gives (Holds S) (ByteNode.byteAt n (ByteNode.prefixOffset l.length)) c := by
  have hread : Yields (Holds S) (readAt n (ByteNode.prefixOffset l.length) 1) [c] :=
    yields_body hn (u := l) (w := r ++ (es.map Prod.fst ++ Layout.pointers es)) (by simp [chunks]) rfl rfl
  exact gives_bind hread (gives_pure _)

theorem gives_firstByteAt {rc : UInt32} {p : List UInt8} {l r : List (UInt8 × Addr)} {e : UInt8 × Addr}
    (hn : (n, layout ⟨rc, p, l ++ e :: r⟩) ∈ S) (hb : Fits ⟨rc, p, l ++ e :: r⟩) :
    Gives (Holds S) (ByteNode.firstByteAt n l.length) e.1 := by
  have hread : Yields (Holds S) (readAt n (headerSize + p.length + l.length) 1) [e.1] := by
    refine yields_body hn (u := p ++ l.map Prod.fst) (w := r.map Prod.fst ++
      (Layout.pointers l ++ (encode ByteNode.pointerSize e.2 ++ Layout.pointers r))) ?_ ?_ rfl
    · rw [chunks_middle]
      simp
    · rw [List.length_append, List.length_map, Nat.add_assoc]
  exact gives_bind (gives_edgecount hn hb) (gives_bind (gives_assert (by simp))
    (gives_bind (gives_firstBytes hn hb) (gives_bind hread (gives_pure _))))

theorem gives_nodeAt {rc : UInt32} {p : List UInt8} {l r : List (UInt8 × Addr)} {e : UInt8 × Addr}
    (hn : (n, layout ⟨rc, p, l ++ e :: r⟩) ∈ S) (hb : Fits ⟨rc, p, l ++ e :: r⟩) (hlow : e.2 < 2 ^ 64) :
    Gives (Holds S) (ByteNode.nodeAt n l.length) e.2 := by
  have hread : Yields (Holds S) (readAt n (headerSize + p.length + (l ++ e :: r).length +
      l.length * ByteNode.pointerSize) ByteNode.pointerSize) (encode ByteNode.pointerSize e.2) := by
    refine yields_body hn (u := p ++ ((l ++ e :: r).map Prod.fst ++ Layout.pointers l)) (w := Layout.pointers r) ?_ ?_
      (encode_length _ _).symm
    · rw [chunks_middle]
      simp
    · simp only [List.length_append, List.length_map, pointers_length]
      omega
  refine gives_bind (gives_edgecount hn hb) (gives_bind (gives_assert (by simp))
    (gives_bind (gives_nodePtrs hn hb) (gives_bind hread ?_)))
  rw [decode_pointer hlow]
  exact gives_pure _

end Readers

section Walk

variable {B : Multiset (Addr × Block)} {F : Multiset (Addr × List UInt8)} {key : List UInt8} {size : Nat}

theorem mirrors_keyAt (key : List UInt8) (i : Nat) :
    Mirrors (Holds B) (Holds (laid B + F)) (keyAt key i) (ByteTree.keyAt key i) := by
  rw [keyAt, ByteTree.keyAt]
  cases key[i]? with
  | some c => exact mirrors_pure c
  | none => exact mirrors_fail _

/-- The bytes cs of the prefix are still to be compared, those before have been passed. -/
theorem mirrors_matchPrefix {n : Addr} {rc : UInt32} {es : List (UInt8 × Addr)} (cs passed : List UInt8)
    (hn : (n, layout ⟨rc, passed ++ cs, es⟩) ∈ laid B + F) (i : Nat) :
    Mirrors (Holds B) (Holds (laid B + F)) (matchPrefix key cs i passed.length)
      (ByteTree.matchPrefix n key cs.length i passed.length) := by
  induction cs generalizing passed i with
  | nil => exact mirrors_pure _
  | cons c cs ih =>
      rw [List.length_cons, matchPrefix, ByteTree.matchPrefix]
      refine mirrors_right (gives_prefixByte hn) (mirrors_bind (mirrors_keyAt key i) (fun k => ?_))
      refine mirrors_ite (mirrors_pure _) ?_
      have h := ih (passed ++ [c]) (by rwa [List.append_assoc]) (i + 1)
      rwa [List.length_append, List.length_singleton] at h

/-- Reading edge i of a node, on both sides. -/
theorem mirrors_edgeAt {α : Type} (hB : Readable B) (n : Addr) (i : Nat) {f : UInt8 × Addr → α} {y : ByteM α}
    (hy : ∀ rc p l e r, (n, layout ⟨rc, p, l ++ e :: r⟩) ∈ laid B + F → Fits ⟨rc, p, l ++ e :: r⟩ → i = l.length →
      e.2 < 2 ^ 64 → Gives (Holds (laid B + F)) y (f e)) :
    Mirrors (Holds B) (Holds (laid B + F)) (edgeAt n i >>= fun e => pure (f e)) y := by
  rw [edgeAt, bind_assoc]
  refine mirrors_load (fun b hb => mirrors_left (gives_load hb) ?_)
  have hfits := hB.fits _ hb
  have hlow := hB.pointers _ hb
  have hn : (n, layout b) ∈ laid B + F := Multiset.mem_add.mpr (Or.inl (mem_laid hb))
  obtain ⟨rc, p, es⟩ := b
  dsimp only at hlow ⊢
  cases he : es[i]? with
  | none => exact mirrors_fail _
  | some e =>
      obtain ⟨l, r, rfl, rfl⟩ : ∃ l r, es = l ++ e :: r ∧ i = l.length := by
        obtain ⟨hi, rfl⟩ := List.getElem?_eq_some_iff.mp he
        exact ⟨es.take i, es.drop (i + 1), by simp, by rw [List.length_take]; omega⟩
      have hgives := hy rc p l e r hn hfits rfl (hlow e (by simp))
      intro m v m' _ hv
      cases hv
      exact ⟨rfl, hgives⟩

theorem mirrors_firstByteAt (hB : Readable B) (n : Addr) (i : Nat) :
    Mirrors (Holds B) (Holds (laid B + F)) (firstByteAt n i) (ByteNode.firstByteAt n i) := by
  refine mirrors_edgeAt hB n i (f := Prod.fst) ?_
  rintro rc p l e r hn hb rfl -
  exact gives_firstByteAt hn hb

theorem mirrors_nodeAt (hB : Readable B) (n : Addr) (i : Nat) :
    Mirrors (Holds B) (Holds (laid B + F)) (nodeAt n i) (ByteNode.nodeAt n i) := by
  refine mirrors_edgeAt hB n i (f := Prod.snd) ?_
  rintro rc p l e r hn hb rfl hlow
  exact gives_nodeAt hn hb hlow

theorem mirrors_findEdge (hB : Readable B) (n : Addr) (i remaining k : Nat) :
    Mirrors (Holds B) (Holds (laid B + F)) (findEdge n key size i remaining k)
      (ByteTree.findEdge n key size i remaining k) := by
  induction remaining generalizing k with
  | zero => exact mirrors_pure _
  | succ remaining ih =>
      rw [findEdge, ByteTree.findEdge]
      refine mirrors_ite ?_ (ih (k + 1))
      refine mirrors_bind (mirrors_firstByteAt hB n k) (fun _ => mirrors_bind (mirrors_keyAt key i) (fun _ => ?_))
      exact mirrors_ite (mirrors_pure _) (ih (k + 1))

theorem mirrors_matchLoop (hB : Readable B) (fuel : Nat) (s : MatchResult) :
    Mirrors (Holds B) (Holds (laid B + F)) (matchLoop key size fuel s) (ByteTree.matchLoop key size fuel s) := by
  induction fuel generalizing s with
  | zero => exact mirrors_fail _
  | succ fuel ih =>
      rw [matchLoop, ByteTree.matchLoop]
      dsimp only
      rw [prefixLength, bind_assoc]
      refine mirrors_load (fun b hb => mirrors_left (gives_load hb) ?_)
      have hfits := hB.fits _ hb
      have hn : (s.currentNode, layout b) ∈ laid B + F := Multiset.mem_add.mpr (Or.inl (mem_laid hb))
      have hcount : Gives (Holds B) (edgecount s.currentNode) b.edges.length :=
        gives_bind (gives_load hb) (gives_pure _)
      refine mirrors_right (gives_prefixLength hn hfits) ?_
      rw [pure_bind]
      refine mirrors_step hcount (gives_edgecount hn hfits) (mirrors_ite ?_ (mirrors_pure _))
      refine mirrors_left (gives_bind (gives_load hb) (gives_pure _)) ?_
      refine mirrors_bind (mirrors_matchPrefix b.prefixBytes [] hn s.nkey) (fun ij => mirrors_ite (mirrors_pure _) ?_)
      refine mirrors_bind (mirrors_findEdge hB _ _ _ _) (fun found => ?_)
      cases found with
      | none => exact mirrors_pure _
      | some k => exact mirrors_bind (mirrors_nodeAt hB _ _) (fun next => mirrors_ite (mirrors_pure _) (ih _))

theorem mirrors_matchKey (hB : Readable B) (t : RadixTree) :
    Mirrors (Holds B) (Holds (laid B + F)) (matchKey t key size) (ByteTree.matchKey t key size) :=
  mirrors_bind (mirrors_assert _) (fun _ => mirrors_matchLoop hB _ _)

end Walk

/-- On the bytes of a tree match stops at one of its positions, as on its blocks. -/
theorem matchKey_gives {key : List UInt8} {size : Nat} (hpos : 0 < size) (hsize : size ≤ key.length) {T : Trie Addr}
    (hsound : AllNodes Sound T) (hlow : ∀ x ∈ addresses T, x < 2 ^ 64) (hends : ¬EndsInside key size T) (w : UInt64)
    {F : Multiset (Addr × List UInt8)} (hn : (addresses T).Nodup) :
    ∃ C t i j, plug C t = T ∧ Stop key size C t i j ∧
      Gives (Holds (laid (cells T) + F)) (ByteTree.matchKey ⟨T.tag, w⟩ key size) (located C t.tag i j) := by
  obtain ⟨m, hm⟩ := exists_holds (cells T) hn
  have hfirst : AllNodes First T := AllNodes.mono (fun _ h => h.first) hsound
  have hspec := matchKey_spec (F := 0) hpos hsize T hfirst w m (by rwa [add_zero])
  obtain ⟨r, ⟨-, C, t, i, j, hT, rfl, hstop⟩, hgives⟩ :=
    (mirrors_matchKey (readable_cells hsound hlow) _).gives hm (hspec.mono (fun _ _ h => h) (fun e he => hends he.2))
  exact ⟨C, t, i, j, hT, hstop, hgives⟩

end StudyNotes.Radix.ByteMatch
