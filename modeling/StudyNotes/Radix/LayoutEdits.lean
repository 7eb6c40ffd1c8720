import StudyNotes.Radix.KeyTreeCases
import StudyNotes.Radix.Layout
import StudyNotes.Radix.NodeSpec

namespace StudyNotes.Radix.LayoutEdits

open Heap.Program Heap.Triple Heap.Bytes Codes.LittleEndian KeyTree KeyTreeCases ByteNode Layout
open Node (Block u32 sizeSub headerSize)
open NodeSpec (u32_of_lt sizeSub_of_le)

theorem exists_cut (bytes : List UInt8) (k d : Nat) (h : bytes.length = k + d) :
    ∃ v w, bytes = v ++ w ∧ v.length = k ∧ w.length = d :=
  ⟨bytes.take k, bytes.drop k, (List.take_append_drop k bytes).symm, by rw [List.length_take]; omega,
    by rw [List.length_drop]; omega⟩

theorem exists_shift {bytes : List UInt8} {k d : Nat} (h : bytes.length = k + (d + 1)) :
    ∃ c v w, bytes = c :: (v ++ w) ∧ v.length = k ∧ w.length = d := by
  obtain ⟨c, rest, rfl⟩ := List.exists_cons_of_length_pos (l := bytes) (by omega)
  obtain ⟨v, w, rfl, hv, hw⟩ := exists_cut rest k d (by rw [List.length_cons] at h; omega)
  exact ⟨c, v, w, rfl, hv, hw⟩

/-- Entry l is overwritten by the last one, which then stands there twice. -/
theorem swap_last {γ : Type} (l : List γ) (e : γ) (r : List γ) :
    ∃ z init, l ++ e :: r = init ++ [z] ∧ l ++ z :: r = swapRemove l.length (l ++ e :: r) ++ [z] := by
  rcases swapRemove_cases l e r with ⟨rfl, hs⟩ | ⟨z, r', rfl, hs⟩
  · exact ⟨e, l, rfl, by rw [hs]⟩
  · exact ⟨z, l ++ e :: r', by simp, by rw [hs]; simp⟩

theorem swapRemove_length {γ : Type} (l : List γ) (e : γ) (r : List γ) :
    (swapRemove l.length (l ++ e :: r)).length + 1 = (l ++ e :: r).length := by
  rw [(swapRemove_perm l e r).length_eq, List.length_append, List.length_append, List.length_cons, Nat.add_assoc]

section Rules

variable {α : Type} {S : Multiset (Addr × List UInt8)} {Q : α → Mem (List UInt8) → Prop} {E : Fault → Prop}
variable {A : ByteAllocator} {n : Addr} {rc : UInt32} {p : List UInt8} {es : List (UInt8 × Addr)}

theorem spec_addEdge {f : Addr → ByteM α} {y : UInt8} {x : Addr} (hb : Fits ⟨rc, p, es⟩) (hroom : es.length + 1 < 2 ^ 32)
    (h : ∀ n', Spec (Holds ((n', layout ⟨rc, p, es ++ [(y, x)]⟩) ::ₘ S)) (f n') Q E) :
    Spec (Holds ((n, layout ⟨rc, p, es⟩) ::ₘ S)) (addEdge A n y x >>= f) Q E := by
  have hlength : p.length < 2 ^ 32 := hb.prefix_lt
  simp only [addEdge, bind_assoc]
  apply spec_prefixLength (Multiset.mem_cons_self _ _) hlength
  apply spec_edgecount (Multiset.mem_cons_self _ _) hb.edges_lt
  dsimp only
  rw [u32_of_lt hroom]
  apply spec_resize (by omega) (by omega)
  intro n' junk
  have hgrow : p.length + (es.length + 1) * 9 = (chunks p es).length + 9 := by
    rw [chunks_length]
    omega
  obtain ⟨new, hnew, hbody⟩ := refit_grow junk (chunks p es) hgrow
  rw [hbody]
  apply spec_nodePtrs (Multiset.mem_cons_self _ _) hlength hroom
  apply spec_edgecount (Multiset.mem_cons_self _ _) hroom
  rw [u32Sub_of_le hroom (by omega), Nat.add_sub_cancel]
  -- the pointers move one byte up, behind the place of the new first byte
  obtain ⟨c, v, w, hcut, hv, hw⟩ : ∃ c v w, pointers es ++ new = c :: (v ++ w) ∧ v.length = es.length * pointerSize ∧
      w.length = pointerSize :=
    exists_shift (by rw [List.length_append, pointers_length, hnew, pointerSize])
  refine spec_moveBody (u := p ++ es.map Prod.fst) (v := pointers es) (w := new) (by simp [chunks]) ?_ (by simp)
    (r := p ++ (es.map Prod.fst ++ [c])) (s := v) (t := w) ?_ ?_ (by rw [pointers_length, hv]) ?_
  · simp only [List.length_append, List.length_map]
    omega
  · rw [chunks, List.append_assoc, List.append_assoc, hcut]
    simp
  · simp only [List.length_append, List.length_map, List.length_singleton]
    omega
  apply spec_edgecount (Multiset.mem_cons_self _ _) hroom
  rw [u32Sub_of_le hroom (by omega), Nat.add_sub_cancel]
  have hform : p ++ (es.map Prod.fst ++ [c]) ++ (pointers es ++ w) =
      p ++ ((es.map Prod.fst ++ c :: []) ++ (pointers es ++ (w ++ []))) := by simp
  rw [hform]
  apply spec_setEdgeAt hlength hroom rfl (by simp) (by simp) (by simp) hw
  have hlast := h n'
  rw [layout_middle] at hlast
  exact hlast

/-- A pointer read from a node and written back keeps its bytes. -/
theorem layout_reread (rc : UInt32) (p : List UInt8) (l : List (UInt8 × Addr)) (e : UInt8 × Addr)
    (r : List (UInt8 × Addr)) :
    layout ⟨rc, p, l ++ (e.1, decode (encode pointerSize e.2)) :: r⟩ = layout ⟨rc, p, l ++ e :: r⟩ := by
  rw [layout_middle, layout_middle, encode_decode_pointer]

theorem spec_removeEdge {f : Addr → ByteM α} {l r : List (UInt8 × Addr)} {e : UInt8 × Addr} {i : Nat}
    (hb : Fits ⟨rc, p, l ++ e :: r⟩) (hi : i = l.length)
    (h : ∀ n', Spec (Holds ((n', layout ⟨rc, p, swapRemove i (l ++ e :: r)⟩) ::ₘ S)) (f n') Q E) :
    Spec (Holds ((n, layout ⟨rc, p, l ++ e :: r⟩) ::ₘ S)) (removeEdge A n i >>= f) Q E := by
  have hlength : p.length < 2 ^ 32 := hb.prefix_lt
  have hcount : (l ++ e :: r).length < 2 ^ 32 := hb.edges_lt
  obtain ⟨z, init, hinit, hswap⟩ := swap_last l e r
  have hlast : (l ++ e :: r).length - 1 = init.length := by rw [hinit]; simp
  have hpos : 1 ≤ (l ++ e :: r).length := by rw [hinit]; simp
  simp only [removeEdge, bind_assoc]
  apply spec_edgecount (Multiset.mem_cons_self _ _) hcount
  dsimp only
  rw [u32Sub_of_le hcount hpos, hlast]
  have hn : (n, layout ⟨rc, p, init ++ z :: []⟩) ∈ (n, layout ⟨rc, p, l ++ e :: r⟩) ::ₘ S := by
    rw [hinit]
    exact Multiset.mem_cons_self _ _
  have hb' : Fits ⟨rc, p, init ++ z :: []⟩ := by rwa [← hinit]
  apply spec_firstByteAt hn hb' rfl
  apply spec_nodeAt hn hb' rfl
  apply spec_setEdge hb hi
  rw [layout_reread, hswap]
  rw [hi] at h
  have hlen := swapRemove_length l e r
  generalize swapRemove l.length (l ++ e :: r) = es' at hlen h ⊢
  rw [← hlen] at hcount
  have hcount' : (es' ++ [z]).length < 2 ^ 32 := by rwa [List.length_append]
  apply spec_nodePtrs (Multiset.mem_cons_self _ _) hlength hcount'
  apply spec_edgecount (Multiset.mem_cons_self _ _) hcount'
  dsimp only
  -- the pointers move one byte down, over the first byte of the last edge
  obtain ⟨v, w, hcut, hv, hw⟩ := exists_cut (z.1 :: pointers (es' ++ [z])) ((es' ++ [z]).length * pointerSize) 1 (by simp)
  refine spec_moveBody (u := p ++ (es' ++ [z]).map Prod.fst) (v := pointers (es' ++ [z])) (w := []) (by simp [chunks]) ?_
    (by simp) (r := p ++ es'.map Prod.fst) (s := v) (t := w) ?_ ?_ (by rw [pointers_length, hv]) ?_
  · simp only [List.length_append, List.length_map]
    omega
  · rw [← hcut]
    simp [chunks]
  · simp only [List.length_append, List.length_map, List.length_singleton]
    omega
  apply spec_prefixLength (Multiset.mem_cons_self _ _) hlength
  apply spec_edgecount (Multiset.mem_cons_self _ _) hcount'
  rw [u32Sub_of_le hcount' (by simp), List.length_append, List.length_singleton, Nat.add_sub_cancel]
  apply spec_resize (by omega) (by omega)
  intro n' junk
  have hform : p ++ es'.map Prod.fst ++ (pointers (es' ++ [z]) ++ w) = chunks p es' ++ (pointers [z] ++ w) := by
    simp [chunks, pointers_append]
  rw [hform, refit_shrink (chunks_length p es').symm]
  exact h n'

theorem spec_splitOff {f : Addr → ByteM α} {c q : List UInt8} {j : Nat} (hn : (n, layout ⟨rc, c ++ q, es⟩) ∈ S)
    (hb : Fits ⟨rc, c ++ q, es⟩) (hj : j = c.length)
    (h : ∀ s body, body.length = q.length + es.length * 9 →
      Spec (Holds ((s, header rc.toNat q.length es.length ++ body) ::ₘ S)) (f s) Q E) :
    Spec (Holds S) (splitOff A n j >>= f) Q E := by
  have hlength : (c ++ q).length < 2 ^ 32 := hb.prefix_lt
  have hcount : es.length < 2 ^ 32 := hb.edges_lt
  have hrest : sizeSub (c ++ q).length j = q.length := by
    rw [hj, sizeSub_of_le (by simp) (by omega), List.length_append, Nat.add_sub_cancel_left]
  rw [List.length_append] at hlength
  simp only [splitOff, bind_assoc]
  apply spec_refcount hn rc.toNat_lt
  apply spec_prefixLength hn hb.prefix_lt
  apply spec_edgecount hn hcount
  dsimp only
  rw [hrest]
  exact spec_makeNode (by omega) (by omega) h

theorem spec_copyTail {f : Unit → ByteM α} {c q body : List UInt8} {s : Addr} {refs j : Nat}
    (hn : (n, layout ⟨rc, c ++ q, es⟩) ∈ S) (hb : Fits ⟨rc, c ++ q, es⟩) (hj : j = c.length)
    (hbody : body.length = q.length + es.length * 9)
    (h : Spec (Holds ((s, header refs q.length es.length ++ chunks q es) ::ₘ S)) (f ()) Q E) :
    Spec (Holds ((s, header refs q.length es.length ++ body) ::ₘ S)) (copyTail n s j >>= f) Q E := by
  have hlength : (c ++ q).length < 2 ^ 32 := hb.prefix_lt
  have hcount : es.length < 2 ^ 32 := hb.edges_lt
  have hq : q.length < 2 ^ 32 := (hb.back : Fits ⟨rc, q, es⟩).prefix_lt
  obtain ⟨p, firsts, ptrs, rfl, hp, hfirsts, hptrs⟩ := exists_chunks hbody
  have hn' (b : List UInt8) : (n, layout ⟨rc, c ++ q, es⟩) ∈ (s, b) ::ₘ S := Multiset.mem_cons_of_mem hn
  simp only [copyTail, bind_assoc]
  refine spec_setPrefix hq hp (yields_body (hn' _) (u := c) (w := es.map Prod.fst ++ pointers es) ?_ ?_ rfl) rfl ?_
  · simp [chunks]
  · rw [prefixOffset, hj]
  apply spec_firstBytes (hn' _) hlength
  refine spec_setFirstBytes hq hcount rfl hfirsts
    (yields_body (hn' _) (u := c ++ q) (v := es.map Prod.fst) (w := pointers es) rfl rfl (by simp)) (by simp) ?_
  apply spec_nodePtrs (hn' _) hlength hcount
  refine spec_setNodePtrs hq hcount rfl (by simp) hptrs
    (yields_body (hn' _) (u := c ++ q ++ es.map Prod.fst) (v := pointers es) (w := []) ?_ ?_ (by simp)) (by simp) h
  · simp [chunks]
  · simp only [List.length_append, List.length_map]
    omega

theorem spec_absorb {f : Addr → ByteM α} {child : Addr} {rc' : UInt32} {q : List UInt8} {fs : List (UInt8 × Addr)}
    (hb : Fits ⟨rc, p, es⟩) (hchild : (child, layout ⟨rc', q, fs⟩) ∈ S) (hb' : Fits ⟨rc', q, fs⟩)
    (hroom : p.length + q.length < 2 ^ 32)
    (h : ∀ n', Spec (Holds ((n', layout ⟨rc', p ++ q, fs⟩) ::ₘ S)) (f n') Q E) :
    Spec (Holds ((n, layout ⟨rc, p, es⟩) ::ₘ S)) (absorb A n child >>= f) Q E := by
  have hq : q.length < 2 ^ 32 := hb'.prefix_lt
  have hcount : fs.length < 2 ^ 32 := hb'.edges_lt
  have hmem (n : Addr) (b : List UInt8) : (child, layout ⟨rc', q, fs⟩) ∈ (n, b) ::ₘ S := Multiset.mem_cons_of_mem hchild
  simp only [absorb, bind_assoc]
  apply spec_prefixLength (Multiset.mem_cons_self _ _) hb.prefix_lt
  apply spec_prefixLength (hmem _ _) hq
  apply spec_edgecount (hmem _ _) hcount
  dsimp only
  rw [u32_of_lt hroom]
  refine spec_resize_keep (c := p) rfl rfl (by omega) (by omega) (fun n' new hnew => ?_)
  obtain ⟨q₀, firsts, ptrs, rfl, hq₀, hfirsts, hptrs⟩ := exists_chunks hnew
  have hjoin : (p ++ q).length = p.length + q.length := List.length_append
  apply spec_prefixLength (hmem _ _) hq
  refine spec_copyBody (u := p) (v := q₀) rfl rfl
    (yields_body (hmem _ _) (u := []) (v := q) (w := fs.map Prod.fst ++ pointers fs) rfl rfl rfl) hq₀.symm ?_
  apply spec_firstBytes (hmem _ _) hq
  rw [← List.append_assoc p q]
  refine spec_setFirstBytes hroom hcount hjoin hfirsts
    (yields_body (hmem _ _) (u := q) (v := fs.map Prod.fst) (w := pointers fs) rfl rfl (by simp)) (by simp) ?_
  apply spec_nodePtrs (hmem _ _) hq hcount
  refine spec_setNodePtrs hroom hcount hjoin (by simp) hptrs
    (yields_body (hmem _ _) (u := q ++ fs.map Prod.fst) (v := pointers fs) (w := []) (by simp [chunks]) ?_ (by simp))
    (by simp) ?_
  · simp only [List.length_append, List.length_map]
    omega
  apply spec_refcount (hmem _ _) rc'.toNat_lt
  apply spec_setRefcount
  rw [← hjoin]
  exact h n'

theorem layout_leaf (rest : List UInt8) : layout ⟨1, rest, []⟩ = header 1 rest.length 0 ++ (rest ++ []) := rfl

/-- Splitting a node at the end of c, for the rest of a key that stands in the buffer. -/
theorem spec_forkNode {f : Addr × Addr × Addr → ByteM α} {c q u rest w : List UInt8} {x y : UInt8} {size i j : Nat}
    (hb : Fits ⟨rc, c ++ x :: q, es⟩) (hrest : (y :: rest).length < 2 ^ 32) (hi : i = u.length) (hj : j = c.length)
    (hsize : size = u.length + (y :: rest).length)
    (h : ∀ n' k s, Spec (Holds ((n', layout ⟨0, c, [(y, k), (x, s)]⟩) ::ₘ (s, layout ⟨rc, x :: q, es⟩) ::ₘ
      (k, layout ⟨1, y :: rest, []⟩) ::ₘ S)) (f (n', k, s)) Q E) :
    Spec (Holds ((n, layout ⟨rc, c ++ x :: q, es⟩) ::ₘ S))
      (forkNode A n (u ++ ((y :: rest) ++ w)) size i j >>= f) Q E := by
  have hkey : sizeSub size i = (y :: rest).length := by
    rw [sizeSub_of_le (by omega) (by omega)]
    omega
  have hc : c.length < 2 ^ 32 := hb.front
  simp only [forkNode, bind_assoc]
  rw [hkey]
  refine spec_makeNode (by omega) (by omega) (fun k key₀ hkey₀ => ?_)
  refine spec_splitOff (Multiset.mem_cons_of_mem (Multiset.mem_cons_self _ _)) hb hj (fun s body hbody => ?_)
  rw [Multiset.cons_swap, ← List.append_nil key₀]
  refine spec_setPrefix hrest hkey₀ (yields_fromBuffer rfl hi rfl) rfl ?_
  rw [← layout_leaf, Multiset.cons_swap]
  apply spec_copyTail (Multiset.mem_cons_of_mem (Multiset.mem_cons_self _ _)) hb hj hbody
  rw [Multiset.cons_swap (k, _) (n, _), Multiset.cons_swap (s, _) (n, _)]
  refine spec_resize_keep (c := c) (t := x :: q ++ (es.map Prod.fst ++ pointers es)) (d := 0) (by simp [chunks]) hj
    (by omega) (by omega) (fun n' new hnew => ?_)
  subst hj
  obtain ⟨firsts, ptrs, rfl, hfirsts, hptrs⟩ := exists_cut new 2 16 (by omega)
  obtain ⟨a, b, rfl⟩ := List.length_eq_two.mp hfirsts
  obtain ⟨v, v', rfl, hv, hv'⟩ := exists_cut ptrs pointerSize pointerSize hptrs
  apply spec_setRefcount
  apply spec_prefixHead (Multiset.mem_cons_of_mem (Multiset.mem_cons_of_mem (Multiset.mem_cons_self _ _)))
  refine spec_setEdgeAt (l := []) (r := [b]) (t := []) hc (by decide) rfl rfl rfl rfl hv ?_
  apply spec_prefixHead (Multiset.mem_cons_of_mem (Multiset.mem_cons_self _ _))
  rw [← List.append_nil v']
  exact spec_setEdgeAt (l := [y]) (r := []) (t := encode pointerSize k) hc (by decide) rfl rfl rfl
    (by rw [encode_length, Nat.one_mul]) hv' (h n' k s)

/-- Splitting a node at the end of c, where the key ends. -/
theorem spec_cutNode {f : Addr × Addr → ByteM α} {c q : List UInt8} {x : UInt8} {j : Nat}
    (hb : Fits ⟨rc, c ++ x :: q, es⟩) (hj : j = c.length)
    (h : ∀ n' s, Spec (Holds ((n', layout ⟨1, c, [(x, s)]⟩) ::ₘ (s, layout ⟨rc, x :: q, es⟩) ::ₘ S)) (f (n', s)) Q E) :
    Spec (Holds ((n, layout ⟨rc, c ++ x :: q, es⟩) ::ₘ S)) (cutNode A n j >>= f) Q E := by
  have hc : c.length < 2 ^ 32 := hb.front
  simp only [cutNode, bind_assoc]
  refine spec_splitOff (Multiset.mem_cons_self _ _) hb hj (fun s body hbody => ?_)
  apply spec_copyTail (Multiset.mem_cons_self _ _) hb hj hbody
  rw [Multiset.cons_swap]
  refine spec_resize_keep (c := c) (t := x :: q ++ (es.map Prod.fst ++ pointers es)) (d := 0) (by simp [chunks]) hj
    (by omega) (by omega) (fun n' new hnew => ?_)
  subst hj
  obtain ⟨firsts, ptrs, rfl, hfirsts, hptrs⟩ := exists_cut new 1 pointerSize
    (by rw [pointerSize]; omega)
  obtain ⟨a, rfl⟩ := List.length_eq_one_iff.mp hfirsts
  apply spec_prefixHead (Multiset.mem_cons_of_mem (Multiset.mem_cons_self _ _))
  rw [← List.append_nil ptrs]
  refine spec_setEdgeAt (l := []) (r := []) (t := []) hc (by decide) rfl rfl rfl rfl hptrs ?_
  exact spec_setRefcount (h n' s)

section Merges

variable {child : Addr} {rc' : UInt32} {q : List UInt8} {fs : List (UInt8 × Addr)}

theorem spec_mergeChild {f : Addr → ByteM α} {y : UInt8} (hb : Fits ⟨rc, p, [(y, child)]⟩) (hb' : Fits ⟨rc', q, fs⟩)
    (haddr : child < 2 ^ 64) (hroom : p.length + q.length < 2 ^ 32)
    (h : ∀ n', Spec (Holds ((n', layout ⟨rc', p ++ q, fs⟩) ::ₘ S)) (f n') Q E) :
    Spec (Holds ((n, layout ⟨rc, p, [(y, child)]⟩) ::ₘ (child, layout ⟨rc', q, fs⟩) ::ₘ S)) (mergeChild A n >>= f) Q E := by
  simp only [mergeChild, bind_assoc]
  apply spec_nodeAt (l := []) (Multiset.mem_cons_self _ _) hb rfl
  dsimp only
  rw [decode_pointer haddr]
  refine spec_absorb hb (Multiset.mem_cons_self _ _) hb' hroom (fun n' => ?_)
  rw [Multiset.cons_swap]
  exact spec_free_bind (h n')

/-- The other child is at index 0 or 1, whichever is not removed. -/
theorem spec_mergeOther {f : Addr → ByteM α} {removed : Addr} {gone : List UInt8} {l r : List (UInt8 × Addr)} {y z : UInt8}
    {i : Nat} (hother : l ++ r = [(y, child)]) (hi : i = l.length) (hb : Fits ⟨rc, p, l ++ (z, removed) :: r⟩)
    (hb' : Fits ⟨rc', q, fs⟩) (haddr : child < 2 ^ 64) (hroom : p.length + q.length < 2 ^ 32)
    (h : ∀ n', Spec (Holds ((n', layout ⟨rc', p ++ q, fs⟩) ::ₘ S)) (f n') Q E) :
    Spec (Holds ((n, layout ⟨rc, p, l ++ (z, removed) :: r⟩) ::ₘ (removed, gone) ::ₘ
      (child, layout ⟨rc', q, fs⟩) ::ₘ S)) (mergeOther A n removed i >>= f) Q E := by
  have hlen : l.length + r.length = 1 := by
    rw [← List.length_append, hother]
    rfl
  simp only [mergeOther, bind_assoc]
  apply spec_assert_bind (by omega)
  obtain ⟨l', r', hother', hidx⟩ : ∃ l' r', l ++ (z, removed) :: r = l' ++ (y, child) :: r' ∧
      (if i = 0 then 1 else 0) = l'.length := by
    rcases List.append_eq_singleton_iff.mp hother with ⟨rfl, rfl⟩ | ⟨rfl, rfl⟩
    · exact ⟨[(z, removed)], [], rfl, by rw [hi]; rfl⟩
    · exact ⟨[], [(z, removed)], rfl, by rw [hi]; rfl⟩
  rw [hother'] at hb ⊢
  apply spec_nodeAt (Multiset.mem_cons_self _ _) hb hidx
  dsimp only
  rw [decode_pointer haddr]
  refine spec_absorb hb (Multiset.mem_cons_of_mem (Multiset.mem_cons_self _ _)) hb' hroom (fun n' => ?_)
  rw [Multiset.cons_swap]
  apply spec_free_bind
  rw [Multiset.cons_swap]
  exact spec_free_bind (h n')

end Merges

end Rules

end StudyNotes.Radix.LayoutEdits
