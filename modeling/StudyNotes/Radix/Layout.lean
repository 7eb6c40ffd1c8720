import StudyNotes.Radix.ByteNode
import StudyNotes.Radix.KeyTree

namespace StudyNotes.Radix.Layout

open Heap.Program Heap.Triple Heap.Bytes Codes.LittleEndian ByteNode
open Node (Block u32 headerSize blockSize)

def header (refs length count : Nat) : List UInt8 := encode 4 refs ++ (encode 4 length ++ encode 4 count)

/-- The chunk of node pointers. -/
def pointers (es : List (UInt8 × Addr)) : List UInt8 := es.flatMap (fun e => encode pointerSize e.2)

/-- The chunks behind the header. -/
def chunks (p : List UInt8) (es : List (UInt8 × Addr)) : List UInt8 := p ++ (es.map Prod.fst ++ pointers es)

/-- The bytes of a node. -/
def layout (b : Block) : List UInt8 :=
  header b.refcount.toNat b.prefixBytes.length b.edges.length ++ chunks b.prefixBytes b.edges

/-- The two lengths can be written into the header. -/
structure Fits (b : Block) : Prop where
  prefix_lt : b.prefixBytes.length < 2 ^ 32
  edges_lt : b.edges.length < 2 ^ 32

theorem Fits.front {rc : UInt32} {c q : List UInt8} {es : List (UInt8 × Addr)} (h : Fits ⟨rc, c ++ q, es⟩) :
    c.length < 2 ^ 32 := by
  have hlt : (c ++ q).length < 2 ^ 32 := h.prefix_lt
  rw [List.length_append] at hlt
  omega

theorem Fits.back {rc rc' : UInt32} {c q : List UInt8} {es : List (UInt8 × Addr)} (h : Fits ⟨rc, c ++ q, es⟩) :
    Fits ⟨rc', q, es⟩ := by
  have hlt : (c ++ q).length < 2 ^ 32 := h.prefix_lt
  rw [List.length_append] at hlt
  exact ⟨by dsimp only; omega, h.edges_lt⟩

theorem fits_join {rc rc' : UInt32} {p q : List UInt8} {es : List (UInt8 × Addr)} (h : Fits ⟨rc, q, es⟩) :
    Fits ⟨rc', p ++ q, es⟩ ↔ p.length + q.length < 2 ^ 32 := by
  rw [← List.length_append]
  exact ⟨fun h' => h'.prefix_lt, fun hlt => ⟨hlt, h.edges_lt⟩⟩

theorem fits_concat {rc : UInt32} {p : List UInt8} {es : List (UInt8 × Addr)} {e : UInt8 × Addr} (h : Fits ⟨rc, p, es⟩) :
    Fits ⟨rc, p, es ++ [e]⟩ ↔ es.length + 1 < 2 ^ 32 := by
  have hlen : (es ++ [e]).length = es.length + 1 := List.length_append
  rw [← hlen]
  exact ⟨fun h' => h'.edges_lt, fun hlt => ⟨h.prefix_lt, hlt⟩⟩

@[simp] theorem header_length (refs length count : Nat) : (header refs length count).length = headerSize := by
  simp [header, headerSize]

@[simp] theorem pointers_length (es : List (UInt8 × Addr)) : (pointers es).length = es.length * pointerSize := by
  induction es with
  | nil => simp [pointers]
  | cons e es ih =>
      rw [pointers, List.flatMap_cons, List.length_append, encode_length, ← pointers, ih, List.length_cons,
        Nat.succ_mul, Nat.add_comm]

theorem pointers_append (es es' : List (UInt8 × Addr)) : pointers (es ++ es') = pointers es ++ pointers es' :=
  List.flatMap_append

theorem pointers_cons (e : UInt8 × Addr) (es : List (UInt8 × Addr)) :
    pointers (e :: es) = encode pointerSize e.2 ++ pointers es := List.flatMap_cons

theorem chunks_length (p : List UInt8) (es : List (UInt8 × Addr)) : (chunks p es).length = p.length + es.length * 9 := by
  rw [chunks, List.length_append, List.length_append, List.length_map, pointers_length, pointerSize]
  omega

theorem blockSize_of_lt {bytes edges : Nat} (hb : bytes < 2 ^ 33) (he : edges < 2 ^ 33) :
    blockSize bytes edges = headerSize + (bytes + edges * 9) ∧ blockSize bytes edges ≤ maxRequest := by
  unfold blockSize headerSize maxRequest
  rw [Nat.mod_eq_of_lt (by omega)]
  omega

theorem decode_encode_four {n : Nat} (h : n < 2 ^ 32) : decode (encode 4 n) = n :=
  decode_encode_of_lt (h.trans_eq (by decide))

theorem decode_pointer {x : Addr} (h : x < 2 ^ 64) : decode (encode pointerSize x) = x :=
  decode_encode_of_lt (h.trans_eq (by decide))

/-- A pointer that is read and written back leaves the same bytes, whatever its value. -/
theorem encode_decode_pointer (x : Addr) : encode pointerSize (decode (encode pointerSize x)) = encode pointerSize x := by
  have h := encode_decode (encode pointerSize x)
  rwa [encode_length] at h

theorem u32Sub_of_le {a b : Nat} (ha : a < 2 ^ 32) (h : b ≤ a) : u32Sub a b = a - b := by
  unfold u32Sub u32
  rw [show a + 2 ^ 32 - b = (a - b) + 2 ^ 32 by omega, Nat.add_mod_right, Nat.mod_eq_of_lt (by omega)]

/-- Whatever stands in the first bytes of a block can be read as a header. -/
theorem exists_header {bytes : List UInt8} {k : Nat} (h : bytes.length = headerSize + k) :
    ∃ refs length count body, bytes = header refs length count ++ body ∧ body.length = k := by
  have hfour (u : List UInt8) (hu : u.length = 4) : encode 4 (decode u) = u := hu ▸ encode_decode u
  rw [headerSize] at h
  refine ⟨decode (bytes.take 4), decode ((bytes.drop 4).take 4), decode ((bytes.drop 8).take 4), bytes.drop 12, ?_, ?_⟩
  · rw [header, hfour _ (by simp; omega), hfour _ (by simp; omega), hfour _ (by simp; omega)]
    have hcut (i : Nat) : (bytes.drop i).take 4 ++ bytes.drop (i + 4) = bytes.drop i := by
      rw [← List.drop_drop, List.take_append_drop]
    rw [List.append_assoc, List.append_assoc, hcut 8, hcut 4, List.take_append_drop]
  · rw [List.length_drop]
    omega

/-- A body of the right length can be read as three chunks. -/
theorem exists_chunks {body : List UInt8} {length count : Nat} (h : body.length = length + count * 9) :
    ∃ p firsts ptrs, body = p ++ (firsts ++ ptrs) ∧ p.length = length ∧ firsts.length = count ∧
      ptrs.length = count * pointerSize := by
  refine ⟨body.take length, (body.drop length).take count, (body.drop length).drop count, ?_, ?_, ?_, ?_⟩
  · rw [List.take_append_drop, List.take_append_drop]
  · rw [List.length_take]
    omega
  · rw [List.length_take, List.length_drop]
    omega
  · rw [List.length_drop, List.length_drop, pointerSize]
    omega

section Header

variable {α : Type} {S : Multiset (Addr × List UInt8)} {Q : α → Mem (List UInt8) → Prop} {E : Fault → Prop}
variable {n : Addr} {refs length count : Nat} {body u v v' w : List UInt8} {off : Nat}

theorem spec_refcount {f : Nat → ByteM α} (hn : (n, header refs length count ++ body) ∈ S) (hrefs : refs < 2 ^ 32)
    (h : Spec (Holds S) (f refs) Q E) : Spec (Holds S) (refcount n >>= f) Q E := by
  have hread : Yields (Holds S) (readAt n 0 4) (encode 4 refs) :=
    yields_readAt hn (u := []) (w := encode 4 length ++ encode 4 count ++ body) (by simp [header]) rfl (by simp)
  rw [refcount, bind_assoc]
  apply spec_yields hread
  rw [pure_bind, decode_encode_four hrefs]
  exact h

theorem spec_prefixLength {f : Nat → ByteM α} (hn : (n, header refs length count ++ body) ∈ S)
    (hlength : length < 2 ^ 32) (h : Spec (Holds S) (f length) Q E) : Spec (Holds S) (prefixLength n >>= f) Q E := by
  have hread : Yields (Holds S) (readAt n 4 4) (encode 4 length) :=
    yields_readAt hn (u := encode 4 refs) (w := encode 4 count ++ body) (by simp [header]) (by simp) (by simp)
  rw [prefixLength, bind_assoc]
  apply spec_yields hread
  rw [pure_bind, decode_encode_four hlength]
  exact h

theorem spec_edgecount {f : Nat → ByteM α} (hn : (n, header refs length count ++ body) ∈ S)
    (hcount : count < 2 ^ 32) (h : Spec (Holds S) (f count) Q E) : Spec (Holds S) (edgecount n >>= f) Q E := by
  have hread : Yields (Holds S) (readAt n 8 4) (encode 4 count) :=
    yields_readAt hn (u := encode 4 refs ++ encode 4 length) (w := body) (by simp [header]) (by simp) (by simp)
  rw [edgecount, bind_assoc]
  apply spec_yields hread
  rw [pure_bind, decode_encode_four hcount]
  exact h

theorem spec_setRefcount {f : Unit → ByteM α} {value : Nat}
    (h : Spec (Holds ((n, header value length count ++ body) ::ₘ S)) (f ()) Q E) :
    Spec (Holds ((n, header refs length count ++ body) ::ₘ S)) (setRefcount n value >>= f) Q E := by
  refine spec_writeAt (u := []) (v := encode 4 refs) (w := encode 4 length ++ encode 4 count ++ body)
    (by simp [header]) rfl (by simp) ?_
  simpa [header] using h

theorem spec_setPrefixLength {f : Unit → ByteM α} {value : Nat}
    (h : Spec (Holds ((n, header refs value count ++ body) ::ₘ S)) (f ()) Q E) :
    Spec (Holds ((n, header refs length count ++ body) ::ₘ S)) (setPrefixLength n value >>= f) Q E := by
  refine spec_writeAt (u := encode 4 refs) (v := encode 4 length) (w := encode 4 count ++ body)
    (by simp [header]) (by simp) (by simp) ?_
  simpa [header] using h

theorem spec_setEdgecount {f : Unit → ByteM α} {value : Nat}
    (h : Spec (Holds ((n, header refs length value ++ body) ::ₘ S)) (f ()) Q E) :
    Spec (Holds ((n, header refs length count ++ body) ::ₘ S)) (setEdgecount n value >>= f) Q E := by
  refine spec_writeAt (u := encode 4 refs ++ encode 4 length) (v := encode 4 count) (w := body)
    (by simp [header]) (by simp) (by simp) ?_
  simpa [header] using h

theorem spec_firstBytes {f : Nat → ByteM α} (hn : (n, header refs length count ++ body) ∈ S)
    (hlength : length < 2 ^ 32) (h : Spec (Holds S) (f (headerSize + length)) Q E) :
    Spec (Holds S) (firstBytes n >>= f) Q E := by
  rw [firstBytes, bind_assoc]
  exact spec_prefixLength hn hlength h

theorem spec_nodePtrs {f : Nat → ByteM α} (hn : (n, header refs length count ++ body) ∈ S)
    (hlength : length < 2 ^ 32) (hcount : count < 2 ^ 32) (h : Spec (Holds S) (f (headerSize + length + count)) Q E) :
    Spec (Holds S) (nodePtrs n >>= f) Q E := by
  rw [nodePtrs, bind_assoc]
  apply spec_prefixLength hn hlength
  rw [bind_assoc]
  exact spec_edgecount hn hcount h

/-- Reading behind the header. -/
theorem yields_body {len : Nat} (hn : (n, header refs length count ++ body) ∈ S) (hbody : body = u ++ (v ++ w))
    (hoff : off = headerSize + u.length) (hlen : len = v.length) : Yields (Holds S) (readAt n off len) v :=
  yields_readAt hn (u := header refs length count ++ u) (by rw [hbody, List.append_assoc])
    (by rw [hoff, List.length_append, header_length]) hlen

/-- Writing behind the header. -/
theorem spec_writeBody {f : Unit → ByteM α} (hbody : body = u ++ (v ++ w)) (hoff : off = headerSize + u.length)
    (hlen : v'.length = v.length) (h : Spec (Holds ((n, header refs length count ++ (u ++ (v' ++ w))) ::ₘ S)) (f ()) Q E) :
    Spec (Holds ((n, header refs length count ++ body) ::ₘ S)) (writeAt n off v' >>= f) Q E := by
  refine spec_writeAt (u := header refs length count ++ u) (v := v) (w := w) (by rw [hbody, List.append_assoc])
    (by rw [hoff, List.length_append, header_length]) hlen ?_
  rw [List.append_assoc]
  exact h

theorem spec_copyBody {f : Unit → ByteM α} {src : Source} {len : Nat} (hbody : body = u ++ (v ++ w))
    (hoff : off = headerSize + u.length)
    (hsrc : Yields (Holds ((n, header refs length count ++ body) ::ₘ S)) (src len) v') (hlen : v'.length = v.length)
    (h : Spec (Holds ((n, header refs length count ++ (u ++ (v' ++ w))) ::ₘ S)) (f ()) Q E) :
    Spec (Holds ((n, header refs length count ++ body) ::ₘ S)) (memcpy n off src len >>= f) Q E := by
  refine spec_memcpy (u := header refs length count ++ u) (v := v) (w := w) (by rw [hbody, List.append_assoc])
    (by rw [hoff, List.length_append, header_length]) hsrc hlen ?_
  rw [List.append_assoc]
  exact h

/-- Moving bytes behind the header. -/
theorem spec_moveBody {f : Unit → ByteM α} {dst src len : Nat} {r s t : List UInt8} (hbody : body = u ++ (v ++ w))
    (hsrc : src = headerSize + u.length) (hlen : len = v.length) (hbody' : body = r ++ (s ++ t))
    (hdst : dst = headerSize + r.length) (hlen' : v.length = s.length)
    (h : Spec (Holds ((n, header refs length count ++ (r ++ (v ++ t))) ::ₘ S)) (f ()) Q E) :
    Spec (Holds ((n, header refs length count ++ body) ::ₘ S)) (memmove n dst src len >>= f) Q E := by
  refine spec_memmove (u := header refs length count ++ u) (w := w) (by rw [hbody, List.append_assoc])
    (by rw [hsrc, List.length_append, header_length]) hlen (r := header refs length count ++ r) (s := s) (t := t)
    (by rw [hbody', List.append_assoc]) (by rw [hdst, List.length_append, header_length]) hlen' ?_
  rw [List.append_assoc]
  exact h

theorem spec_resize {A : ByteAllocator} {f : Addr → ByteM α} {bytes edges : Nat} (hbytes : bytes < 2 ^ 33)
    (hedges : edges < 2 ^ 33)
    (h : ∀ x junk, Spec (Holds ((x, header refs bytes edges ++ refit junk (bytes + edges * 9) body) ::ₘ S)) (f x) Q E) :
    Spec (Holds ((n, header refs length count ++ body) ::ₘ S)) (resize A n bytes edges >>= f) Q E := by
  obtain ⟨hsize, hmax⟩ := blockSize_of_lt hbytes hedges
  rw [resize, bind_assoc]
  apply spec_reallocBytes hmax
  intro x g hx
  rw [bind_assoc]
  apply spec_assert_bind hx
  rw [hsize, ← header_length refs length count, refit_append, bind_assoc]
  apply spec_setPrefixLength
  rw [bind_assoc]
  exact spec_setEdgecount (h x _)

/-- A node that is resized keeps the front of its prefix. -/
theorem spec_resize_keep {A : ByteAllocator} {f : Addr → ByteM α} {c t : List UInt8} {bytes edges d : Nat}
    (hbody : body = c ++ t) (hd : bytes = c.length + d) (hbytes : bytes < 2 ^ 33) (hedges : edges < 2 ^ 33)
    (h : ∀ x new, new.length = d + edges * 9 →
      Spec (Holds ((x, header refs bytes edges ++ (c ++ new)) ::ₘ S)) (f x) Q E) :
    Spec (Holds ((n, header refs length count ++ body) ::ₘ S)) (resize A n bytes edges >>= f) Q E := by
  apply spec_resize hbytes hedges
  intro x junk
  rw [hbody, hd, Nat.add_assoc, refit_append, ← hd]
  exact h x _ (refit_length _ _ _)

theorem spec_makeNode {A : ByteAllocator} {f : Addr → ByteM α} {bytes edges : Nat} (hbytes : bytes < 2 ^ 33)
    (hedges : edges < 2 ^ 33)
    (h : ∀ x body, body.length = bytes + edges * 9 →
      Spec (Holds ((x, header refs bytes edges ++ body) ::ₘ S)) (f x) Q E) :
    Spec (Holds S) (makeNode A refs bytes edges >>= f) Q E := by
  obtain ⟨hsize, hmax⟩ := blockSize_of_lt hbytes hedges
  rw [makeNode, bind_assoc]
  apply spec_mallocBytes hmax
  intro x v hx hv
  obtain ⟨r, l, c, body, rfl, hbody⟩ := exists_header (hv.trans hsize)
  rw [bind_assoc]
  apply spec_assert_bind hx
  rw [bind_assoc]
  apply spec_setRefcount
  rw [bind_assoc]
  apply spec_setPrefixLength
  rw [bind_assoc]
  exact spec_setEdgecount (h x body hbody)

end Header

section Chunks

variable {α : Type} {S : Multiset (Addr × List UInt8)} {Q : α → Mem (List UInt8) → Prop} {E : Fault → Prop}
variable {n : Addr} {refs length count i : Nat} {p p' firsts firsts' ptrs ptrs' w : List UInt8}

theorem spec_setPrefix {f : Unit → ByteM α} {src : Source} (hlt : length < 2 ^ 32) (hp : p.length = length)
    (hsrc : Yields (Holds ((n, header refs length count ++ (p ++ w)) ::ₘ S)) (src length) p') (hp' : p'.length = length)
    (h : Spec (Holds ((n, header refs length count ++ (p' ++ w)) ::ₘ S)) (f ()) Q E) :
    Spec (Holds ((n, header refs length count ++ (p ++ w)) ::ₘ S)) (setPrefix n src >>= f) Q E := by
  rw [setPrefix, bind_assoc]
  apply spec_prefixLength (Multiset.mem_cons_self _ _) hlt
  exact spec_copyBody (u := []) rfl rfl hsrc (hp'.trans hp.symm) h

theorem spec_setFirstBytes {f : Unit → ByteM α} {src : Source} (hlt : length < 2 ^ 32) (hcount : count < 2 ^ 32)
    (hp : p.length = length) (hfirsts : firsts.length = count)
    (hsrc : Yields (Holds ((n, header refs length count ++ (p ++ (firsts ++ w))) ::ₘ S)) (src count) firsts')
    (hfirsts' : firsts'.length = count)
    (h : Spec (Holds ((n, header refs length count ++ (p ++ (firsts' ++ w))) ::ₘ S)) (f ()) Q E) :
    Spec (Holds ((n, header refs length count ++ (p ++ (firsts ++ w))) ::ₘ S)) (setFirstBytes n src >>= f) Q E := by
  rw [setFirstBytes, bind_assoc]
  apply spec_firstBytes (Multiset.mem_cons_self _ _) hlt
  rw [bind_assoc]
  apply spec_edgecount (Multiset.mem_cons_self _ _) hcount
  exact spec_copyBody rfl (by rw [hp]) hsrc (hfirsts'.trans hfirsts.symm) h

theorem spec_setNodePtrs {f : Unit → ByteM α} {src : Source} (hlt : length < 2 ^ 32) (hcount : count < 2 ^ 32)
    (hp : p.length = length) (hfirsts : firsts.length = count) (hptrs : ptrs.length = count * pointerSize)
    (hsrc : Yields (Holds ((n, header refs length count ++ (p ++ (firsts ++ ptrs))) ::ₘ S))
      (src (count * pointerSize)) ptrs') (hptrs' : ptrs'.length = count * pointerSize)
    (h : Spec (Holds ((n, header refs length count ++ (p ++ (firsts ++ ptrs'))) ::ₘ S)) (f ()) Q E) :
    Spec (Holds ((n, header refs length count ++ (p ++ (firsts ++ ptrs))) ::ₘ S)) (setNodePtrs n src >>= f) Q E := by
  rw [setNodePtrs, bind_assoc]
  apply spec_nodePtrs (Multiset.mem_cons_self _ _) hlt hcount
  rw [bind_assoc]
  apply spec_edgecount (Multiset.mem_cons_self _ _) hcount
  refine spec_copyBody (u := p ++ firsts) (v := ptrs) (w := []) (by simp) ?_ hsrc (hptrs'.trans hptrs.symm) ?_
  · rw [List.length_append, hp, hfirsts, Nat.add_assoc]
  · simpa using h

theorem spec_setFirstByteAt {f : Unit → ByteM α} {l : List UInt8} {c byte : UInt8} (hlt : length < 2 ^ 32)
    (hcount : count < 2 ^ 32) (hp : p.length = length) (hi : i = l.length) (hic : i < count)
    (h : Spec (Holds ((n, header refs length count ++ (p ++ (l ++ byte :: w))) ::ₘ S)) (f ()) Q E) :
    Spec (Holds ((n, header refs length count ++ (p ++ (l ++ c :: w))) ::ₘ S)) (setFirstByteAt n i byte >>= f) Q E := by
  rw [setFirstByteAt, bind_assoc]
  apply spec_edgecount (Multiset.mem_cons_self _ _) hcount
  rw [bind_assoc]
  apply spec_assert_bind hic
  rw [bind_assoc]
  apply spec_firstBytes (Multiset.mem_cons_self _ _) hlt
  refine spec_writeBody (u := p ++ l) (v := [c]) (w := w) (by simp) ?_ rfl ?_
  · rw [hi, List.length_append, hp, Nat.add_assoc]
  · simpa using h

theorem spec_setNodeAt {f : Unit → ByteM α} {v : List UInt8} {x : Addr} (hlt : length < 2 ^ 32) (hcount : count < 2 ^ 32)
    (hp : p.length = length) (hfirsts : firsts.length = count) (hic : i < count) (hptrs : ptrs.length = i * pointerSize)
    (hv : v.length = pointerSize)
    (h : Spec (Holds ((n, header refs length count ++
      (p ++ (firsts ++ (ptrs ++ (encode pointerSize x ++ w))))) ::ₘ S)) (f ()) Q E) :
    Spec (Holds ((n, header refs length count ++ (p ++ (firsts ++ (ptrs ++ (v ++ w))))) ::ₘ S))
      (setNodeAt n i x >>= f) Q E := by
  rw [setNodeAt, bind_assoc]
  apply spec_edgecount (Multiset.mem_cons_self _ _) hcount
  rw [bind_assoc]
  apply spec_assert_bind hic
  rw [bind_assoc]
  apply spec_nodePtrs (Multiset.mem_cons_self _ _) hlt hcount
  refine spec_writeBody (u := p ++ (firsts ++ ptrs)) (v := v) (w := w) (by simp) ?_ (by simp [hv]) ?_
  · simp only [List.length_append, hp, hfirsts, hptrs]
    omega
  · simpa using h

/-- The edge behind l is overwritten in both chunks. -/
theorem spec_setEdgeAt {f : Unit → ByteM α} {l r t v : List UInt8} {c byte : UInt8} {x : Addr} (hlt : length < 2 ^ 32)
    (hcount : count < 2 ^ 32) (hp : p.length = length) (hfirsts : l.length + 1 + r.length = count) (hi : i = l.length)
    (ht : t.length = i * pointerSize) (hv : v.length = pointerSize)
    (h : Spec (Holds ((n, header refs length count ++
      (p ++ ((l ++ byte :: r) ++ (t ++ (encode pointerSize x ++ w))))) ::ₘ S)) (f ()) Q E) :
    Spec (Holds ((n, header refs length count ++ (p ++ ((l ++ c :: r) ++ (t ++ (v ++ w))))) ::ₘ S))
      (setEdgeAt n i byte x >>= f) Q E := by
  have hlen : (l ++ byte :: r).length = count := by
    rw [List.length_append, List.length_cons]
    omega
  rw [setEdgeAt, bind_assoc, List.append_assoc l, List.cons_append]
  apply spec_setFirstByteAt hlt hcount hp hi (by omega)
  rw [← List.cons_append, ← List.append_assoc l]
  exact spec_setNodeAt hlt hcount hp hlen (by omega) ht hv h

end Chunks

/-- The chunks of a node around one of its edges. -/
theorem chunks_middle (p : List UInt8) (l : List (UInt8 × Addr)) (e : UInt8 × Addr) (r : List (UInt8 × Addr)) :
    chunks p (l ++ e :: r) =
      p ++ ((l.map Prod.fst ++ e.1 :: r.map Prod.fst) ++ (pointers l ++ (encode pointerSize e.2 ++ pointers r))) := by
  rw [chunks, List.map_append, List.map_cons, pointers_append, pointers_cons]

theorem layout_middle (rc : UInt32) (p : List UInt8) (l : List (UInt8 × Addr)) (e : UInt8 × Addr)
    (r : List (UInt8 × Addr)) : layout ⟨rc, p, l ++ e :: r⟩ =
      header rc.toNat p.length (l.length + 1 + r.length) ++
        (p ++ ((l.map Prod.fst ++ e.1 :: r.map Prod.fst) ++ (pointers l ++ (encode pointerSize e.2 ++ pointers r)))) := by
  have hlen : (l ++ e :: r).length = l.length + 1 + r.length := by
    rw [List.length_append, List.length_cons]
    omega
  rw [← chunks_middle, layout, hlen]

section Blocks

variable {α : Type} {S : Multiset (Addr × List UInt8)} {Q : α → Mem (List UInt8) → Prop} {E : Fault → Prop}
variable {n : Addr} {rc : UInt32} {p : List UInt8} {l r : List (UInt8 × Addr)} {e : UInt8 × Addr} {i : Nat}

theorem spec_firstByteAt {f : UInt8 → ByteM α} (hn : (n, layout ⟨rc, p, l ++ e :: r⟩) ∈ S)
    (hb : Fits ⟨rc, p, l ++ e :: r⟩) (hi : i = l.length) (h : Spec (Holds S) (f e.1) Q E) :
    Spec (Holds S) (firstByteAt n i >>= f) Q E := by
  rw [firstByteAt, bind_assoc]
  apply spec_edgecount hn hb.edges_lt
  rw [bind_assoc]
  apply spec_assert_bind (by simp [hi])
  rw [bind_assoc]
  apply spec_firstBytes hn hb.prefix_lt
  rw [byteAt, bind_assoc]
  refine spec_yields (yields_body hn (u := p ++ l.map Prod.fst) (v := [e.1]) (w := r.map Prod.fst ++
    (pointers l ++ (encode pointerSize e.2 ++ pointers r))) ?_ ?_ rfl) h
  · rw [chunks_middle]
    simp
  · simp only [List.length_append, List.length_map, hi]
    omega

theorem spec_nodeAt {f : Addr → ByteM α} (hn : (n, layout ⟨rc, p, l ++ e :: r⟩) ∈ S)
    (hb : Fits ⟨rc, p, l ++ e :: r⟩) (hi : i = l.length)
    (h : Spec (Holds S) (f (decode (encode pointerSize e.2))) Q E) : Spec (Holds S) (nodeAt n i >>= f) Q E := by
  rw [nodeAt, bind_assoc]
  apply spec_edgecount hn hb.edges_lt
  rw [bind_assoc]
  apply spec_assert_bind (by simp [hi])
  rw [bind_assoc]
  apply spec_nodePtrs hn hb.prefix_lt hb.edges_lt
  rw [bind_assoc]
  refine spec_yields (yields_body hn (u := p ++ ((l ++ e :: r).map Prod.fst ++ pointers l))
    (v := encode pointerSize e.2) (w := pointers r) ?_ ?_ (encode_length _ _).symm) h
  · rw [chunks_middle]
    simp
  · simp only [List.length_append, List.length_map, pointers_length, hi]
    omega

/-- The first byte of a prefix. -/
theorem spec_prefixHead {f : UInt8 → ByteM α} {y : UInt8} {q : List UInt8} {es : List (UInt8 × Addr)}
    (hn : (n, layout ⟨rc, y :: q, es⟩) ∈ S) (h : Spec (Holds S) (f y) Q E) :
    Spec (Holds S) (byteAt n (prefixOffset 0) >>= f) Q E := by
  rw [byteAt, bind_assoc]
  exact spec_yields (yields_body hn (u := []) (v := [y]) rfl rfl rfl) h

/-- Overwriting an edge of a laid out node. -/
theorem spec_setEdge {f : Unit → ByteM α} {byte : UInt8} {x : Addr} (hb : Fits ⟨rc, p, l ++ e :: r⟩)
    (hi : i = l.length) (h : Spec (Holds ((n, layout ⟨rc, p, l ++ (byte, x) :: r⟩) ::ₘ S)) (f ()) Q E) :
    Spec (Holds ((n, layout ⟨rc, p, l ++ e :: r⟩) ::ₘ S)) (setEdgeAt n i byte x >>= f) Q E := by
  have hcount : l.length + 1 + r.length < 2 ^ 32 := by
    have hlt := hb.edges_lt
    rw [List.length_append, List.length_cons] at hlt
    omega
  rw [layout_middle] at h ⊢
  exact spec_setEdgeAt hb.prefix_lt hcount rfl (by simp) (by rw [hi, List.length_map]) (by rw [hi, pointers_length])
    (encode_length _ _) h

end Blocks

end StudyNotes.Radix.Layout
