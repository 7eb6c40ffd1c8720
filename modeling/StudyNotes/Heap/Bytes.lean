import StudyNotes.Heap.Triple

namespace StudyNotes.Heap.Bytes

open Program Triple

/-- A heap whose blocks are the bytes allocated to them. -/
abbrev ByteM := HeapM (List UInt8)

/-- Byte i of the memory that a request finds unwritten is junk g i, where g is
the garbage of that moment. -/
structure ByteAllocator extends Allocator (List UInt8) where
  junk : UInt8 → Nat → UInt8

/-- The allocator that moves every block, with one garbage byte everywhere. -/
def movingBytes : ByteAllocator where
  toAllocator := moving
  junk g _ := g

def readAt (a : Addr) (off len : Nat) : ByteM (List UInt8) := do
  let b ← load a
  if b.length < off + len then fail .outOfBounds
  else return (b.drop off).take len

def writeAt (a : Addr) (off : Nat) (bytes : List UInt8) : ByteM Unit := do
  let b ← load a
  if b.length < off + bytes.length then fail .outOfBounds
  else store a (b.take off ++ bytes ++ b.drop (off + bytes.length))

/-- The regions may overlap. -/
def memmove (a : Addr) (dst src len : Nat) : ByteM Unit := do
  let bytes ← readAt a src len
  writeAt a dst bytes

/-- What a source pointer leads to: the bytes found there, given how many are wanted. -/
abbrev Source := Nat → ByteM (List UInt8)

def memcpy (a : Addr) (off : Nat) (src : Source) (len : Nat) : ByteM Unit := do
  let bytes ← src len
  writeAt a off bytes

/-- A buffer that is not on the heap, from byte i on. -/
def fromBuffer (buffer : List UInt8) (i : Nat) : Source := fun len =>
  if buffer.length < i + len then fail .outOfBounds else pure ((buffer.drop i).take len)

/-- The bytes of a block cut or extended to the given size. -/
def refit (junk : Nat → UInt8) (size : Nat) (b : List UInt8) : List UInt8 :=
  b.take size ++ (List.range' b.length (size - b.length)).map junk

def mallocBytes (A : ByteAllocator) (size : Nat) : ByteM Addr :=
  malloc A.toAllocator size (fun g => refit (A.junk g) size [])

def reallocBytes (A : ByteAllocator) (a : Addr) (size : Nat) : ByteM Addr :=
  realloc A.toAllocator a size (fun g b => refit (A.junk g) size b)

theorem refit_length (junk : Nat → UInt8) (size : Nat) (b : List UInt8) : (refit junk size b).length = size := by
  rw [refit, List.length_append, List.length_take, List.length_map, List.length_range']
  omega

theorem refit_shrink {junk : Nat → UInt8} {u v : List UInt8} {size : Nat} (h : size = u.length) :
    refit junk size (u ++ v) = u := by
  subst h
  simp [refit]

theorem refit_grow (junk : Nat → UInt8) (u : List UInt8) {size n : Nat} (h : size = u.length + n) :
    ∃ v, v.length = n ∧ refit junk size u = u ++ v := by
  refine ⟨(List.range' u.length (size - u.length)).map junk, ?_, ?_⟩
  · rw [List.length_map, List.length_range']
    omega
  · rw [refit, List.take_of_length_le (by omega)]

/-- The front of a block stays when the block is not cut inside it. -/
theorem refit_append (junk : Nat → UInt8) (u v : List UInt8) (n : Nat) :
    refit junk (u.length + n) (u ++ v) = u ++ refit (fun i => junk (u.length + i)) n v := by
  have hrange : List.range' (u.length + v.length) (n - v.length) =
      (List.range' v.length (n - v.length)).map (u.length + ·) := (List.map_add_range' _ _ _).symm
  have hrest : u.length + n - (u.length + v.length) = n - v.length := by omega
  rw [refit, refit, List.take_length_add_append, List.length_append, hrest, hrange, List.map_map, List.append_assoc]
  rfl

variable {α : Type} {S : Multiset (Addr × List UInt8)} {Q : α → Mem (List UInt8) → Prop} {E : Fault → Prop}
variable {a : Addr} {b u v w : List UInt8} {off len : Nat}

/-- In a memory with P the program finds the given bytes and changes nothing. -/
def Yields (P : Mem (List UInt8) → Prop) (x : ByteM (List UInt8)) (bytes : List UInt8) : Prop :=
  ∀ m, P m → x m = .ok (bytes, m)

theorem spec_yields {P : Mem (List UInt8) → Prop} {x : ByteM (List UInt8)} {f : List UInt8 → ByteM α}
    (hx : Yields P x v) (h : Spec P (f v) Q E) : Spec P (x >>= f) Q E := by
  intro m hm
  change Ends (Except.bind (x m) _) Q E
  rw [hx m hm]
  exact h m hm

/-- Reading the middle of a block that is cut in three. -/
theorem yields_readAt (ha : (a, b) ∈ S) (hb : b = u ++ (v ++ w)) (hoff : off = u.length) (hlen : len = v.length) :
    Yields (Holds S) (readAt a off len) v := by
  subst hb hoff hlen
  intro m hm
  rw [readAt]
  change Except.bind (load a m) _ = _
  rw [load, hm.lookup ha]
  change (if (u ++ (v ++ w)).length < u.length + v.length then fail Fault.outOfBounds else _) m = _
  rw [if_neg (by simp), List.drop_left, List.take_left]
  rfl

theorem yields_fromBuffer {P : Mem (List UInt8) → Prop} (hb : b = u ++ (v ++ w)) (hoff : off = u.length)
    (hlen : len = v.length) : Yields P (fromBuffer b off len) v := by
  subst hb hoff hlen
  intro m _
  rw [fromBuffer, if_neg (by simp), List.drop_left, List.take_left]
  rfl

/-- Overwriting the middle of a block that is cut in three. -/
theorem spec_writeAt {f : Unit → ByteM α} {v' : List UInt8} (hb : b = u ++ (v ++ w)) (hoff : off = u.length)
    (hlen : v'.length = v.length) (h : Spec (Holds ((a, u ++ (v' ++ w)) ::ₘ S)) (f ()) Q E) :
    Spec (Holds ((a, b) ::ₘ S)) (writeAt a off v' >>= f) Q E := by
  subst hb hoff
  rw [writeAt, bind_assoc]
  apply spec_load_bind (Multiset.mem_cons_self _ _)
  rw [if_neg (by simp [hlen])]
  apply spec_store_bind
  rw [List.take_left, hlen, ← List.drop_drop, List.drop_left, List.drop_left, List.append_assoc]
  exact h

theorem spec_readAt_over {f : List UInt8 → ByteM α} (ha : (a, b) ∈ S) (hlen : b.length < off + len)
    (h : E .outOfBounds) : Spec (Holds S) (readAt a off len >>= f) Q E := by
  rw [readAt, bind_assoc]
  apply spec_load_bind ha
  rw [if_pos hlen]
  exact fun _ _ => h

theorem spec_writeAt_over {f : Unit → ByteM α} (ha : (a, b) ∈ S) (hlen : b.length < off + v.length)
    (h : E .outOfBounds) : Spec (Holds S) (writeAt a off v >>= f) Q E := by
  rw [writeAt, bind_assoc]
  apply spec_load_bind ha
  rw [if_pos hlen]
  exact fun _ _ => h

theorem spec_memcpy {f : Unit → ByteM α} {src : Source} {v' : List UInt8} (hb : b = u ++ (v ++ w)) (hoff : off = u.length)
    (hsrc : Yields (Holds ((a, b) ::ₘ S)) (src len) v') (hlen : v'.length = v.length)
    (h : Spec (Holds ((a, u ++ (v' ++ w)) ::ₘ S)) (f ()) Q E) :
    Spec (Holds ((a, b) ::ₘ S)) (memcpy a off src len >>= f) Q E := by
  rw [memcpy, bind_assoc]
  exact spec_yields hsrc (spec_writeAt hb hoff hlen h)

/-- The moved bytes may lie anywhere in the block, also where they are written to. -/
theorem spec_memmove {f : Unit → ByteM α} {dst src : Nat} {r s t : List UInt8} (hb : b = u ++ (v ++ w))
    (hsrc : src = u.length) (hlen : len = v.length) (hb' : b = r ++ (s ++ t)) (hdst : dst = r.length)
    (hlen' : v.length = s.length) (h : Spec (Holds ((a, r ++ (v ++ t)) ::ₘ S)) (f ()) Q E) :
    Spec (Holds ((a, b) ::ₘ S)) (memmove a dst src len >>= f) Q E := by
  rw [memmove, bind_assoc]
  exact spec_yields (yields_readAt (Multiset.mem_cons_self _ _) hb hsrc hlen) (spec_writeAt hb' hdst hlen' h)

theorem spec_mallocBytes {A : ByteAllocator} {size : Nat} {f : Addr → ByteM α} (hsize : size ≤ maxRequest)
    (h : ∀ x v, x ≠ 0 → v.length = size → Spec (Holds ((x, v) ::ₘ S)) (f x) Q E) :
    Spec (Holds S) (mallocBytes A size >>= f) Q E := by
  rw [mallocBytes]
  refine spec_malloc_bind (Or.inl hsize) (fun x g hx => ?_)
  have hall : size = ([] : List UInt8).length + size := (Nat.zero_add size).symm
  obtain ⟨v, hv, he⟩ := refit_grow (A.junk g) [] hall
  rw [he, List.nil_append]
  exact h x v hx hv

theorem spec_reallocBytes {A : ByteAllocator} {size : Nat} {f : Addr → ByteM α} (hsize : size ≤ maxRequest)
    (h : ∀ x g, x ≠ 0 → Spec (Holds ((x, refit (A.junk g) size b) ::ₘ S)) (f x) Q E) :
    Spec (Holds ((a, b) ::ₘ S)) (reallocBytes A a size >>= f) Q E :=
  spec_realloc_bind (Or.inl hsize) h

end StudyNotes.Heap.Bytes
