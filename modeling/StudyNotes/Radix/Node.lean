import StudyNotes.Heap.Program

namespace StudyNotes.Radix.Node

open Heap.Program

/-- A node block: the header's reference count, the prefix chunk, and the two
edge chunks zipped into one list. The header's other two fields are the
lengths of these lists, so the casts that truncate them to 32 bits act on
the lists. -/
structure Block where
  refcount : UInt32
  prefixBytes : List UInt8
  edges : List (UInt8 × Addr)
deriving DecidableEq, Repr

abbrev NodeM := HeapM Block

def headerSize : Nat := 12

/-- The size computed by resize and make_node, in size_t arithmetic. -/
def blockSize (bytes edges : Nat) : Nat := (headerSize + bytes + edges * 9) % 2 ^ 64

/-- The static_cast to a 32-bit header field. -/
def u32 (n : Nat) : Nat := n % 2 ^ 32

/-- Subtraction of two size_t values. -/
def sizeSub (a b : Nat) : Nat := (a + 2 ^ 64 - b) % 2 ^ 64

def refcount (n : Addr) : NodeM UInt32 := do
  let b ← load n
  return b.refcount

def prefixLength (n : Addr) : NodeM Nat := do
  let b ← load n
  return b.prefixBytes.length

def edgecount (n : Addr) : NodeM Nat := do
  let b ← load n
  return b.edges.length

def prefixChunk (n : Addr) : NodeM (List UInt8) := do
  let b ← load n
  return b.prefixBytes

def firstBytes (n : Addr) : NodeM (List UInt8) := do
  let b ← load n
  return b.edges.map Prod.fst

def nodePtrs (n : Addr) : NodeM (List Addr) := do
  let b ← load n
  return b.edges.map Prod.snd

/-- Reading past the prefix chunk of a block finds a byte never written. -/
def prefixAt (A : Allocator Block) (n : Addr) (j : Nat) : NodeM UInt8 := do
  let b ← load n
  match b.prefixBytes[j]? with
  | some c => return c
  | none => garbage A

def edgeAt (n : Addr) (i : Nat) : NodeM (UInt8 × Addr) := do
  let b ← load n
  match b.edges[i]? with
  | some e => return e
  | none => fail .assertion

def firstByteAt (n : Addr) (i : Nat) : NodeM UInt8 := do
  let e ← edgeAt n i
  return e.1

def nodeAt (n : Addr) (i : Nat) : NodeM Addr := do
  let e ← edgeAt n i
  return e.2

def setRefcount (n : Addr) (value : UInt32) : NodeM Unit := do
  let b ← load n
  store n { b with refcount := value }

def updateEdge (n : Addr) (i : Nat) (f : UInt8 × Addr → UInt8 × Addr) : NodeM Unit := do
  let b ← load n
  assert (i < b.edges.length)
  store n { b with edges := b.edges.modify i f }

def setFirstByteAt (n : Addr) (i : Nat) (byte : UInt8) : NodeM Unit :=
  updateEdge n i (fun e => (byte, e.2))

def setNodeAt (n : Addr) (i : Nat) (x : Addr) : NodeM Unit :=
  updateEdge n i (fun e => (e.1, x))

def setEdgeAt (n : Addr) (i : Nat) (byte : UInt8) (x : Addr) : NodeM Unit := do
  setFirstByteAt n i byte
  setNodeAt n i x

/-- The memcpy reads as many source bytes as the prefix has. -/
def setPrefix (n : Addr) (bytes : List UInt8) : NodeM Unit := do
  let b ← load n
  if bytes.length < b.prefixBytes.length then fail .outOfBounds
  else store n { b with prefixBytes := bytes.take b.prefixBytes.length }

/-- The memcpy to prefix() + off used by both merges of erase. -/
def copyPrefixAt (n : Addr) (off : Nat) (bytes : List UInt8) : NodeM Unit := do
  let b ← load n
  if b.prefixBytes.length < off + bytes.length then fail .outOfBounds
  else store n { b with
    prefixBytes := b.prefixBytes.take off ++ bytes ++ b.prefixBytes.drop (off + bytes.length) }

def setFirstBytes (n : Addr) (bytes : List UInt8) : NodeM Unit := do
  let b ← load n
  if bytes.length < b.edges.length then fail .outOfBounds
  else store n { b with edges := List.zipWith (fun c e => (c, e.2)) bytes b.edges }

def setNodePtrs (n : Addr) (ptrs : List Addr) : NodeM Unit := do
  let b ← load n
  if ptrs.length < b.edges.length then fail .outOfBounds
  else store n { b with edges := List.zipWith (fun x e => (e.1, x)) ptrs b.edges }

/-- The reallocated block keeps its leading prefix bytes. Its edges are kept
as well: insert and erase, the only callers that rely on them, move the
pointer chunk by one byte next to the call, and the other callers overwrite
every edge. New bytes are unwritten. -/
def resize (A : Allocator Block) (n : Addr) (bytes edges : Nat) : NodeM Addr := do
  let data ← realloc A n (blockSize bytes edges) (fun g b =>
    ⟨b.refcount, b.prefixBytes.takeD (u32 bytes) g, b.edges.takeD (u32 edges) (g, 0)⟩)
  assert (data ≠ 0)
  return data

/-- A block too small for its header is overrun when the header is written. -/
def makeNode (A : Allocator Block) (refs bytes edges : Nat) : NodeM Addr := do
  if blockSize bytes edges < headerSize then fail .outOfBounds
  else
    let data ← malloc A (blockSize bytes edges) (fun g =>
      ⟨UInt32.ofNat refs, List.replicate (u32 bytes) g, List.replicate (u32 edges) (g, 0)⟩)
    assert (data ≠ 0)
    return data

end StudyNotes.Radix.Node
