import StudyNotes.Codes.LittleEndian
import StudyNotes.Heap.Bytes
import StudyNotes.Radix.Node

namespace StudyNotes.Radix.ByteNode

open Heap.Program Heap.Bytes Codes.LittleEndian
open Node (u32 sizeSub headerSize blockSize)

/-- Subtraction of two 32-bit values. -/
def u32Sub (a b : Nat) : Nat := u32 (a + 2 ^ 32 - b)

def pointerSize : Nat := 8

def refcount (n : Addr) : ByteM Nat := do
  let bytes ← readAt n 0 4
  return decode bytes

def setRefcount (n : Addr) (value : Nat) : ByteM Unit := writeAt n 0 (encode 4 value)

def prefixLength (n : Addr) : ByteM Nat := do
  let bytes ← readAt n 4 4
  return decode bytes

def setPrefixLength (n : Addr) (value : Nat) : ByteM Unit := writeAt n 4 (encode 4 value)

def edgecount (n : Addr) : ByteM Nat := do
  let bytes ← readAt n 8 4
  return decode bytes

def setEdgecount (n : Addr) (value : Nat) : ByteM Unit := writeAt n 8 (encode 4 value)

/-- Pointers into a block are offsets from its start: this one is prefix() + j. -/
def prefixOffset (j : Nat) : Nat := headerSize + j

def firstBytes (n : Addr) : ByteM Nat := do
  let length ← prefixLength n
  return prefixOffset length

def nodePtrs (n : Addr) : ByteM Nat := do
  let length ← prefixLength n
  let count ← edgecount n
  return prefixOffset length + count

def setPrefix (n : Addr) (bytes : Source) : ByteM Unit := do
  let length ← prefixLength n
  memcpy n (prefixOffset 0) bytes length

def setFirstBytes (n : Addr) (bytes : Source) : ByteM Unit := do
  let off ← firstBytes n
  let count ← edgecount n
  memcpy n off bytes count

def setNodePtrs (n : Addr) (ptrs : Source) : ByteM Unit := do
  let off ← nodePtrs n
  let count ← edgecount n
  memcpy n off ptrs (count * pointerSize)

def byteAt (n : Addr) (off : Nat) : ByteM UInt8 := do
  let bytes ← readAt n off 1
  return bytes.headD 0

def firstByteAt (n : Addr) (i : Nat) : ByteM UInt8 := do
  let count ← edgecount n
  assert (i < count)
  let off ← firstBytes n
  byteAt n (off + i)

def setFirstByteAt (n : Addr) (i : Nat) (byte : UInt8) : ByteM Unit := do
  let count ← edgecount n
  assert (i < count)
  let off ← firstBytes n
  writeAt n (off + i) [byte]

def nodeAt (n : Addr) (i : Nat) : ByteM Addr := do
  let count ← edgecount n
  assert (i < count)
  let off ← nodePtrs n
  let bytes ← readAt n (off + i * pointerSize) pointerSize
  return decode bytes

def setNodeAt (n : Addr) (i : Nat) (x : Addr) : ByteM Unit := do
  let count ← edgecount n
  assert (i < count)
  let off ← nodePtrs n
  writeAt n (off + i * pointerSize) (encode pointerSize x)

def setEdgeAt (n : Addr) (i : Nat) (byte : UInt8) (x : Addr) : ByteM Unit := do
  setFirstByteAt n i byte
  setNodeAt n i x

def resize (A : ByteAllocator) (n : Addr) (bytes edges : Nat) : ByteM Addr := do
  let data ← reallocBytes A n (blockSize bytes edges)
  assert (data ≠ 0)
  setPrefixLength data bytes
  setEdgecount data edges
  return data

def makeNode (A : ByteAllocator) (refs bytes edges : Nat) : ByteM Addr := do
  let data ← mallocBytes A (blockSize bytes edges)
  assert (data ≠ 0)
  setRefcount data refs
  setPrefixLength data bytes
  setEdgecount data edges
  return data

/-- Make room for one more edge of the current node and link the new node. -/
def addEdge (A : ByteAllocator) (n : Addr) (byte : UInt8) (keyNode : Addr) : ByteM Addr := do
  let length ← prefixLength n
  let count ← edgecount n
  let n ← resize A n length (u32 (count + 1))
  let dst ← nodePtrs n
  let count ← edgecount n
  memmove n dst (dst - 1) (u32Sub count 1 * pointerSize)
  let count ← edgecount n
  setEdgeAt n (u32Sub count 1) byte keyNode
  return n

/-- The lines of insert that copy the tail of the current node to a new node. -/
def splitOff (A : ByteAllocator) (n : Addr) (j : Nat) : ByteM Addr := do
  let refs ← refcount n
  let length ← prefixLength n
  let count ← edgecount n
  makeNode A refs (sizeSub length j) count

def copyTail (n splitNode : Addr) (j : Nat) : ByteM Unit := do
  setPrefix splitNode (readAt n (prefixOffset j))
  let firsts ← firstBytes n
  setFirstBytes splitNode (readAt n firsts)
  let ptrs ← nodePtrs n
  setNodePtrs splitNode (readAt n ptrs)

/-- Split the current node where the key leaves its prefix. The new nodes for the
rest of the key and of the prefix are returned after it. -/
def forkNode (A : ByteAllocator) (n : Addr) (key : List UInt8) (size i j : Nat) : ByteM (Addr × Addr × Addr) := do
  let keyNode ← makeNode A 1 (sizeSub size i) 0
  let splitNode ← splitOff A n j
  setPrefix keyNode (fromBuffer key i)
  copyTail n splitNode j
  let n ← resize A n j 2
  setRefcount n 0
  let byte ← byteAt keyNode (prefixOffset 0)
  setEdgeAt n 0 byte keyNode
  let byte ← byteAt splitNode (prefixOffset 0)
  setEdgeAt n 1 byte splitNode
  return (n, keyNode, splitNode)

/-- Split the current node where the key ends inside its prefix. -/
def cutNode (A : ByteAllocator) (n : Addr) (j : Nat) : ByteM (Addr × Addr) := do
  let splitNode ← splitOff A n j
  copyTail n splitNode j
  let n ← resize A n j 1
  let byte ← byteAt splitNode (prefixOffset 0)
  setEdgeAt n 0 byte splitNode
  setRefcount n 1
  return (n, splitNode)

/-- Both merges of erase: n takes over the prefix, the edges and the reference
count of child. -/
def absorb (A : ByteAllocator) (n child : Addr) : ByteM Addr := do
  let oldLength ← prefixLength n
  let length ← prefixLength child
  let count ← edgecount child
  let n ← resize A n (u32 (oldLength + length)) count
  let length ← prefixLength child
  memcpy n (prefixOffset oldLength) (readAt child (prefixOffset 0)) length
  let firsts ← firstBytes child
  setFirstBytes n (readAt child firsts)
  let ptrs ← nodePtrs child
  setNodePtrs n (readAt child ptrs)
  let refs ← refcount child
  setRefcount n refs
  return n

/-- Merge a node with its single child. -/
def mergeChild (A : ByteAllocator) (n : Addr) : ByteM Addr := do
  let child ← nodeAt n 0
  let n ← absorb A n child
  free child
  return n

/-- Merge a node with the child that is left when the other one is removed. -/
def mergeOther (A : ByteAllocator) (n removed : Addr) (i : Nat) : ByteM Addr := do
  assert (i < 2)
  let otherChild ← nodeAt n (if i = 0 then 1 else 0)
  let n ← absorb A n otherChild
  free removed
  free otherChild
  return n

/-- Move the last edge to the place of edge i and delete the last one. -/
def removeEdge (A : ByteAllocator) (n : Addr) (i : Nat) : ByteM Addr := do
  let count ← edgecount n
  let lastIdx := u32Sub count 1
  let lastByte ← firstByteAt n lastIdx
  let lastPtr ← nodeAt n lastIdx
  setEdgeAt n i lastByte lastPtr
  let src ← nodePtrs n
  let count ← edgecount n
  memmove n (src - 1) src (count * pointerSize)
  let length ← prefixLength n
  let count ← edgecount n
  resize A n length (u32Sub count 1)

end StudyNotes.Radix.ByteNode
