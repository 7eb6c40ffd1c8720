import StudyNotes.Radix.ByteNode
import StudyNotes.Radix.Program

namespace StudyNotes.Radix.ByteTree

open Heap.Program Heap.Bytes ByteNode
open Node (u32 sizeSub)
open Program (RadixTree MatchResult)

def keyAt (key : List UInt8) (i : Nat) : ByteM UInt8 :=
  match key[i]? with
  | some c => pure c
  | none => fail .outOfBounds

def radixTree (A : ByteAllocator) : ByteM RadixTree := do
  let root ← makeNode A 0 0 0
  return ⟨root, 0⟩

/-- The inner loop of match, with the number of prefix bytes that are left. Nothing
is written inside of the loop, so the length in the header stays what it is. -/
def matchPrefix (n : Addr) (key : List UInt8) : Nat → Nat → Nat → ByteM (Nat × Nat)
  | 0, i, j => pure (i, j)
  | remaining + 1, i, j => do
      let c ← byteAt n (prefixOffset j)
      let k ← keyAt key i
      if c ≠ k then pure (i, j) else matchPrefix n key remaining (i + 1) (j + 1)

/-- The loop of match over the outgoing edges, from edge k on. -/
def findEdge (current : Addr) (key : List UInt8) (size i : Nat) : Nat → Nat → ByteM (Option Nat)
  | 0, _ => pure none
  | remaining + 1, k =>
      if i < size then do
        let byte ← firstByteAt current k
        let c ← keyAt key i
        if byte = c then pure (some k) else findEdge current key size i remaining (k + 1)
      else findEdge current key size i remaining (k + 1)

def matchLoop (key : List UInt8) (size : Nat) : Nat → MatchResult → ByteM MatchResult
  | 0, _ => fail .diverged
  | fuel + 1, s => do
      let current := s.currentNode
      let length ← prefixLength current
      let count ← edgecount current
      if (length > 0 ∨ count > 0) ∧ s.nkey < size then do
        let (i, j) ← matchPrefix current key length s.nkey 0
        if j ≠ length then pure { s with nkey := i, nPrefix := j }
        else
          match ← findEdge current key size i count 0 with
          | none => pure { s with nkey := i, nPrefix := j }
          | some k => do
              let next ← nodeAt current k
              if next = current then
                pure { s with nkey := i, nPrefix := j, gpEdgeIndex := s.edgeIndex, edgeIndex := k }
              else
                matchLoop key size fuel ⟨i, j, k, s.edgeIndex, next, current, s.parentNode⟩
      else pure s

def matchKey (t : RadixTree) (key : List UInt8) (size : Nat) : ByteM MatchResult := do
  assert (0 < size)
  matchLoop key size (size + 2) ⟨0, 0, 0, 0, t.root, t.root, t.root⟩

def insertEdge (A : ByteAllocator) (t : RadixTree) (key : List UInt8) (size : Nat)
    (r : MatchResult) : ByteM (Bool × RadixTree) := do
  let keyNode ← makeNode A 1 (sizeSub size r.nkey) 0
  setPrefix keyNode (fromBuffer key r.nkey)
  let byte ← keyAt key r.nkey
  let current ← addEdge A r.currentNode byte keyNode
  let length ← prefixLength current
  if length = 0 then return (true, ⟨current, t.size + 1⟩)
  else
    setNodeAt r.parentNode r.edgeIndex current
    return (true, ⟨t.root, t.size + 1⟩)

def insertSplit (A : ByteAllocator) (t : RadixTree) (key : List UInt8) (size : Nat)
    (r : MatchResult) : ByteM (Bool × RadixTree) := do
  let (current, _, _) ← forkNode A r.currentNode key size r.nkey r.nPrefix
  setNodeAt r.parentNode r.edgeIndex current
  return (true, ⟨t.root, t.size + 1⟩)

def insertPrefix (A : ByteAllocator) (t : RadixTree) (r : MatchResult) : ByteM (Bool × RadixTree) := do
  let (current, _) ← cutNode A r.currentNode r.nPrefix
  setNodeAt r.parentNode r.edgeIndex current
  return (true, ⟨t.root, t.size + 1⟩)

def insertCopy (t : RadixTree) (size : Nat) (r : MatchResult) : ByteM (Bool × RadixTree) := do
  assert (r.nkey = size)
  let length ← prefixLength r.currentNode
  assert (r.nPrefix = length)
  let refs ← refcount r.currentNode
  setRefcount r.currentNode (u32 (refs + 1))
  let refs ← refcount r.currentNode
  return (decide (refs = 1), ⟨t.root, t.size + 1⟩)

/-- The part of insert after the call to match. -/
def insertAt (A : ByteAllocator) (t : RadixTree) (key : List UInt8) (size : Nat) (r : MatchResult) :
    ByteM (Bool × RadixTree) := do
  let length ← prefixLength r.currentNode
  if r.nkey ≠ size then
    if r.nkey = 0 ∨ r.nPrefix = length then insertEdge A t key size r
    else insertSplit A t key size r
  else if r.nPrefix ≠ length then insertPrefix A t r
  else insertCopy t size r

def insert (A : ByteAllocator) (t : RadixTree) (key : List UInt8) (size : Nat) : ByteM (Bool × RadixTree) := do
  let r ← matchKey t key size
  insertAt A t key size r

def eraseMergeChild (A : ByteAllocator) (r : MatchResult) : ByteM Unit := do
  let current ← mergeChild A r.currentNode
  setNodeAt r.parentNode r.edgeIndex current

def eraseMergeParent (A : ByteAllocator) (r : MatchResult) : ByteM Unit := do
  let parent ← mergeOther A r.parentNode r.currentNode r.edgeIndex
  setNodeAt r.grandparentNode r.gpEdgeIndex parent

def eraseEdge (A : ByteAllocator) (t : RadixTree) (r : MatchResult) : ByteM RadixTree := do
  let parent ← removeEdge A r.parentNode r.edgeIndex
  free r.currentNode
  let length ← prefixLength parent
  if length = 0 then return { t with root := parent }
  else
    setNodeAt r.grandparentNode r.gpEdgeIndex parent
    return t

def eraseNode (A : ByteAllocator) (t : RadixTree) (r : MatchResult) : ByteM RadixTree := do
  let outgoing ← edgecount r.currentNode
  if outgoing > 1 then return t
  else if outgoing = 1 then
    eraseMergeChild A r
    return t
  else
    let count ← edgecount r.parentNode
    let refs ← refcount r.parentNode
    if count = 2 ∧ refs = 0 ∧ r.parentNode ≠ t.root then
      eraseMergeParent A r
      return t
    else
      assert (outgoing = 0)
      eraseEdge A t r

/-- The part of erase after the call to match. -/
def eraseFrom (A : ByteAllocator) (t : RadixTree) (size : Nat) (r : MatchResult) : ByteM (Bool × RadixTree) := do
  let length ← prefixLength r.currentNode
  let refs ← refcount r.currentNode
  if r.nkey ≠ size ∨ r.nPrefix ≠ length ∨ refs = 0 then return (false, t)
  else
    assert (r.parentNode ≠ r.currentNode)
    setRefcount r.currentNode (u32Sub refs 1)
    let refs ← refcount r.currentNode
    if refs > 0 then return (true, ⟨t.root, t.size - 1⟩)
    else
      let t ← eraseNode A ⟨t.root, t.size - 1⟩ r
      return (true, t)

def erase (A : ByteAllocator) (t : RadixTree) (key : List UInt8) (size : Nat) : ByteM (Bool × RadixTree) := do
  let r ← matchKey t key size
  eraseFrom A t size r

def contains (t : RadixTree) (key : List UInt8) (size : Nat) : ByteM Bool := do
  let r ← matchKey t key size
  let length ← prefixLength r.currentNode
  let refs ← refcount r.currentNode
  return decide (r.nkey = size ∧ r.nPrefix = length ∧ refs ≠ 0)

/-- The fuel bounds the depth of the tree. -/
def freeNodes : Nat → Addr → ByteM Unit
  | 0, _ => fail .diverged
  | fuel + 1, n => do
      let count ← edgecount n
      (List.range count).forM (fun i => do
        let child ← nodeAt n i
        freeNodes fuel child)
      free n

/-- The destructor of radix_tree. -/
def destroy (t : RadixTree) : ByteM Unit := do
  let bound ← liveBlocks
  freeNodes bound t.root

end StudyNotes.Radix.ByteTree
