import StudyNotes.Radix.Node

namespace StudyNotes.Radix.Program

open Heap.Program Node

/-- The members of class radix_tree. -/
structure RadixTree where
  root : Addr
  size : UInt64
deriving DecidableEq, Repr

structure MatchResult where
  nkey : Nat
  nPrefix : Nat
  edgeIndex : Nat
  gpEdgeIndex : Nat
  currentNode : Addr
  parentNode : Addr
  grandparentNode : Addr
deriving DecidableEq, Repr

def keyAt (key : List UInt8) (i : Nat) : NodeM UInt8 :=
  match key[i]? with
  | some c => pure c
  | none => fail .outOfBounds

def radixTree (A : Allocator Block) : NodeM RadixTree := do
  let root ← makeNode A 0 0 0
  return ⟨root, 0⟩

/-- The inner loop of match over the prefix chunk of the current node. It is
bounded by the prefix only, not by the size of the key. -/
def matchPrefix (key : List UInt8) : List UInt8 → Nat → Nat → NodeM (Nat × Nat)
  | [], i, j => pure (i, j)
  | c :: cs, i, j => do
      let k ← keyAt key i
      if c ≠ k then pure (i, j) else matchPrefix key cs (i + 1) (j + 1)

/-- The loop of match over the outgoing edges, from edge k on. -/
def findEdge (current : Addr) (key : List UInt8) (size i : Nat) : Nat → Nat → NodeM (Option Nat)
  | 0, _ => pure none
  | remaining + 1, k =>
      if i < size then do
        let byte ← firstByteAt current k
        let c ← keyAt key i
        if byte = c then pure (some k) else findEdge current key size i remaining (k + 1)
      else findEdge current key size i remaining (k + 1)

def matchLoop (key : List UInt8) (size : Nat) : Nat → MatchResult → NodeM MatchResult
  | 0, _ => fail .diverged
  | fuel + 1, s => do
      let current := s.currentNode
      let length ← prefixLength current
      let count ← edgecount current
      if (length > 0 ∨ count > 0) ∧ s.nkey < size then do
        let bytes ← prefixChunk current
        let (i, j) ← matchPrefix key bytes s.nkey 0
        if j ≠ length then pure { s with nkey := i, nPrefix := j }
        else
          match ← findEdge current key size i count 0 with
          | none => pure { s with nkey := i, nPrefix := j }
          | some k => do
              let next ← nodeAt current k
              if next = current then
                pure { s with nkey := i, nPrefix := j, gpEdgeIndex := s.edgeIndex, edgeIndex := k }
              else
                matchLoop key size fuel ⟨i, j, k, s.edgeIndex, next, current, s.parentNode⟩
      else pure s

/-- Every iteration after the one at the root consumes a byte of the key. -/
def matchKey (t : RadixTree) (key : List UInt8) (size : Nat) : NodeM MatchResult := do
  assert (0 < size)
  matchLoop key size (size + 2) ⟨0, 0, 0, 0, t.root, t.root, t.root⟩

/-- First case of insert: the mismatch is at one of the outgoing edges. -/
def insertEdge (A : Allocator Block) (t : RadixTree) (key : List UInt8) (size : Nat)
    (r : MatchResult) : NodeM (Bool × RadixTree) := do
  let keyNode ← makeNode A 1 (sizeSub size r.nkey) 0
  setPrefix keyNode (key.drop r.nkey)
  let length ← prefixLength r.currentNode
  let count ← edgecount r.currentNode
  let current ← resize A r.currentNode length (count + 1)
  let count ← edgecount current
  let byte ← keyAt key r.nkey
  setEdgeAt current (count - 1) byte keyNode
  let length ← prefixLength current
  if length = 0 then return (true, ⟨current, t.size + 1⟩)
  else
    setNodeAt r.parentNode r.edgeIndex current
    return (true, ⟨t.root, t.size + 1⟩)

/-- A new node with the prefix of the given one from byte j on and its edges. -/
def splitOff (A : Allocator Block) (current : Addr) (j : Nat) : NodeM Addr := do
  let refs ← refcount current
  let length ← prefixLength current
  let count ← edgecount current
  makeNode A refs.toNat (sizeSub length j) count

def copyTail (current splitNode : Addr) (j : Nat) : NodeM Unit := do
  let bytes ← prefixChunk current
  setPrefix splitNode (bytes.drop j)
  let firsts ← firstBytes current
  setFirstBytes splitNode firsts
  let ptrs ← nodePtrs current
  setNodePtrs splitNode ptrs

/-- Second case of insert: the mismatch is inside the prefix. -/
def insertSplit (A : Allocator Block) (t : RadixTree) (key : List UInt8) (size : Nat)
    (r : MatchResult) : NodeM (Bool × RadixTree) := do
  let keyNode ← makeNode A 1 (sizeSub size r.nkey) 0
  let splitNode ← splitOff A r.currentNode r.nPrefix
  setPrefix keyNode (key.drop r.nkey)
  copyTail r.currentNode splitNode r.nPrefix
  let current ← resize A r.currentNode r.nPrefix 2
  setRefcount current 0
  let byte ← prefixAt A keyNode 0
  setEdgeAt current 0 byte keyNode
  let byte ← prefixAt A splitNode 0
  setEdgeAt current 1 byte splitNode
  setNodeAt r.parentNode r.edgeIndex current
  return (true, ⟨t.root, t.size + 1⟩)

/-- Third case of insert: the key ends inside the prefix. -/
def insertPrefix (A : Allocator Block) (t : RadixTree) (r : MatchResult) :
    NodeM (Bool × RadixTree) := do
  let splitNode ← splitOff A r.currentNode r.nPrefix
  copyTail r.currentNode splitNode r.nPrefix
  let current ← resize A r.currentNode r.nPrefix 1
  let byte ← prefixAt A splitNode 0
  setEdgeAt current 0 byte splitNode
  setRefcount current 1
  setNodeAt r.parentNode r.edgeIndex current
  return (true, ⟨t.root, t.size + 1⟩)

/-- Last case of insert: the key is spelled by the current node. -/
def insertCopy (t : RadixTree) (size : Nat) (r : MatchResult) : NodeM (Bool × RadixTree) := do
  assert (r.nkey = size)
  let length ← prefixLength r.currentNode
  assert (r.nPrefix = length)
  let refs ← refcount r.currentNode
  setRefcount r.currentNode (refs + 1)
  let refs ← refcount r.currentNode
  return (decide (refs = 1), ⟨t.root, t.size + 1⟩)

def insert (A : Allocator Block) (t : RadixTree) (key : List UInt8) (size : Nat) :
    NodeM (Bool × RadixTree) := do
  let r ← matchKey t key size
  let length ← prefixLength r.currentNode
  if r.nkey ≠ size then
    if r.nkey = 0 ∨ r.nPrefix = length then insertEdge A t key size r
    else insertSplit A t key size r
  else if r.nPrefix ≠ length then insertPrefix A t r
  else insertCopy t size r

/-- Both merges of erase: n takes over the prefix, the edges and the reference
count of child. -/
def absorb (A : Allocator Block) (n child : Addr) : NodeM Addr := do
  let oldLength ← prefixLength n
  let length ← prefixLength child
  let count ← edgecount child
  let n ← resize A n (u32 (oldLength + length)) count
  let bytes ← prefixChunk child
  copyPrefixAt n oldLength bytes
  let firsts ← firstBytes child
  setFirstBytes n firsts
  let ptrs ← nodePtrs child
  setNodePtrs n ptrs
  let refs ← refcount child
  setRefcount n refs
  return n

/-- Merge the current node with its single child. -/
def eraseMergeChild (A : Allocator Block) (r : MatchResult) : NodeM Unit := do
  let child ← nodeAt r.currentNode 0
  let current ← absorb A r.currentNode child
  free child
  setNodeAt r.parentNode r.edgeIndex current

/-- Merge the parent with the sibling of the removed node. -/
def eraseMergeParent (A : Allocator Block) (r : MatchResult) : NodeM Unit := do
  assert (r.edgeIndex < 2)
  let otherChild ← nodeAt r.parentNode (if r.edgeIndex = 0 then 1 else 0)
  let parent ← absorb A r.parentNode otherChild
  free r.currentNode
  free otherChild
  setNodeAt r.grandparentNode r.gpEdgeIndex parent

/-- Remove the edge from the parent by moving the last one into its place. -/
def eraseEdge (A : Allocator Block) (t : RadixTree) (r : MatchResult) : NodeM RadixTree := do
  let count ← edgecount r.parentNode
  let lastByte ← firstByteAt r.parentNode (count - 1)
  let lastPtr ← nodeAt r.parentNode (count - 1)
  setEdgeAt r.parentNode r.edgeIndex lastByte lastPtr
  let length ← prefixLength r.parentNode
  let count ← edgecount r.parentNode
  let parent ← resize A r.parentNode length (count - 1)
  free r.currentNode
  let length ← prefixLength parent
  if length = 0 then return { t with root := parent }
  else
    setNodeAt r.grandparentNode r.gpEdgeIndex parent
    return t

/-- The structural part of erase, once the reference count has dropped to 0. -/
def eraseNode (A : Allocator Block) (t : RadixTree) (r : MatchResult) : NodeM RadixTree := do
  let outgoing ← edgecount r.currentNode
  if outgoing > 1 then return t
  else if outgoing = 1 then
    eraseMergeChild A r
    return t
  else
    let count ← edgecount r.parentNode
    let refs ← refcount r.parentNode
    if count = 2 ∧ refs = 0 ∧ r.parentNode ≠ t.root then
      eraseMergeParent A r
      return t
    else
      assert (outgoing = 0)
      eraseEdge A t r

def erase (A : Allocator Block) (t : RadixTree) (key : List UInt8) (size : Nat) :
    NodeM (Bool × RadixTree) := do
  let r ← matchKey t key size
  let length ← prefixLength r.currentNode
  let refs ← refcount r.currentNode
  if r.nkey ≠ size ∨ r.nPrefix ≠ length ∨ refs = 0 then return (false, t)
  else
    assert (r.parentNode ≠ r.currentNode)
    setRefcount r.currentNode (refs - 1)
    let refs ← refcount r.currentNode
    if refs > 0 then return (true, ⟨t.root, t.size - 1⟩)
    else
      let t ← eraseNode A ⟨t.root, t.size - 1⟩ r
      return (true, t)

def contains (t : RadixTree) (key : List UInt8) (size : Nat) : NodeM Bool := do
  let r ← matchKey t key size
  let length ← prefixLength r.currentNode
  let refs ← refcount r.currentNode
  return decide (r.nkey = size ∧ r.nPrefix = length ∧ refs ≠ 0)

/-- The destructor's recursion; the fuel bounds the depth of the tree. -/
def freeNodes : Nat → Addr → NodeM Unit
  | 0, _ => fail .diverged
  | fuel + 1, n => do
      let count ← edgecount n
      (List.range count).forM (fun i => do
        let child ← nodeAt n i
        freeNodes fuel child)
      free n

/-- Popping an empty vector is undefined. -/
def popBack (buffer : List UInt8) : NodeM (List UInt8) :=
  if buffer = [] then fail .outOfBounds else pure buffer.dropLast

/-- Together with arg the recursion passes on the vector shared by all calls; the
fuel bounds the depth of the tree. The callback gets the bytes and the size of
the vector. -/
def visitKeys {σ : Type} (A : Allocator Block) (func : List UInt8 → Nat → σ → σ) :
    Nat → Addr → List UInt8 → σ → NodeM (List UInt8 × σ)
  | 0, _, _, _ => fail .diverged
  | fuel + 1, n, buffer, arg => do
      let length ← prefixLength n
      let buffer ← (List.range length).foldlM (fun buffer i => do
        let c ← prefixAt A n i
        return buffer ++ [c]) buffer
      let refs ← refcount n
      let arg := if refs > 0 then func buffer buffer.length arg else arg
      let count ← edgecount n
      let s ← (List.range count).foldlM (fun s i => do
        let child ← nodeAt n i
        visitKeys A func fuel child s.1 s.2) (buffer, arg)
      let length ← prefixLength n
      let buffer ← (List.range length).foldlM (fun buffer _ => popBack buffer) s.1
      return (buffer, s.2)

def apply {σ : Type} (A : Allocator Block) (t : RadixTree) (func : List UInt8 → Nat → σ → σ) (arg : σ) : NodeM σ := do
  let bound ← liveBlocks
  let s ← visitKeys A func bound t.root [] arg
  return s.2

end StudyNotes.Radix.Program
