import StudyNotes.Heap.Program
import Mathlib.Data.List.FinRange

namespace StudyNotes.Automaton.Program

open Heap.Program

/-- An index of next. MAXN is 127. -/
abbrev Letter := Fin 127

/-- A node of the automaton. Address 0 is null. The level in data is only printed. -/
@[ext]
structure TrieNode where
  ch : UInt8
  isWord : Nat
  isMarked : Nat
  failPtr : Addr
  next : Letter → Addr

abbrev TrieM := HeapM TrieNode

/-- The size of a node on a 64-bit target. -/
def nodeSize : Nat := 1048

/-- A char from 127 on, or a negative one, is no index of next. -/
def slot (c : UInt8) : TrieM Letter :=
  if h : c.toNat < 127 then pure ⟨c.toNat, h⟩ else fail .outOfBounds

def createNode (A : Allocator TrieNode) (ch : UInt8) : TrieM Addr :=
  malloc A nodeSize (fun _ => ⟨ch, 0, 0, 0, fun _ => 0⟩)

/-- One iteration of insert_tree. -/
def descend (A : Allocator TrieNode) (cur : Addr) (ch : UInt8) : TrieM Addr := do
  let i ← slot ch
  let node ← load cur
  if node.next i = 0 then do
    let child ← createNode A ch
    let node ← load cur
    store cur { node with next := Function.update node.next i child }
    return child
  else return node.next i

def insertTree (A : Allocator TrieNode) (root : Addr) (words : List UInt8) : TrieM Bool := do
  let cur ← words.foldlM (descend A) root
  let node ← load cur
  store cur { node with isWord := 1 }
  return true

/-- The loop of do_find_fail_ptr over the chain of failure pointers. -/
def failLoop (ch : UInt8) (defaultPtr : Addr) : Nat → Addr → TrieM Addr
  | 0, _ => fail .diverged
  | fuel + 1, ptrfail =>
      if ptrfail = 0 then pure defaultPtr
      else do
        let i ← slot ch
        let node ← load ptrfail
        if node.next i ≠ 0 then return node.next i
        else failLoop ch defaultPtr fuel node.failPtr

def doFindFailPtr (cur : Addr) (ch : UInt8) (defaultPtr : Addr) : TrieM Addr := do
  let node ← load cur
  let bound ← liveBlocks
  failLoop ch defaultPtr (bound + 1) node.failPtr

/-- The body of the for loop of build_fail_ptr. -/
def visitChild (root cur : Addr) (Q : List Addr) (i : Letter) : TrieM (List Addr) := do
  let node ← load cur
  if node.next i ≠ 0 then do
    let child ← load (node.next i)
    let f ← doFindFailPtr cur child.ch root
    let child ← load (node.next i)
    store (node.next i) { child with failPtr := f }
    return Q ++ [node.next i]
  else return Q

def bfsLoop (root : Addr) : Nat → List Addr → TrieM Unit
  | _, [] => pure ()
  | 0, _ :: _ => fail .diverged
  | fuel + 1, cur :: Q => do
      let Q ← (List.finRange 127).foldlM (visitChild root cur) Q
      bfsLoop root fuel Q

def buildFailPtr (root : Addr) : TrieM Bool := do
  let node ← load root
  store root { node with failPtr := 0 }
  let bound ← liveBlocks
  bfsLoop root bound [root]
  return true

def doCheckAndReturnCnt (cur : Addr) : TrieM Nat := do
  let node ← load cur
  if node.isWord ≠ 0 ∧ node.isMarked = 0 then do
    store cur { node with isMarked := 1 }
    return node.isWord
  else return 0

/-- Addition to the int iCount. -/
def addCount (count n : Nat) : TrieM Nat :=
  if count + n < 2 ^ 31 then pure (count + n) else fail .overflow

/-- The inner loop of search after a mismatch. -/
def unwind (root : Addr) : Nat → Addr → Nat → TrieM (Addr × Nat)
  | 0, _, _ => fail .diverged
  | fuel + 1, cur, count =>
      if cur ≠ root then do
        let node ← load cur
        let n ← doCheckAndReturnCnt node.failPtr
        let count ← addCount count n
        unwind root fuel node.failPtr count
      else pure (cur, count)

/-- One iteration of search, on cur and iCount. -/
def scanByte (root : Addr) (s : Addr × Nat) (ch : UInt8) : TrieM (Addr × Nat) := do
  let i ← slot ch
  let node ← load s.1
  if node.next i ≠ 0 then do
    let n ← doCheckAndReturnCnt (node.next i)
    let count ← addCount s.2 n
    return (node.next i, count)
  else do
    let bound ← liveBlocks
    unwind root (bound + 1) s.1 s.2

def search (root : Addr) (matchs : List UInt8) : TrieM Nat := do
  let s ← matchs.foldlM (scanByte root) (root, 0)
  return s.2

end StudyNotes.Automaton.Program
