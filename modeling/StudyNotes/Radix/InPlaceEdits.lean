import StudyNotes.Radix.EraseSpec
import StudyNotes.Radix.LayoutEdits

namespace StudyNotes.Radix.InPlaceEdits

open Heap.Program Heap.Triple Heap.Bytes Node Program KeyTree Layout

section Lines

variable (A : Allocator Block)

/-- The lines of insertEdge that add the edge. -/
def appendLines (n : Addr) (byte : UInt8) (keyNode : Addr) : NodeM Addr := do
  let length ← prefixLength n
  let count ← edgecount n
  let n ← resize A n length (count + 1)
  let count ← edgecount n
  setEdgeAt n (count - 1) byte keyNode
  return n

/-- The lines of eraseEdge that remove the edge. -/
def removeLines (n : Addr) (i : Nat) : NodeM Addr := do
  let count ← edgecount n
  let lastByte ← firstByteAt n (count - 1)
  let lastPtr ← nodeAt n (count - 1)
  setEdgeAt n i lastByte lastPtr
  let length ← prefixLength n
  let count ← edgecount n
  resize A n length (count - 1)

/-- The lines of insertSplit before the pointer to the node is repaired. -/
def forkLines (n : Addr) (key : List UInt8) (size i j : Nat) : NodeM (Addr × Addr × Addr) := do
  let keyNode ← makeNode A 1 (sizeSub size i) 0
  let splitNode ← splitOff A n j
  setPrefix keyNode (key.drop i)
  copyTail n splitNode j
  let n ← resize A n j 2
  setRefcount n 0
  let byte ← prefixAt A keyNode 0
  setEdgeAt n 0 byte keyNode
  let byte ← prefixAt A splitNode 0
  setEdgeAt n 1 byte splitNode
  return (n, keyNode, splitNode)

/-- The lines of insertPrefix before the pointer to the node is repaired. -/
def cutLines (n : Addr) (j : Nat) : NodeM (Addr × Addr) := do
  let splitNode ← splitOff A n j
  copyTail n splitNode j
  let n ← resize A n j 1
  let byte ← prefixAt A splitNode 0
  setEdgeAt n 0 byte splitNode
  setRefcount n 1
  return (n, splitNode)

/-- The lines of eraseMergeChild before the pointer to the node is repaired. -/
def mergeChildLines (n : Addr) : NodeM Addr := do
  let child ← nodeAt n 0
  let n ← absorb A n child
  free child
  return n

/-- The lines of eraseMergeParent before the pointer to the node is repaired. -/
def mergeOtherLines (n removed : Addr) (i : Nat) : NodeM Addr := do
  assert (i < 2)
  let otherChild ← nodeAt n (if i = 0 then 1 else 0)
  let n ← absorb A n otherChild
  free removed
  free otherChild
  return n

/-- Where insert and erase have these lines. -/
structure InTree : Prop where
  insertEdge : ∀ (t : RadixTree) (key : List UInt8) (size : Nat) (r : MatchResult) (y : UInt8), keyAt key r.nkey = pure y →
    Program.insertEdge A t key size r = (do
      let keyNode ← makeNode A 1 (sizeSub size r.nkey) 0
      setPrefix keyNode (key.drop r.nkey)
      let current ← appendLines A r.currentNode y keyNode
      let length ← prefixLength current
      if length = 0 then return (true, ⟨current, t.size + 1⟩)
      else
        setNodeAt r.parentNode r.edgeIndex current
        return (true, ⟨t.root, t.size + 1⟩))
  insertSplit : ∀ (t : RadixTree) (key : List UInt8) (size : Nat) (r : MatchResult),
    Program.insertSplit A t key size r = (do
      let s ← forkLines A r.currentNode key size r.nkey r.nPrefix
      setNodeAt r.parentNode r.edgeIndex s.1
      return (true, ⟨t.root, t.size + 1⟩))
  insertPrefix : ∀ (t : RadixTree) (r : MatchResult),
    Program.insertPrefix A t r = (do
      let s ← cutLines A r.currentNode r.nPrefix
      setNodeAt r.parentNode r.edgeIndex s.1
      return (true, ⟨t.root, t.size + 1⟩))
  eraseEdge : ∀ (t : RadixTree) (r : MatchResult),
    Program.eraseEdge A t r = (do
      let parent ← removeLines A r.parentNode r.edgeIndex
      free r.currentNode
      let length ← prefixLength parent
      if length = 0 then return { t with root := parent }
      else
        setNodeAt r.grandparentNode r.gpEdgeIndex parent
        return t)
  eraseMergeChild : ∀ r : MatchResult,
    Program.eraseMergeChild A r = (do
      let current ← mergeChildLines A r.currentNode
      setNodeAt r.parentNode r.edgeIndex current)
  eraseMergeParent : ∀ r : MatchResult,
    Program.eraseMergeParent A r = (do
      let parent ← mergeOtherLines A r.parentNode r.currentNode r.edgeIndex
      setNodeAt r.grandparentNode r.gpEdgeIndex parent)

theorem lines_inTree : InTree A where
  insertEdge t key size r y hy := by simp only [Program.insertEdge, appendLines, hy, bind_assoc, pure_bind]
  insertSplit t key size r := by simp only [Program.insertSplit, forkLines, bind_assoc, pure_bind]
  insertPrefix t r := by simp only [Program.insertPrefix, cutLines, bind_assoc, pure_bind]
  eraseEdge t r := by simp only [Program.eraseEdge, removeLines, bind_assoc]
  eraseMergeChild r := by simp only [Program.eraseMergeChild, mergeChildLines, bind_assoc, pure_bind]
  eraseMergeParent r := by simp only [Program.eraseMergeParent, mergeOtherLines, bind_assoc, pure_bind]

end Lines

/-- The bytes of the given nodes. -/
def laid (B : Multiset (Addr × Block)) : Multiset (Addr × List UInt8) := B.map (fun c => (c.1, layout c.2))

@[simp] theorem laid_cons (a : Addr) (b : Block) (B : Multiset (Addr × Block)) :
    laid ((a, b) ::ₘ B) = (a, layout b) ::ₘ laid B := Multiset.map_cons _ _ _

@[simp] theorem laid_single (a : Addr) (b : Block) : laid {(a, b)} = {(a, layout b)} := Multiset.map_singleton _ _

theorem forall_single {P : Addr × Block → Prop} {c : Addr × Block} :
    (∀ d ∈ ({c} : Multiset (Addr × Block)), P d) ↔ P c := by
  simp only [Multiset.mem_singleton, forall_eq]

/-- One program on blocks and one on bytes take the same nodes to the same nodes
and touch nothing else. -/
structure SameEdit {α : Type} (x : NodeM α) (y : ByteM α) (before : Multiset (Addr × Block))
    (after : α → Multiset (Addr × Block)) : Prop where
  blocks : ∀ S, Spec (Holds (before + S)) x (fun r => Holds (after r + S)) (fun _ => False)
  bytes : ∀ F, Spec (Holds (laid before + F)) y (fun r => Holds (laid (after r) + F)) (fun _ => False)

section Edits

variable {A : Allocator Block} {B : ByteAllocator} {n : Addr} {rc : UInt32} {p : List UInt8} {es : List (UInt8 × Addr)}

theorem append_sameEdit {y : UInt8} {x : Addr} (hb : Fits ⟨rc, p, es⟩) (hroom : es.length + 1 < 2 ^ 32) :
    SameEdit (appendLines A n y x) (ByteNode.addEdge B n y x) {(n, ⟨rc, p, es⟩)}
      (fun n' => {(n', ⟨rc, p, es ++ [(y, x)]⟩)}) where
  blocks S := by
    have hp : p.length < 2 ^ 32 := hb.prefix_lt
    rw [appendLines, Multiset.singleton_add]
    apply NodeSpec.spec_prefixLength (Multiset.mem_cons_self _ _)
    apply NodeSpec.spec_edgecount (Multiset.mem_cons_self _ _)
    apply NodeSpec.spec_resize (Or.inl (NodeSpec.blockSize_small (by dsimp only; omega) (by dsimp only; omega)).2)
    intro n' g
    dsimp only
    rw [NodeSpec.u32_of_lt hp, NodeSpec.u32_of_lt hroom, InsertSpec.takeD_grow, ← Nat.add_zero p.length,
      InsertSpec.takeD_grow, List.replicate_zero, List.append_nil]
    apply NodeSpec.spec_edgecount (Multiset.mem_cons_self _ _)
    apply NodeSpec.spec_setEdgeAt (l := es) (r := []) (by simp)
    exact spec_pure (fun m hm => hm)
  bytes F := by
    rw [laid_single, Multiset.singleton_add, ← bind_pure (ByteNode.addEdge B n y x)]
    refine LayoutEdits.spec_addEdge hb hroom (fun n' => spec_pure (fun m hm => ?_))
    rwa [laid_single, Multiset.singleton_add]

theorem remove_sameEdit {l r : List (UInt8 × Addr)} {e : UInt8 × Addr} (hb : Fits ⟨rc, p, l ++ e :: r⟩) :
    SameEdit (removeLines A n l.length) (ByteNode.removeEdge B n l.length) {(n, ⟨rc, p, l ++ e :: r⟩)}
      (fun n' => {(n', ⟨rc, p, swapRemove l.length (l ++ e :: r)⟩)}) where
  blocks S := by
    have hp : p.length < 2 ^ 32 := hb.prefix_lt
    have hcount : (l ++ e :: r).length < 2 ^ 32 := hb.edges_lt
    obtain ⟨z, init, hinit, hswap⟩ := LayoutEdits.swap_last l e r
    have hlast : (l ++ e :: r)[(l ++ e :: r).length - 1]? = some z := by
      rw [hinit, List.length_append, List.length_singleton, Nat.add_sub_cancel]
      simp
    rw [removeLines, Multiset.singleton_add]
    apply NodeSpec.spec_edgecount (Multiset.mem_cons_self _ _)
    apply NodeSpec.spec_firstByteAt (Multiset.mem_cons_self _ _) hlast
    apply NodeSpec.spec_nodeAt (Multiset.mem_cons_self _ _) hlast
    apply NodeSpec.spec_setEdgeAt rfl
    have hlen := LayoutEdits.swapRemove_length l e r
    rw [hswap]
    generalize swapRemove l.length (l ++ e :: r) = es' at hlen ⊢
    apply NodeSpec.spec_prefixLength (Multiset.mem_cons_self _ _)
    apply NodeSpec.spec_edgecount (Multiset.mem_cons_self _ _)
    dsimp only
    rw [List.length_append, List.length_singleton, Nat.add_sub_cancel, ← bind_pure (resize A n p.length es'.length)]
    apply NodeSpec.spec_resize (Or.inl (NodeSpec.blockSize_small (by omega) (by omega)).2)
    intro n' g
    dsimp only
    rw [NodeSpec.u32_of_lt hp, NodeSpec.u32_of_lt (by omega), List.takeD_left, ← Nat.add_zero p.length,
      InsertSpec.takeD_grow, List.replicate_zero, List.append_nil]
    exact spec_pure (fun m hm => hm)
  bytes F := by
    rw [laid_single, Multiset.singleton_add, ← bind_pure (ByteNode.removeEdge B n l.length)]
    refine LayoutEdits.spec_removeEdge hb rfl (fun n' => spec_pure (fun m hm => ?_))
    rwa [laid_single, Multiset.singleton_add]

theorem fork_sameEdit {c q u rest w : List UInt8} {x y : UInt8} (hb : Fits ⟨rc, c ++ x :: q, es⟩)
    (hrest : (y :: rest).length < 2 ^ 32) :
    SameEdit (forkLines A n (u ++ (y :: rest ++ w)) (u.length + (y :: rest).length) u.length c.length)
      (ByteNode.forkNode B n (u ++ (y :: rest ++ w)) (u.length + (y :: rest).length) u.length c.length)
      {(n, ⟨rc, c ++ x :: q, es⟩)}
      (fun r => {(r.1, ⟨0, c, [(y, r.2.1), (x, r.2.2)]⟩), (r.2.2, ⟨rc, x :: q, es⟩), (r.2.1, ⟨1, y :: rest, []⟩)}) where
  blocks S := by
    have hp : (c ++ x :: q).length < 2 ^ 32 := hb.prefix_lt
    have hc : c.length < 2 ^ 32 := hb.front
    have hkey : sizeSub (u.length + (y :: rest).length) u.length = (y :: rest).length := by
      rw [NodeSpec.sizeSub_of_le (by omega) (by omega), Nat.add_sub_cancel_left]
    have hleaf : headerSize ≤ blockSize (y :: rest).length 0 ∧ blockSize (y :: rest).length 0 ≤ maxRequest :=
      NodeSpec.blockSize_small (by omega) (by omega)
    rw [forkLines, Multiset.singleton_add, hkey]
    apply NodeSpec.spec_makeNode (Or.inl hleaf.1) (Or.inl hleaf.2)
    intro _ _ k g
    rw [NodeSpec.u32_of_lt hrest]
    apply InsertSpec.spec_splitOff (Multiset.mem_cons_of_mem (Multiset.mem_cons_self _ _)) (by simp) hp hb.edges_lt
    intro s g₂
    rw [Multiset.cons_swap]
    apply NodeSpec.spec_setPrefix (by simp)
    rw [Multiset.cons_swap]
    apply InsertSpec.spec_copyTail (Multiset.mem_cons_of_mem (Multiset.mem_cons_self _ _)) (by simp) (by simp)
    rw [List.drop_left, List.drop_left, InsertSpec.cons_rotate]
    apply NodeSpec.spec_resize (Or.inl (NodeSpec.blockSize_small (by omega) (by omega)).2)
    intro n' g₃
    dsimp only
    rw [NodeSpec.u32_of_lt hc, NodeSpec.u32_of_lt (by omega), List.takeD_left, List.length_replicate, List.take_left]
    obtain ⟨e₁, e₂, he⟩ := List.length_eq_two.mp (List.takeD_length 2 es (g₃, 0))
    rw [he]
    apply NodeSpec.spec_setRefcount
    apply NodeSpec.spec_prefixAt (c := y)
      (Multiset.mem_cons_of_mem (Multiset.mem_cons_of_mem (Multiset.mem_cons_self _ _))) rfl
    apply NodeSpec.spec_setEdgeAt (l := []) (r := [e₂]) rfl
    apply NodeSpec.spec_prefixAt (c := x) (Multiset.mem_cons_of_mem (Multiset.mem_cons_self _ _)) rfl
    apply NodeSpec.spec_setEdgeAt (l := [(y, k)]) (r := []) rfl
    refine spec_pure (fun m hm => ?_)
    simp only [Multiset.insert_eq_cons, Multiset.cons_add, Multiset.singleton_add]
    exact hm
  bytes F := by
    rw [laid_single, Multiset.singleton_add, ← bind_pure (ByteNode.forkNode B n _ _ _ _)]
    refine LayoutEdits.spec_forkNode hb hrest rfl rfl rfl (fun n' k s => spec_pure (fun m hm => ?_))
    simp only [Multiset.insert_eq_cons, laid_cons, laid_single, Multiset.cons_add, Multiset.singleton_add]
    exact hm

theorem cut_sameEdit {c q : List UInt8} {x : UInt8} (hb : Fits ⟨rc, c ++ x :: q, es⟩) :
    SameEdit (cutLines A n c.length) (ByteNode.cutNode B n c.length) {(n, ⟨rc, c ++ x :: q, es⟩)}
      (fun r => {(r.1, ⟨1, c, [(x, r.2)]⟩), (r.2, ⟨rc, x :: q, es⟩)}) where
  blocks S := by
    have hp : (c ++ x :: q).length < 2 ^ 32 := hb.prefix_lt
    have hc : c.length < 2 ^ 32 := hb.front
    rw [cutLines, Multiset.singleton_add]
    apply InsertSpec.spec_splitOff (Multiset.mem_cons_self _ _) (by simp) hp hb.edges_lt
    intro s g
    apply InsertSpec.spec_copyTail (Multiset.mem_cons_self _ _) (by simp) (by simp)
    rw [List.drop_left, Multiset.cons_swap]
    apply NodeSpec.spec_resize (Or.inl (NodeSpec.blockSize_small (by omega) (by omega)).2)
    intro n' g₂
    dsimp only
    rw [NodeSpec.u32_of_lt hc, NodeSpec.u32_of_lt (by omega), List.takeD_left]
    obtain ⟨e, he⟩ := List.length_eq_one_iff.mp (List.takeD_length 1 es (g₂, 0))
    rw [he]
    apply NodeSpec.spec_prefixAt (c := x) (Multiset.mem_cons_of_mem (Multiset.mem_cons_self _ _)) rfl
    apply NodeSpec.spec_setEdgeAt (l := []) (r := []) rfl
    apply NodeSpec.spec_setRefcount
    refine spec_pure (fun m hm => ?_)
    simp only [Multiset.insert_eq_cons, Multiset.cons_add, Multiset.singleton_add]
    exact hm
  bytes F := by
    rw [laid_single, Multiset.singleton_add, ← bind_pure (ByteNode.cutNode B n c.length)]
    refine LayoutEdits.spec_cutNode hb rfl (fun n' s => spec_pure (fun m hm => ?_))
    simp only [Multiset.insert_eq_cons, laid_cons, laid_single, Multiset.cons_add, Multiset.singleton_add]
    exact hm

section Merges

variable {child : Addr} {rc' : UInt32} {q : List UInt8} {fs : List (UInt8 × Addr)}

theorem mergeChild_sameEdit {y : UInt8} (hb : Fits ⟨rc, p, [(y, child)]⟩) (hb' : Fits ⟨rc', q, fs⟩)
    (haddr : child < 2 ^ 64) (hroom : p.length + q.length < 2 ^ 32) :
    SameEdit (mergeChildLines A n) (ByteNode.mergeChild B n) {(n, ⟨rc, p, [(y, child)]⟩), (child, ⟨rc', q, fs⟩)}
      (fun n' => {(n', ⟨rc', p ++ q, fs⟩)}) where
  blocks S := by
    rw [mergeChildLines, Multiset.insert_eq_cons, Multiset.cons_add, Multiset.singleton_add]
    apply NodeSpec.spec_nodeAt (e := (y, child)) (Multiset.mem_cons_self _ _) rfl
    apply EraseSpec.spec_absorb (Multiset.mem_cons_self _ _) hb'.edges_lt (Or.inl hroom)
    intro n' _
    rw [Multiset.cons_swap]
    apply spec_free_bind
    exact spec_pure (fun m hm => hm)
  bytes F := by
    rw [Multiset.insert_eq_cons, laid_cons, laid_single, Multiset.cons_add, Multiset.singleton_add,
      ← bind_pure (ByteNode.mergeChild B n)]
    exact LayoutEdits.spec_mergeChild hb hb' haddr hroom (fun n' => spec_pure (fun m hm => hm))

theorem mergeOther_sameEdit {removed : Addr} {gone : Block} {l r : List (UInt8 × Addr)} {y z : UInt8}
    (hother : l ++ r = [(y, child)]) (hb : Fits ⟨rc, p, l ++ (z, removed) :: r⟩) (hb' : Fits ⟨rc', q, fs⟩)
    (haddr : child < 2 ^ 64) (hroom : p.length + q.length < 2 ^ 32) :
    SameEdit (mergeOtherLines A n removed l.length) (ByteNode.mergeOther B n removed l.length)
      {(n, ⟨rc, p, l ++ (z, removed) :: r⟩), (removed, gone), (child, ⟨rc', q, fs⟩)}
      (fun n' => {(n', ⟨rc', p ++ q, fs⟩)}) where
  blocks S := by
    have hlen : l.length + r.length = 1 := by
      rw [← List.length_append, hother]
      rfl
    have hnode : (l ++ (z, removed) :: r)[if l.length = 0 then 1 else 0]? = some (y, child) := by
      rcases List.append_eq_singleton_iff.mp hother with ⟨rfl, rfl⟩ | ⟨rfl, rfl⟩ <;> rfl
    simp only [mergeOtherLines, Multiset.insert_eq_cons, Multiset.cons_add, Multiset.singleton_add]
    apply spec_assert_bind (by omega)
    apply NodeSpec.spec_nodeAt (Multiset.mem_cons_self _ _) hnode
    apply EraseSpec.spec_absorb (Multiset.mem_cons_of_mem (Multiset.mem_cons_self _ _)) hb'.edges_lt (Or.inl hroom)
    intro n' _
    rw [Multiset.cons_swap]
    apply spec_free_bind
    rw [Multiset.cons_swap]
    apply spec_free_bind
    exact spec_pure (fun m hm => hm)
  bytes F := by
    simp only [Multiset.insert_eq_cons, laid_cons, laid_single, Multiset.cons_add, Multiset.singleton_add]
    rw [← bind_pure (ByteNode.mergeOther B n removed l.length)]
    exact LayoutEdits.spec_mergeOther hother rfl hb hb' haddr hroom (fun n' => spec_pure (fun m hm => hm))

end Merges

end Edits

/-- The nodes are laid out in their blocks, their lengths written in full into
the headers, and the rest of the memory holds F. -/
structure Placed (B : Multiset (Addr × Block)) (F : Multiset (Addr × List UInt8)) (m : Mem (List UInt8)) : Prop where
  fits : ∀ c ∈ B, Fits c.2
  holds : Holds (laid B + F) m

/-- The program ends without touching a byte outside of the blocks, with the wanted
nodes laid out and the rest of the memory as it was. -/
def Turns {α : Type} (x : ByteM α) (after : α → Multiset (Addr × Block)) (F : Multiset (Addr × List UInt8))
    (m : Mem (List UInt8)) : Prop :=
  ∃ r m', x m = .ok (r, m') ∧ Placed (after r) F m'

/-- On every memory in which the nodes are laid out, the program on bytes leaves the wanted
nodes laid out exactly under the condition. Under it the lines on blocks do the same. -/
structure Edits {α : Type} (x : NodeM α) (y : ByteM α) (before : Multiset (Addr × Block))
    (after : α → Multiset (Addr × Block)) (cond : Prop) : Prop where
  turns : ∀ F m, Placed before F m → (Turns y after F m ↔ cond)
  same : (∀ c ∈ before, Fits c.2) → cond → SameEdit x y before after

/-- What the edits of a node do to its layout. -/
structure InPlace (C : Allocator Block) (A : ByteAllocator) : Prop where
  append : ∀ (n : Addr) (rc : UInt32) (p : List UInt8) (es : List (UInt8 × Addr)) (y : UInt8) (x : Addr),
    Edits (appendLines C n y x) (ByteNode.addEdge A n y x) {(n, ⟨rc, p, es⟩)}
      (fun n' => {(n', ⟨rc, p, es ++ [(y, x)]⟩)}) (es.length + 1 < 2 ^ 32)
  remove : ∀ (n : Addr) (rc : UInt32) (p : List UInt8) (es : List (UInt8 × Addr)) (i : Nat), i < es.length →
    Edits (removeLines C n i) (ByteNode.removeEdge A n i) {(n, ⟨rc, p, es⟩)}
      (fun n' => {(n', ⟨rc, p, swapRemove i es⟩)}) True
  /-- The key leaves the prefix behind c, and y :: rest is left of it. -/
  fork : ∀ (n : Addr) (rc : UInt32) (c : List UInt8) (x : UInt8) (q : List UInt8) (es : List (UInt8 × Addr))
    (u : List UInt8) (y : UInt8) (rest w : List UInt8),
    Edits (forkLines C n (u ++ (y :: rest ++ w)) (u.length + (y :: rest).length) u.length c.length)
      (ByteNode.forkNode A n (u ++ (y :: rest ++ w)) (u.length + (y :: rest).length) u.length c.length)
      {(n, ⟨rc, c ++ x :: q, es⟩)}
      (fun r => {(r.1, ⟨0, c, [(y, r.2.1), (x, r.2.2)]⟩), (r.2.2, ⟨rc, x :: q, es⟩), (r.2.1, ⟨1, y :: rest, []⟩)})
      ((y :: rest).length < 2 ^ 32)
  /-- The key ends behind c. -/
  cut : ∀ (n : Addr) (rc : UInt32) (c : List UInt8) (x : UInt8) (q : List UInt8) (es : List (UInt8 × Addr)),
    Edits (cutLines C n c.length) (ByteNode.cutNode A n c.length) {(n, ⟨rc, c ++ x :: q, es⟩)}
      (fun r => {(r.1, ⟨1, c, [(x, r.2)]⟩), (r.2, ⟨rc, x :: q, es⟩)}) True
  mergeChild : ∀ (n : Addr) (rc : UInt32) (p : List UInt8) (y : UInt8) (child : UInt64) (rc' : UInt32) (q : List UInt8)
    (es : List (UInt8 × Addr)),
    Edits (mergeChildLines C n) (ByteNode.mergeChild A n)
      {(n, ⟨rc, p, [(y, child.toNat)]⟩), (child.toNat, ⟨rc', q, es⟩)} (fun n' => {(n', ⟨rc', p ++ q, es⟩)})
      (p.length + q.length < 2 ^ 32)
  /-- Edge l is removed, and the one that is left leads to child. -/
  mergeOther : ∀ (n : Addr) (rc : UInt32) (p : List UInt8) (l r : List (UInt8 × Addr)) (z : UInt8) (removed : Addr)
    (gone : Block) (y : UInt8) (child : UInt64) (rc' : UInt32) (q : List UInt8) (es : List (UInt8 × Addr)),
    l ++ r = [(y, child.toNat)] →
    Edits (mergeOtherLines C n removed l.length) (ByteNode.mergeOther A n removed l.length)
      {(n, ⟨rc, p, l ++ (z, removed) :: r⟩), (removed, gone), (child.toNat, ⟨rc', q, es⟩)}
      (fun n' => {(n', ⟨rc', p ++ q, es⟩)}) (p.length + q.length < 2 ^ 32)

/-- The condition says that the nodes to be left can be written. -/
theorem edits_of_sameEdit {α : Type} {x : NodeM α} {y : ByteM α} {B : Multiset (Addr × Block)}
    {after : α → Multiset (Addr × Block)} {cond : Prop}
    (hfits : (∀ c ∈ B, Fits c.2) → ∀ r, ((∀ c ∈ after r, Fits c.2) ↔ cond))
    (h : (∀ c ∈ B, Fits c.2) → cond → SameEdit x y B after) : Edits x y B after cond where
  turns F m hm := by
    constructor
    · rintro ⟨r, m', -, hm'⟩
      exact (hfits hm.fits r).mp hm'.fits
    · intro hc
      obtain ⟨r, m', hr, hm'⟩ := ((h hm.fits hc).bytes F m hm.holds).exists_ok
      exact ⟨r, m', hr, (hfits hm.fits r).mpr hc, hm'⟩
  same := h

/-- Every edit keeps the layout as long as the lengths of the node it is to leave
can be written into the header, and the edits are lines of insert and erase. -/
theorem edits_in_place (C : Allocator Block) (A : ByteAllocator) : InTree C ∧ InPlace C A := by
  refine ⟨lines_inTree C, ⟨?_, ?_, ?_, ?_, ?_, ?_⟩⟩
  · intro n rc p es y x
    refine edits_of_sameEdit (fun hB r => ?_) (fun hB => append_sameEdit (hB (n, _) (Multiset.mem_singleton_self _)))
    rw [forall_single]
    exact fits_concat (hB (n, _) (Multiset.mem_singleton_self _))
  · intro n rc p es i hi
    obtain ⟨l, e, r, rfl, rfl⟩ : ∃ l e r, es = l ++ e :: r ∧ i = l.length :=
      ⟨es.take i, es[i], es.drop (i + 1), by simp, by rw [List.length_take]; omega⟩
    refine edits_of_sameEdit (fun hB _ => ?_) (fun hB _ => remove_sameEdit (hB (n, _) (Multiset.mem_singleton_self _)))
    have hb : Fits ⟨rc, p, l ++ e :: r⟩ := hB (n, _) (Multiset.mem_singleton_self _)
    have hlen := LayoutEdits.swapRemove_length l e r
    have hlt : (l ++ e :: r).length < 2 ^ 32 := hb.edges_lt
    rw [forall_single, iff_true]
    exact ⟨hb.prefix_lt, by dsimp only; omega⟩
  · intro n rc c x q es u y rest w
    refine edits_of_sameEdit (fun hB r => ?_) (fun hB => fork_sameEdit (hB (n, _) (Multiset.mem_singleton_self _)))
    have hb : Fits ⟨rc, c ++ x :: q, es⟩ := hB (n, _) (Multiset.mem_singleton_self _)
    simp only [Multiset.insert_eq_cons, Multiset.mem_cons, Multiset.mem_singleton, forall_eq_or_imp, forall_eq]
    constructor
    · rintro ⟨-, -, hleaf⟩
      exact hleaf.prefix_lt
    · intro hlt
      exact ⟨⟨hb.front, by dsimp only [List.length]; omega⟩, hb.back, hlt, by dsimp only [List.length]; omega⟩
  · intro n rc c x q es
    refine edits_of_sameEdit (fun hB r => ?_) (fun hB _ => cut_sameEdit (hB (n, _) (Multiset.mem_singleton_self _)))
    have hb : Fits ⟨rc, c ++ x :: q, es⟩ := hB (n, _) (Multiset.mem_singleton_self _)
    simp only [Multiset.insert_eq_cons, Multiset.mem_cons, Multiset.mem_singleton, forall_eq_or_imp, forall_eq, iff_true]
    exact ⟨⟨hb.front, by dsimp only [List.length]; omega⟩, hb.back⟩
  · intro n rc p y child rc' q es
    refine edits_of_sameEdit (fun hB r => ?_)
      (fun hB => mergeChild_sameEdit (hB (n, _) (by simp)) (hB (child.toNat, _) (by simp)) child.toNat_lt)
    have hchild : Fits ⟨rc', q, es⟩ := hB (child.toNat, _) (by simp)
    rw [forall_single]
    exact fits_join hchild
  · intro n rc p l r z removed gone y child rc' q es hother
    refine edits_of_sameEdit (fun hB _ => ?_)
      (fun hB => mergeOther_sameEdit hother (hB (n, _) (by simp)) (hB (child.toNat, _) (by simp)) child.toNat_lt)
    have hchild : Fits ⟨rc', q, es⟩ := hB (child.toNat, _) (by simp)
    rw [forall_single]
    exact fits_join hchild

section Overruns

variable {A : ByteAllocator} {n : Addr} {rc : UInt32} {p : List UInt8} {F : Multiset (Addr × List UInt8)}
variable {m : Mem (List UInt8)}

/-- One edge more than the header can count: the number of edges becomes 0, and
the pointers to be moved lie behind the block. -/
theorem addEdge_overruns {es : List (UInt8 × Addr)} {y : UInt8} {x : Addr} (hm : Placed {(n, ⟨rc, p, es⟩)} F m)
    (hfull : es.length + 1 = 2 ^ 32) : ByteNode.addEdge A n y x m = .error .outOfBounds := by
  have hb : Fits ⟨rc, p, es⟩ := hm.fits (n, _) (Multiset.mem_singleton_self _)
  have hp : p.length < 2 ^ 32 := hb.prefix_lt
  have hspec : Spec (Holds ((n, layout ⟨rc, p, es⟩) ::ₘ F)) (ByteNode.addEdge A n y x) (fun _ _ => False)
      (fun e => e = .outOfBounds) := by
    rw [ByteNode.addEdge]
    apply spec_prefixLength (Multiset.mem_cons_self _ _) hp
    apply spec_edgecount (Multiset.mem_cons_self _ _) hb.edges_lt
    dsimp only
    rw [hfull, show u32 (2 ^ 32) = 0 by decide]
    apply spec_resize (by omega) (by omega)
    intro n' junk
    apply spec_nodePtrs (Multiset.mem_cons_self _ _) hp (by decide)
    apply spec_edgecount (Multiset.mem_cons_self _ _) (by decide)
    rw [memmove, bind_assoc]
    refine spec_readAt_over (Multiset.mem_cons_self _ _) ?_ rfl
    rw [List.length_append, header_length, refit_length, show ByteNode.u32Sub 0 1 = 2 ^ 32 - 1 by decide,
      ByteNode.pointerSize]
    omega
  exact (hspec m (by simpa using hm.holds)).eq_error

/-- A joined prefix that is too long: the copy of the child's prefix runs past the
block, unless the chunks of its edges are as large as the missing bytes. -/
theorem mergeChild_overruns {y : UInt8} (child : UInt64) {rc' : UInt32} {q : List UInt8} {es : List (UInt8 × Addr)}
    (hm : Placed {(n, ⟨rc, p, [(y, child.toNat)]⟩), (child.toNat, ⟨rc', q, es⟩)} F m)
    (hlong : 2 ^ 32 ≤ p.length + q.length) (hfew : es.length * 9 < 2 ^ 32) :
    ByteNode.mergeChild A n m = .error .outOfBounds := by
  have hb : Fits ⟨rc, p, [(y, child.toNat)]⟩ := hm.fits (n, _) (by simp)
  have hb' : Fits ⟨rc', q, es⟩ := hm.fits (child.toNat, _) (by simp)
  have hp : p.length < 2 ^ 32 := hb.prefix_lt
  have hq : q.length < 2 ^ 32 := hb'.prefix_lt
  have hsum : u32 (p.length + q.length) + 2 ^ 32 = p.length + q.length := by
    unfold u32
    omega
  have hspec : Spec (Holds ((n, layout ⟨rc, p, [(y, child.toNat)]⟩) ::ₘ (child.toNat, layout ⟨rc', q, es⟩) ::ₘ F))
      (ByteNode.mergeChild A n) (fun _ _ => False) (fun e => e = .outOfBounds) := by
    rw [ByteNode.mergeChild]
    apply spec_nodeAt (l := []) (Multiset.mem_cons_self _ _) hb rfl
    dsimp only
    rw [decode_pointer child.toNat_lt]
    simp only [ByteNode.absorb, bind_assoc]
    apply spec_prefixLength (Multiset.mem_cons_self _ _) hp
    apply spec_prefixLength (Multiset.mem_cons_of_mem (Multiset.mem_cons_self _ _)) hq
    apply spec_edgecount (Multiset.mem_cons_of_mem (Multiset.mem_cons_self _ _)) hb'.edges_lt
    dsimp only
    apply spec_resize (by omega) (by omega)
    intro n' junk
    apply spec_prefixLength (Multiset.mem_cons_of_mem (Multiset.mem_cons_self _ _)) hq
    rw [memcpy, bind_assoc]
    apply spec_yields (yields_body (Multiset.mem_cons_of_mem (Multiset.mem_cons_self _ _)) (u := []) (v := q)
      (w := es.map Prod.fst ++ pointers es) rfl rfl rfl)
    refine spec_writeAt_over (Multiset.mem_cons_self _ _) ?_ rfl
    rw [List.length_append, header_length, refit_length, ByteNode.prefixOffset]
    omega
  exact (hspec m (by simpa using hm.holds)).eq_error

end Overruns

theorem placed_single {b : Block} (hb : Fits b) (a : Addr) : Placed {(a, b)} 0 ⟨Finmap.insert a (layout b) ∅, 0⟩ := by
  have hempty : Holds (0 : Multiset (Addr × List UInt8)) emptyMem := holds_empty
  refine ⟨?_, ?_⟩
  · rintro c hc
    obtain rfl := Multiset.mem_singleton.mp hc
    exact hb
  · rw [add_zero, laid_single]
    exact holds_alloc hempty Finmap.notMem_empty

theorem placed_pair {b c : Block} (hb : Fits b) (hc : Fits c) :
    Placed {(1, b), (2, c)} 0 ⟨(Finmap.insert 2 (layout c) ∅).insert 1 (layout b), 0⟩ := by
  refine ⟨?_, ?_⟩
  · simp only [Multiset.insert_eq_cons, Multiset.mem_cons, Multiset.mem_singleton]
    rintro d (rfl | rfl)
    · exact hb
    · exact hc
  · have htwo := (placed_single hc 2).holds
    rw [Multiset.insert_eq_cons, laid_cons, Multiset.cons_add]
    exact holds_alloc htwo (by simp [Finmap.mem_insert, Finmap.notMem_empty])

/-- A node with the prefix "a" takes over its only child "bc". -/
theorem edits_in_place_abc : ∃ m, Placed {(1, ⟨0, [97], [(98, 2)]⟩), (2, ⟨3, [98, 99], []⟩)} 0 m ∧
    Turns (ByteNode.mergeChild movingBytes 1) (fun n' => {(n', ⟨3, [97, 98, 99], []⟩)}) 0 m := by
  have hm := placed_pair (b := ⟨0, [97], [(98, 2)]⟩) (c := ⟨3, [98, 99], []⟩) ⟨by decide, by decide⟩ ⟨by decide, by decide⟩
  exact ⟨_, hm, (((edits_in_place moving movingBytes).2.mergeChild 1 0 [97] 98 2 3 [98, 99] []).turns 0 _ hm).mpr (by decide)⟩

theorem merge_overruns {N : Nat} (hN : N < 2 ^ 32) (hlong : 2 ^ 32 ≤ N + N) :
    ∃ p q : List UInt8, p.length = N ∧ q.length = N ∧ ∃ m, Placed {(1, ⟨0, p, [(97, 2)]⟩), (2, ⟨1, q, []⟩)} 0 m ∧
      ByteNode.mergeChild movingBytes 1 m = .error .outOfBounds := by
  have hlen : (List.replicate N (97 : UInt8)).length = N := List.length_replicate
  have hm := placed_pair (b := ⟨0, List.replicate N 97, [(97, 2)]⟩) (c := ⟨1, List.replicate N 97, []⟩)
    ⟨by rwa [hlen], by simp⟩ ⟨by rwa [hlen], by simp⟩
  exact ⟨_, _, hlen, hlen, _, hm, mergeChild_overruns 2 hm (by rwa [hlen]) (by decide)⟩

theorem append_overruns {N : Nat} (hN : N + 1 = 2 ^ 32) :
    ∃ es : List (UInt8 × Addr), es.length = N ∧ ∃ m, Placed {(1, ⟨0, [], es⟩)} 0 m ∧
      ByteNode.addEdge movingBytes 1 97 2 m = .error .outOfBounds := by
  have hlen : (List.replicate N ((97, 2) : UInt8 × Addr)).length = N := List.length_replicate
  have hm := placed_single (b := ⟨0, [], List.replicate N (97, 2)⟩) ⟨by simp, by rw [hlen]; omega⟩ 1
  exact ⟨_, hlen, _, hm, addEdge_overruns hm (by rwa [hlen])⟩

/-- Two prefixes of 2^31 bytes each: the block is resized for an empty prefix, and the
copy of the child's prefix is written past its end. With 2^32 - 1 edges the number of
edges wraps to 0, and 2^32 - 1 pointers are read behind the block. -/
theorem edits_past_block :
    (∃ p q : List UInt8, p.length = 2 ^ 31 ∧ q.length = 2 ^ 31 ∧
      ∃ m, Placed {(1, ⟨0, p, [(97, 2)]⟩), (2, ⟨1, q, []⟩)} 0 m ∧
        ByteNode.mergeChild movingBytes 1 m = .error .outOfBounds) ∧
    ∃ es : List (UInt8 × Addr), es.length = 2 ^ 32 - 1 ∧ ∃ m, Placed {(1, ⟨0, [], es⟩)} 0 m ∧
      ByteNode.addEdge movingBytes 1 97 2 m = .error .outOfBounds :=
  ⟨merge_overruns (by omega) (by omega), append_overruns (by omega)⟩

end StudyNotes.Radix.InPlaceEdits
