import StudyNotes.Heap.Placement
import StudyNotes.Radix.ByteTree

namespace StudyNotes.Radix.BytePlacement

open Heap.Program Heap.Bytes Heap.Placement ByteNode ByteTree
open Program (RadixTree MatchResult)

variable {bound room : Nat}

section Accessors

variable (n : Addr)

theorem makes_refcount : Makes bound room 0 (refcount n) :=
  makes_then (makes_readAt _ _ _) (fun _ => makes_pure _)

theorem makes_prefixLength : Makes bound room 0 (prefixLength n) :=
  makes_then (makes_readAt _ _ _) (fun _ => makes_pure _)

theorem makes_edgecount : Makes bound room 0 (edgecount n) :=
  makes_then (makes_readAt _ _ _) (fun _ => makes_pure _)

theorem makes_firstBytes : Makes bound room 0 (firstBytes n) :=
  makes_then (makes_prefixLength n) (fun _ => makes_pure _)

theorem makes_nodePtrs : Makes bound room 0 (nodePtrs n) :=
  makes_then (makes_prefixLength n) (fun _ => makes_then (makes_edgecount n) (fun _ => makes_pure _))

theorem makes_byteAt (off : Nat) : Makes bound room 0 (byteAt n off) :=
  makes_then (makes_readAt _ _ _) (fun _ => makes_pure _)

theorem makes_firstByteAt (i : Nat) : Makes bound room 0 (firstByteAt n i) :=
  makes_then (makes_edgecount n) (fun _ => makes_then (makes_assert _) (fun _ =>
    makes_then (makes_firstBytes n) (fun _ => makes_byteAt n _)))

theorem makes_nodeAt (i : Nat) : Makes bound room 0 (nodeAt n i) :=
  makes_then (makes_edgecount n) (fun _ => makes_then (makes_assert _) (fun _ =>
    makes_then (makes_nodePtrs n) (fun _ => makes_then (makes_readAt _ _ _) (fun _ => makes_pure _))))

theorem makes_setNodeAt (i : Nat) (x : Addr) : Makes bound room 0 (setNodeAt n i x) :=
  makes_then (makes_edgecount n) (fun _ => makes_then (makes_assert _) (fun _ =>
    makes_then (makes_nodePtrs n) (fun _ => makes_writeAt _ _ _)))

theorem makes_setEdgeAt (i : Nat) (byte : UInt8) (x : Addr) : Makes bound room 0 (setEdgeAt n i byte x) := by
  refine makes_then ?_ (fun _ => makes_setNodeAt n i x)
  exact makes_then (makes_edgecount n) (fun _ => makes_then (makes_assert _) (fun _ =>
    makes_then (makes_firstBytes n) (fun _ => makes_writeAt _ _ _)))

variable {src : Source} (hsrc : ∀ len, Makes bound room 0 (src len))

include hsrc

theorem makes_setPrefix : Makes bound room 0 (setPrefix n src) :=
  makes_then (makes_prefixLength n) (fun _ => makes_memcpy _ _ hsrc _)

theorem makes_setFirstBytes : Makes bound room 0 (setFirstBytes n src) :=
  makes_then (makes_firstBytes n) (fun _ => makes_then (makes_edgecount n) (fun _ => makes_memcpy _ _ hsrc _))

theorem makes_setNodePtrs : Makes bound room 0 (setNodePtrs n src) :=
  makes_then (makes_nodePtrs n) (fun _ => makes_then (makes_edgecount n) (fun _ => makes_memcpy _ _ hsrc _))

end Accessors

section Edits

variable {A : ByteAllocator} (hA : Confined A.toAllocator bound room) (n : Addr)

include hA

theorem makes_resize (bytes edges : Nat) : Makes bound room 0 (resize A n bytes edges) :=
  makes_then (makes_reallocBytes hA _ _) (fun _ => makes_then (makes_assert _) (fun _ =>
    makes_then (makes_writeAt _ _ _) (fun _ => makes_then (makes_writeAt _ _ _) (fun _ => makes_pure _))))

theorem makes_makeNode (refs bytes edges : Nat) : Makes bound room 1 (makeNode A refs bytes edges) :=
  makes_bind (l := 0) (makes_mallocBytes hA _) (fun _ => makes_then (makes_assert _) (fun _ =>
    makes_then (makes_writeAt _ _ _) (fun _ => makes_then (makes_writeAt _ _ _) (fun _ =>
      makes_then (makes_writeAt _ _ _) (fun _ => makes_pure _)))))

theorem makes_addEdge (byte : UInt8) (x : Addr) : Makes bound room 0 (addEdge A n byte x) :=
  makes_then (makes_prefixLength n) (fun _ => makes_then (makes_edgecount n) (fun _ =>
    makes_then (makes_resize hA n _ _) (fun n => makes_then (makes_nodePtrs n) (fun _ =>
      makes_then (makes_edgecount n) (fun _ => makes_then (makes_memmove _ _ _ _) (fun _ =>
        makes_then (makes_edgecount n) (fun _ => makes_then (makes_setEdgeAt n _ _ _) (fun _ => makes_pure _))))))))

theorem makes_removeEdge (i : Nat) : Makes bound room 0 (removeEdge A n i) :=
  makes_then (makes_edgecount n) (fun _ => makes_then (makes_firstByteAt n _) (fun _ =>
    makes_then (makes_nodeAt n _) (fun _ => makes_then (makes_setEdgeAt n _ _ _) (fun _ =>
      makes_then (makes_nodePtrs n) (fun _ => makes_then (makes_edgecount n) (fun _ =>
        makes_then (makes_memmove _ _ _ _) (fun _ => makes_then (makes_prefixLength n) (fun _ =>
          makes_then (makes_edgecount n) (fun _ => makes_resize hA n _ _)))))))))

theorem makes_splitOff (j : Nat) : Makes bound room 1 (splitOff A n j) :=
  makes_then (makes_refcount n) (fun _ => makes_then (makes_prefixLength n) (fun _ =>
    makes_then (makes_edgecount n) (fun _ => makes_makeNode hA _ _ _)))

omit hA in
theorem makes_copyTail (s : Addr) (j : Nat) : Makes bound room 0 (copyTail n s j) :=
  makes_then (makes_setPrefix s (makes_readAt _ _)) (fun _ => makes_then (makes_firstBytes n) (fun _ =>
    makes_then (makes_setFirstBytes s (makes_readAt _ _)) (fun _ => makes_then (makes_nodePtrs n) (fun _ =>
      makes_setNodePtrs s (makes_readAt _ _)))))

theorem makes_forkNode (key : List UInt8) (size i j : Nat) : Makes bound room 2 (forkNode A n key size i j) := by
  refine makes_bind (l := 1) (makes_makeNode hA _ _ _) (fun k => ?_)
  refine makes_bind (l := 0) (makes_splitOff hA n j) (fun s => ?_)
  refine makes_then (makes_setPrefix k (makes_fromBuffer _ _)) (fun _ => makes_then (makes_copyTail n s j) (fun _ => ?_))
  refine makes_then (makes_resize hA n _ _) (fun n => makes_then (makes_writeAt _ _ _) (fun _ => ?_))
  refine makes_then (makes_byteAt k _) (fun _ => makes_then (makes_setEdgeAt n _ _ _) (fun _ => ?_))
  exact makes_then (makes_byteAt s _) (fun _ => makes_then (makes_setEdgeAt n _ _ _) (fun _ => makes_pure _))

theorem makes_cutNode (j : Nat) : Makes bound room 1 (cutNode A n j) := by
  refine makes_bind (l := 0) (makes_splitOff hA n j) (fun s => makes_then (makes_copyTail n s j) (fun _ => ?_))
  refine makes_then (makes_resize hA n _ _) (fun n => makes_then (makes_byteAt s _) (fun _ => ?_))
  exact makes_then (makes_setEdgeAt n _ _ _) (fun _ => makes_then (makes_writeAt _ _ _) (fun _ => makes_pure _))

theorem makes_absorb (child : Addr) : Makes bound room 0 (absorb A n child) := by
  refine makes_then (makes_prefixLength n) (fun _ => makes_then (makes_prefixLength child) (fun _ => ?_))
  refine makes_then (makes_edgecount child) (fun _ => makes_then (makes_resize hA n _ _) (fun n => ?_))
  refine makes_then (makes_prefixLength child) (fun _ => makes_then (makes_memcpy _ _ (makes_readAt _ _) _) (fun _ => ?_))
  refine makes_then (makes_firstBytes child) (fun _ => makes_then (makes_setFirstBytes n (makes_readAt _ _)) (fun _ => ?_))
  refine makes_then (makes_nodePtrs child) (fun _ => makes_then (makes_setNodePtrs n (makes_readAt _ _)) (fun _ => ?_))
  exact makes_then (makes_refcount child) (fun _ => makes_then (makes_writeAt _ _ _) (fun _ => makes_pure _))

theorem makes_mergeChild : Makes bound room 0 (mergeChild A n) :=
  makes_then (makes_nodeAt n 0) (fun _ => makes_then (makes_absorb hA n _) (fun _ =>
    makes_then (makes_free _) (fun _ => makes_pure _)))

theorem makes_mergeOther (removed : Addr) (i : Nat) : Makes bound room 0 (mergeOther A n removed i) :=
  makes_then (makes_assert _) (fun _ => makes_then (makes_nodeAt n _) (fun _ => makes_then (makes_absorb hA n _) (fun _ =>
    makes_then (makes_free _) (fun _ => makes_then (makes_free _) (fun _ => makes_pure _)))))

end Edits

section Walk

variable (key : List UInt8)

theorem makes_keyAt (i : Nat) : Makes bound room 0 (keyAt key i) := by
  rw [keyAt]
  cases key[i]? with
  | some c => exact makes_pure c
  | none => exact makes_fail _

theorem makes_matchPrefix (n : Addr) (remaining i j : Nat) : Makes bound room 0 (matchPrefix n key remaining i j) := by
  induction remaining generalizing i j with
  | zero => exact makes_pure _
  | succ remaining ih =>
      exact makes_then (makes_byteAt n _) (fun _ => makes_then (makes_keyAt key i) (fun _ =>
        makes_ite (makes_pure _) (ih _ _)))

theorem makes_findEdge (n : Addr) (size i remaining k : Nat) :
    Makes bound room 0 (findEdge n key size i remaining k) := by
  induction remaining generalizing k with
  | zero => exact makes_pure _
  | succ remaining ih =>
      refine makes_ite ?_ (ih _)
      exact makes_then (makes_firstByteAt n k) (fun _ => makes_then (makes_keyAt key i) (fun _ =>
        makes_ite (makes_pure _) (ih _)))

theorem makes_matchLoop (size fuel : Nat) (s : MatchResult) : Makes bound room 0 (matchLoop key size fuel s) := by
  induction fuel generalizing s with
  | zero => exact makes_fail _
  | succ fuel ih =>
      refine makes_then (makes_prefixLength _) (fun _ => makes_then (makes_edgecount _) (fun _ => ?_))
      refine makes_ite (makes_then (makes_matchPrefix key _ _ _ _) (fun _ => makes_ite (makes_pure _) ?_)) (makes_pure _)
      refine makes_then (makes_findEdge key _ _ _ _ _) (fun found => ?_)
      cases found with
      | none => exact makes_pure _
      | some k => exact makes_then (makes_nodeAt _ _) (fun _ => makes_ite (makes_pure _) (ih _))

theorem makes_matchKey (t : RadixTree) (size : Nat) : Makes bound room 0 (matchKey t key size) :=
  makes_then (makes_assert _) (fun _ => makes_matchLoop key _ _ _)

end Walk

section Calls

variable {A : ByteAllocator} (hA : Confined A.toAllocator bound room) (t : RadixTree) (key : List UInt8) (size : Nat)

include hA

theorem makes_radixTree : Makes bound room 1 (radixTree A) :=
  makes_bind (l := 0) (makes_makeNode hA _ _ _) (fun _ => makes_pure _)

theorem makes_insertEdge (r : MatchResult) : Makes bound room 1 (insertEdge A t key size r) := by
  refine makes_bind (l := 0) (makes_makeNode hA _ _ _) (fun k => ?_)
  refine makes_then (makes_setPrefix k (makes_fromBuffer _ _)) (fun _ => makes_then (makes_keyAt key _) (fun _ => ?_))
  refine makes_then (makes_addEdge hA _ _ _) (fun n => makes_then (makes_prefixLength n) (fun _ => ?_))
  exact makes_ite (makes_pure _) (makes_then (makes_setNodeAt _ _ _) (fun _ => makes_pure _))

/-- An insertion makes at most the two nodes of a split. -/
theorem makes_insert : Makes bound room 2 (ByteTree.insert A t key size) := by
  refine makes_then (makes_matchKey key t size) (fun r => makes_then (makes_prefixLength _) (fun _ => ?_))
  refine makes_ite (makes_ite ((makes_insertEdge hA t key size r).mono (by omega)) ?_) (makes_ite ?_ ?_)
  · exact makes_bind (l := 0) (makes_forkNode hA _ _ _ _ _) (fun _ =>
      makes_then (makes_setNodeAt _ _ _) (fun _ => makes_pure _))
  · refine Makes.mono (k := 1) ?_ (by omega)
    exact makes_bind (l := 0) (makes_cutNode hA _ _) (fun _ =>
      makes_then (makes_setNodeAt _ _ _) (fun _ => makes_pure _))
  · refine Makes.mono (k := 0) ?_ (by omega)
    refine makes_then (makes_assert _) (fun _ => makes_then (makes_prefixLength _) (fun _ => ?_))
    refine makes_then (makes_assert _) (fun _ => makes_then (makes_refcount _) (fun _ => ?_))
    exact makes_then (makes_writeAt _ _ _) (fun _ => makes_then (makes_refcount _) (fun _ => makes_pure _))

theorem makes_eraseEdge (r : MatchResult) : Makes bound room 0 (eraseEdge A t r) := by
  refine makes_then (makes_removeEdge hA _ _) (fun n => makes_then (makes_free _) (fun _ => ?_))
  refine makes_then (makes_prefixLength n) (fun _ => makes_ite (makes_pure _) ?_)
  exact makes_then (makes_setNodeAt _ _ _) (fun _ => makes_pure _)

theorem makes_eraseNode (r : MatchResult) : Makes bound room 0 (eraseNode A t r) := by
  refine makes_then (makes_edgecount _) (fun _ => makes_ite (makes_pure _) (makes_ite ?_ ?_))
  · refine makes_then ?_ (fun _ => makes_pure _)
    exact makes_then (makes_mergeChild hA _) (fun _ => makes_setNodeAt _ _ _)
  · refine makes_then (makes_edgecount _) (fun _ => makes_then (makes_refcount _) (fun _ => makes_ite ?_ ?_))
    · refine makes_then ?_ (fun _ => makes_pure _)
      exact makes_then (makes_mergeOther hA _ _ _) (fun _ => makes_setNodeAt _ _ _)
    · exact makes_then (makes_assert _) (fun _ => makes_eraseEdge hA t r)

theorem makes_erase : Makes bound room 0 (ByteTree.erase A t key size) := by
  refine makes_then (makes_matchKey key t size) (fun r => makes_then (makes_prefixLength _) (fun _ => ?_))
  refine makes_then (makes_refcount _) (fun _ => makes_ite (makes_pure _) (makes_then (makes_assert _) (fun _ => ?_)))
  refine makes_then (makes_writeAt _ _ _) (fun _ => makes_then (makes_refcount _) (fun _ => makes_ite (makes_pure _) ?_))
  exact makes_then (makes_eraseNode hA _ r) (fun _ => makes_pure _)

end Calls

end StudyNotes.Radix.BytePlacement
