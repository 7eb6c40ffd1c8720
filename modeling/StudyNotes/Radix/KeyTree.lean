import StudyNotes.Words.CommonPrefix
import Mathlib.Data.Multiset.Replicate
import Mathlib.Algebra.Order.Group.Multiset

namespace StudyNotes.Radix.KeyTree

open Words.CommonPrefix

/-- The tree that the blocks spell. The tag is the address of the block in a
placed tree, and carries nothing in the abstract one. -/
inductive Trie (α : Type)
  | node (tag : α) (refcount : UInt32) (bytes : List UInt8) (edges : List (UInt8 × Trie α))

abbrev Edges (α : Type) := List (UInt8 × Trie α)

variable {α : Type}

namespace Trie

def tag : Trie α → α
  | .node a _ _ _ => a

def refcount : Trie α → UInt32
  | .node _ rc _ _ => rc

def bytes : Trie α → List UInt8
  | .node _ _ p _ => p

def edges : Trie α → Edges α
  | .node _ _ _ es => es

@[simp] theorem tag_node (a : α) (rc : UInt32) (p : List UInt8) (es : Edges α) :
    (node a rc p es).tag = a := rfl

@[simp] theorem refcount_node (a : α) (rc : UInt32) (p : List UInt8) (es : Edges α) :
    (node a rc p es).refcount = rc := rfl

@[simp] theorem bytes_node (a : α) (rc : UInt32) (p : List UInt8) (es : Edges α) :
    (node a rc p es).bytes = p := rfl

@[simp] theorem edges_node (a : α) (rc : UInt32) (p : List UInt8) (es : Edges α) :
    (node a rc p es).edges = es := rfl

end Trie

def labels (es : Edges α) : List UInt8 := es.map Prod.fst

mutual

def forget : Trie α → Trie Unit
  | .node _ rc p es => .node () rc p (forgetEdges es)

def forgetEdges : Edges α → Edges Unit
  | [] => []
  | (b, t) :: es => (b, forget t) :: forgetEdges es

end

mutual

/-- The keys held by a subtree, each as often as its reference count says. -/
def keys : Trie α → Multiset (List UInt8)
  | .node _ rc p es => (Multiset.replicate rc.toNat [] + edgesKeys es).map (p ++ ·)

def edgesKeys : Edges α → Multiset (List UInt8)
  | [] => 0
  | (_, t) :: es => keys t + edgesKeys es

end

mutual

def height : Trie α → Nat
  | .node _ _ _ es => edgesHeight es + 1

def edgesHeight : Edges α → Nat
  | [] => 0
  | (_, t) :: es => max (height t) (edgesHeight es)

end

mutual

/-- The reference count of the node spelled by the key, 0 when there is none. -/
def countOf (k : List UInt8) : Trie α → UInt32
  | .node _ rc p es =>
      match splitCommon p k with
      | (_, [], []) => rc
      | (_, [], y :: k') => countOfEdges (y :: k') es
      | (_, _ :: _, _) => 0

def countOfEdges (k : List UInt8) : Edges α → UInt32
  | [] => 0
  | (b, t) :: es => if k.head? = some b then countOf k t else countOfEdges k es

end

def leaf (k : List UInt8) : Trie Unit := .node () 1 k []

mutual

def insertKey (k : List UInt8) : Trie Unit → Trie Unit
  | .node _ rc p es =>
      match splitCommon p k with
      | (_, [], []) => .node () (rc + 1) p es
      | (_, [], y :: k') => .node () rc p (insertEdges (y :: k') es)
      | (c, x :: p', []) => .node () 1 c [(x, .node () rc (x :: p') es)]
      | (c, x :: p', y :: k') =>
          .node () 0 c [(y, leaf (y :: k')), (x, .node () rc (x :: p') es)]

def insertEdges (k : List UInt8) : Edges Unit → Edges Unit
  | [] => [(k.headD 0, leaf k)]
  | (b, t) :: es =>
      if k.head? = some b then (b, insertKey k t) :: es else (b, t) :: insertEdges k es

end

/-- What removing a key leaves of a subtree or of a list of edges. -/
inductive Erased (γ : Type)
  | missing
  | kept (x : γ)
  | dropped (i : Nat)

/-- Entry i is replaced by the last one, which is removed. -/
def swapRemove {γ : Type} (i : Nat) (xs : List γ) : List γ :=
  match xs.getLast? with
  | some x => (xs.set i x).dropLast
  | none => []

/-- A node that holds no key any more and has one child becomes that child. -/
def mergeInto (p : List UInt8) : Trie Unit → Trie Unit
  | .node _ rc q es => .node () rc (p ++ q) es

def eraseHere (rc : UInt32) (p : List UInt8) (es : Edges Unit) : Erased (Trie Unit) :=
  if rc = 0 then .missing
  else if rc - 1 ≠ 0 then .kept (.node () (rc - 1) p es)
  else
    match es with
    | [] => .dropped 0
    | [(_, child)] => .kept (mergeInto p child)
    | _ => .kept (.node () 0 p es)

def dropEdge (atRoot : Bool) (rc : UInt32) (p : List UInt8) (es : Edges Unit) (i : Nat) :
    Trie Unit :=
  match es with
  | [e, e'] =>
      if rc = 0 ∧ atRoot = false then mergeInto p (if i = 0 then e'.2 else e.2)
      else .node () rc p (swapRemove i es)
  | _ => .node () rc p (swapRemove i es)

/-- A child l ++ (b, t) :: r was searched: what is left of the edges. -/
def afterChild (l : Edges Unit) (b : UInt8) (r : Edges Unit) : Erased (Trie Unit) → Erased (Edges Unit)
  | .missing => .missing
  | .kept t => .kept (l ++ (b, t) :: r)
  | .dropped _ => .dropped l.length

def skipEdge (e : UInt8 × Trie Unit) : Erased (Edges Unit) → Erased (Edges Unit)
  | .missing => .missing
  | .kept es => .kept (e :: es)
  | .dropped i => .dropped (i + 1)

def afterEdges (atRoot : Bool) (rc : UInt32) (p : List UInt8) (es : Edges Unit) :
    Erased (Edges Unit) → Erased (Trie Unit)
  | .missing => .missing
  | .kept es' => .kept (.node () rc p es')
  | .dropped i => .kept (dropEdge atRoot rc p es i)

mutual

def eraseAt (atRoot : Bool) (k : List UInt8) : Trie Unit → Erased (Trie Unit)
  | .node _ rc p es =>
      match splitCommon p k with
      | (_, [], []) => eraseHere rc p es
      | (_, [], y :: k') => afterEdges atRoot rc p es (eraseEdges (y :: k') es)
      | (_, _ :: _, _) => .missing

def eraseEdges (k : List UInt8) : Edges Unit → Erased (Edges Unit)
  | [] => .missing
  | (b, t) :: es =>
      if k.head? = some b then afterChild [] b es (eraseAt false k t)
      else skipEdge (b, t) (eraseEdges k es)

end

def eraseKey (k : List UInt8) (t : Trie Unit) : Trie Unit :=
  match eraseAt true k t with
  | .kept t' => t'
  | _ => t

def emptyTree : Trie Unit := .node () 0 [] []

end StudyNotes.Radix.KeyTree
