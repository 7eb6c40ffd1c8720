import StudyNotes.Radix.KeyTreeCount
import StudyNotes.Radix.Node

namespace StudyNotes.Radix.Context

open Heap.Program Node KeyTree KeyTreeCases KeyTreeShape

variable {α : Type}

/-- A node with a hole in place of the child behind one of its edges. -/
structure Frame (α : Type) where
  tag : α
  refcount : UInt32
  bytes : List UInt8
  left : Edges α
  label : UInt8
  right : Edges α

def Frame.fill (f : Frame α) (t : Trie α) : Trie α :=
  .node f.tag f.refcount f.bytes (f.left ++ (f.label, t) :: f.right)

/-- The frames above a position, the nearest first. -/
def plug : List (Frame α) → Trie α → Trie α
  | [], t => t
  | f :: C, t => plug C (f.fill t)

theorem plug_append (C D : List (Frame α)) (t : Trie α) : plug (C ++ D) t = plug D (plug C t) := by
  induction C generalizing t with
  | nil => rfl
  | cons f C ih => exact ih (f.fill t)

def path : List (Frame α) → List UInt8
  | [] => []
  | f :: C => path C ++ f.bytes

/-- The walk that looks for k at the position takes the edges of the frames. -/
def Follows : List (Frame α) → List UInt8 → Prop
  | [], _ => True
  | f :: C, k => k.head? = some f.label ∧ f.label ∉ labels f.left ∧ Follows C (f.bytes ++ k)

theorem insertKey_fill (f : Frame Unit) (t : Trie Unit) (k : List UInt8) (hk : k.head? = some f.label)
    (hl : f.label ∉ labels f.left) : insertKey (f.bytes ++ k) (f.fill t) = f.fill (insertKey k t) := by
  obtain ⟨k', rfl⟩ := List.head?_eq_some_iff.mp hk
  rw [Frame.fill, insertKey_below, insertEdges_found _ _ _ _ _ hl]
  rfl

theorem insertKey_plug (C : List (Frame Unit)) (t : Trie Unit) (k : List UInt8) (h : Follows C k) :
    insertKey (path C ++ k) (plug C t) = plug C (insertKey k t) := by
  induction C generalizing t k with
  | nil => rfl
  | cons f C ih =>
      obtain ⟨hk, hl, hC⟩ := h
      rw [path, plug, List.append_assoc, ih _ _ hC, insertKey_fill f t k hk hl, plug]

theorem eraseAt_fill (root : Bool) (f : Frame Unit) (t : Trie Unit) (k : List UInt8)
    (hk : k.head? = some f.label) (hl : f.label ∉ labels f.left) :
    eraseAt root (f.bytes ++ k) (f.fill t) =
      afterEdges root f.refcount f.bytes (f.left ++ (f.label, t) :: f.right)
        (afterChild f.left f.label f.right (eraseAt false k t)) := by
  obtain ⟨k', rfl⟩ := List.head?_eq_some_iff.mp hk
  rw [Frame.fill, eraseAt_below, eraseEdges_found _ _ _ _ _ hl]

theorem eraseAt_plug (C : List (Frame Unit)) (t t' : Trie Unit) (k : List UInt8) (h : Follows C k)
    (he : eraseAt C.isEmpty k t = .kept t') : eraseAt true (path C ++ k) (plug C t) = .kept (plug C t') := by
  induction C generalizing t t' k with
  | nil => exact he
  | cons f C ih =>
      obtain ⟨hk, hl, hC⟩ := h
      rw [path, plug, plug, List.append_assoc]
      apply ih _ _ _ hC
      rw [eraseAt_fill _ f t k hk hl, show eraseAt false k t = .kept t' from he]
      rfl

theorem eraseAt_plug_dropped (f : Frame Unit) (C : List (Frame Unit)) (t : Trie Unit) (k : List UInt8)
    (h : Follows (f :: C) k) {i : Nat} (he : eraseAt false k t = .dropped i) :
    eraseAt true (path (f :: C) ++ k) (plug (f :: C) t) =
      .kept (plug C (dropEdge C.isEmpty f.refcount f.bytes (f.left ++ (f.label, t) :: f.right) f.left.length)) := by
  obtain ⟨hk, hl, hC⟩ := h
  rw [path, plug, List.append_assoc]
  apply eraseAt_plug C _ _ _ hC
  rw [eraseAt_fill _ f t k hk hl, he]
  rfl

theorem countOf_plug (C : List (Frame α)) (t : Trie α) (k : List UInt8) (h : Follows C k) :
    countOf (path C ++ k) (plug C t) = countOf k t := by
  induction C generalizing t k with
  | nil => rfl
  | cons f C ih =>
      obtain ⟨hk, hl, hC⟩ := h
      rw [path, plug, List.append_assoc, ih _ _ hC]
      obtain ⟨k', rfl⟩ := List.head?_eq_some_iff.mp hk
      rw [Frame.fill, countOf_below, countOfEdges_found _ _ _ _ _ hl]

theorem AllNodes.focus {P : Trie α → Prop} {C : List (Frame α)} {t : Trie α}
    (h : AllNodes P (plug C t)) : AllNodes P t := by
  induction C generalizing t with
  | nil => exact h
  | cons f C ih => exact (ih h).child (f.label, t) (by simp [Frame.fill])

theorem Within.focus {L : List UInt8 → Prop} {C : List (Frame α)} {t : Trie α} {s : List UInt8}
    (h : Within L s (plug C t)) : Within L (s ++ path C) t := by
  induction C generalizing t with
  | nil => rw [path, List.append_nil]; exact h
  | cons f C ih =>
      have hc := (ih h).child (f.label, t) (by simp [Frame.fill])
      simpa [Frame.fill, path] using hc

def forgetFrame (f : Frame α) : Frame Unit :=
  ⟨(), f.refcount, f.bytes, forgetEdges f.left, f.label, forgetEdges f.right⟩

theorem forgetEdges_append (es es' : Edges α) :
    forgetEdges (es ++ es') = forgetEdges es ++ forgetEdges es' := by
  induction es with
  | nil => rfl
  | cons e es ih =>
      obtain ⟨b, t⟩ := e
      simp [forgetEdges, ih]

theorem forgetEdges_length (es : Edges α) : (forgetEdges es).length = es.length := by
  induction es with
  | nil => rfl
  | cons e es ih =>
      obtain ⟨b, t⟩ := e
      simp [forgetEdges, ih]

theorem labels_forgetEdges (es : Edges α) : labels (forgetEdges es) = labels es := by
  induction es with
  | nil => rfl
  | cons e es ih =>
      obtain ⟨b, t⟩ := e
      simp only [forgetEdges, labels_cons, ih]

theorem forget_fill (f : Frame α) (t : Trie α) : forget (f.fill t) = (forgetFrame f).fill (forget t) := by
  simp [Frame.fill, forget, forgetFrame, forgetEdges_append, forgetEdges]

theorem forget_plug (C : List (Frame α)) (t : Trie α) :
    forget (plug C t) = plug (C.map forgetFrame) (forget t) := by
  induction C generalizing t with
  | nil => rfl
  | cons f C ih => rw [plug, ih, forget_fill, List.map_cons, plug]

theorem path_forget (C : List (Frame α)) : path (C.map forgetFrame) = path C := by
  induction C with
  | nil => rfl
  | cons f C ih => simp [path, ih, forgetFrame]

theorem follows_forget {C : List (Frame α)} {k : List UInt8} (h : Follows C k) :
    Follows (C.map forgetFrame) k := by
  induction C generalizing k with
  | nil => trivial
  | cons f C ih =>
      obtain ⟨hk, hl, hC⟩ := h
      exact ⟨hk, by simpa [forgetFrame, labels_forgetEdges] using hl, ih hC⟩

/-- The edge chunks of a block: first bytes and addresses of the children. -/
def slots (es : Edges Addr) : List (UInt8 × Addr) := es.map (fun e => (e.1, e.2.tag))

def blockOf : Trie Addr → Block
  | .node _ rc p es => ⟨rc, p, slots es⟩

mutual

/-- The blocks of a placed tree. -/
def cells : Trie Addr → Multiset (Addr × Block)
  | .node a rc p es => (a, ⟨rc, p, slots es⟩) ::ₘ edgesCells es

def edgesCells : Edges Addr → Multiset (Addr × Block)
  | [] => 0
  | (_, t) :: es => cells t + edgesCells es

end

/-- The blocks around a position whose subtree is placed at the given address. -/
def ctxCells : List (Frame Addr) → Addr → Multiset (Addr × Block)
  | [], _ => 0
  | f :: C, a =>
      (f.tag, ⟨f.refcount, f.bytes, slots f.left ++ (f.label, a) :: slots f.right⟩) ::ₘ
        (edgesCells f.left + edgesCells f.right + ctxCells C f.tag)

theorem edgesCells_append (es es' : Edges Addr) :
    edgesCells (es ++ es') = edgesCells es + edgesCells es' := by
  induction es with
  | nil => simp [edgesCells]
  | cons e es ih =>
      obtain ⟨b, t⟩ := e
      simp [edgesCells, ih, add_assoc]

theorem cells_plug (C : List (Frame Addr)) (t : Trie Addr) :
    cells (plug C t) = cells t + ctxCells C t.tag := by
  induction C generalizing t with
  | nil => simp [plug, ctxCells]
  | cons f C ih =>
      rw [plug, ih, Frame.fill, cells, ctxCells, edgesCells_append, edgesCells]
      simp only [slots, List.map_append, List.map_cons, Trie.tag_node, Multiset.cons_add, Multiset.add_cons]
      congr 1
      ac_rfl

theorem plug_tag (C : List (Frame α)) (t t' : Trie α) (h : t.tag = t'.tag) :
    (plug C t).tag = (plug C t').tag := by
  induction C generalizing t t' with
  | nil => exact h
  | cons f C ih => exact ih _ _ rfl

theorem plug_cons_tag (f : Frame α) (C : List (Frame α)) (t t' : Trie α) :
    (plug (f :: C) t).tag = (plug (f :: C) t').tag :=
  plug_tag C (f.fill t) (f.fill t') rfl

end StudyNotes.Radix.Context
