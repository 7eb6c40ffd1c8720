import StudyNotes.Radix.KeyTree
import Mathlib.Data.List.Nodup

namespace StudyNotes.Radix.KeyTreeCases

open Words.CommonPrefix KeyTree

variable {α : Type}

mutual

theorem tree_induct {motive : Trie α → Prop}
    (h : ∀ a rc p es, (∀ e ∈ es, motive e.2) → motive (.node a rc p es)) :
    ∀ t, motive t
  | .node a rc p es => h a rc p es (edges_induct h es)

theorem edges_induct {motive : Trie α → Prop}
    (h : ∀ a rc p es, (∀ e ∈ es, motive e.2) → motive (.node a rc p es)) :
    ∀ (es : Edges α), ∀ e ∈ es, motive e.2
  | [], e, he => absurd he (by simp)
  | (b, t) :: es, e, he => by
      rcases List.mem_cons.mp he with rfl | he
      · exact tree_induct h t
      · exact edges_induct h es e he

end

section Equations

variable (a : Unit) (rc : UInt32) (c p k : List UInt8) (x y : UInt8) (es : Edges Unit)

theorem insertKey_same : insertKey p (.node a rc p es) = .node () (rc + 1) p es := by
  rw [insertKey, splitCommon_self]

theorem insertKey_below :
    insertKey (p ++ y :: k) (.node a rc p es) = .node () rc p (insertEdges (y :: k) es) := by
  rw [insertKey, splitCommon_left]

theorem insertKey_inside : insertKey c (.node a rc (c ++ x :: p) es) =
    .node () 1 c [(x, .node () rc (x :: p) es)] := by
  rw [insertKey, splitCommon_right]

theorem insertKey_fork (hxy : x ≠ y) : insertKey (c ++ y :: k) (.node a rc (c ++ x :: p) es) =
    .node () 0 c [(y, leaf (y :: k)), (x, .node () rc (x :: p) es)] := by
  rw [insertKey, splitCommon_fork c p k x y hxy]

theorem eraseAt_same (root : Bool) : eraseAt root p (.node a rc p es) = eraseHere rc p es := by
  rw [eraseAt, splitCommon_self]

theorem eraseAt_below (root : Bool) : eraseAt root (p ++ y :: k) (.node a rc p es) =
    afterEdges root rc p es (eraseEdges (y :: k) es) := by
  rw [eraseAt, splitCommon_left]

theorem eraseAt_inside (root : Bool) : eraseAt root c (.node a rc (c ++ x :: p) es) = .missing := by
  rw [eraseAt, splitCommon_right]

theorem eraseAt_fork (root : Bool) (hxy : x ≠ y) :
    eraseAt root (c ++ y :: k) (.node a rc (c ++ x :: p) es) = .missing := by
  rw [eraseAt, splitCommon_fork c p k x y hxy]

end Equations

section Counts

variable (a : α) (rc : UInt32) (c p k : List UInt8) (x y : UInt8) (es : Edges α)

theorem countOf_same : countOf p (.node a rc p es) = rc := by
  rw [countOf, splitCommon_self]

theorem countOf_below : countOf (p ++ y :: k) (.node a rc p es) = countOfEdges (y :: k) es := by
  rw [countOf, splitCommon_left]

theorem countOf_inside : countOf c (.node a rc (c ++ x :: p) es) = 0 := by
  rw [countOf, splitCommon_right]

theorem countOf_fork (hxy : x ≠ y) : countOf (c ++ y :: k) (.node a rc (c ++ x :: p) es) = 0 := by
  rw [countOf, splitCommon_fork c p k x y hxy]

end Counts

theorem labels_append (es es' : Edges α) : labels (es ++ es') = labels es ++ labels es' := by
  simp [labels]

theorem labels_cons (b : UInt8) (t : Trie α) (es : Edges α) :
    labels ((b, t) :: es) = b :: labels es := rfl

/-- The first edge with a given label, if there is one. -/
theorem find_label (b : UInt8) (es : Edges α) :
    b ∉ labels es ∨ ∃ l t r, es = l ++ (b, t) :: r ∧ b ∉ labels l := by
  induction es with
  | nil => exact Or.inl (by simp [labels])
  | cons e es ih =>
      obtain ⟨d, t⟩ := e
      by_cases hd : b = d
      · subst d
        exact Or.inr ⟨[], t, es, rfl, by simp [labels]⟩
      · rcases ih with hn | ⟨l, t', r, rfl, hl⟩
        · exact Or.inl (by simp only [labels_cons, List.mem_cons, not_or]; exact ⟨hd, hn⟩)
        · refine Or.inr ⟨(d, t) :: l, t', r, rfl, ?_⟩
          simp only [labels_cons, List.mem_cons, not_or]
          exact ⟨hd, hl⟩

theorem insertEdges_absent (y : UInt8) (k : List UInt8) (es : Edges Unit) (h : y ∉ labels es) :
    insertEdges (y :: k) es = es ++ [(y, leaf (y :: k))] := by
  induction es with
  | nil => rfl
  | cons e es ih =>
      obtain ⟨b, t⟩ := e
      simp only [labels_cons, List.mem_cons, not_or] at h
      simp [insertEdges, h.1, ih h.2]

theorem insertEdges_found (y : UInt8) (k : List UInt8) (l : Edges Unit) (t : Trie Unit)
    (r : Edges Unit) (h : y ∉ labels l) :
    insertEdges (y :: k) (l ++ (y, t) :: r) = l ++ (y, insertKey (y :: k) t) :: r := by
  induction l with
  | nil => simp [insertEdges]
  | cons e l ih =>
      obtain ⟨b, t'⟩ := e
      simp only [labels_cons, List.mem_cons, not_or] at h
      simp [insertEdges, h.1, ih h.2]

theorem eraseEdges_absent (y : UInt8) (k : List UInt8) (es : Edges Unit) (h : y ∉ labels es) :
    eraseEdges (y :: k) es = .missing := by
  induction es with
  | nil => rfl
  | cons e es ih =>
      obtain ⟨b, t⟩ := e
      simp only [labels_cons, List.mem_cons, not_or] at h
      simp [eraseEdges, skipEdge, h.1, ih h.2]

theorem eraseEdges_found (y : UInt8) (k : List UInt8) (l : Edges Unit) (t : Trie Unit)
    (r : Edges Unit) (h : y ∉ labels l) :
    eraseEdges (y :: k) (l ++ (y, t) :: r) = afterChild l y r (eraseAt false (y :: k) t) := by
  induction l with
  | nil => simp [eraseEdges]
  | cons e l ih =>
      obtain ⟨b, t'⟩ := e
      simp only [labels_cons, List.mem_cons, not_or] at h
      simp only [List.cons_append, eraseEdges, List.head?_cons, Option.some.injEq, h.1, if_false, ih h.2]
      cases eraseAt false (y :: k) t <;> rfl

theorem countOfEdges_absent (y : UInt8) (k : List UInt8) (es : Edges α) (h : y ∉ labels es) :
    countOfEdges (y :: k) es = 0 := by
  induction es with
  | nil => rfl
  | cons e es ih =>
      obtain ⟨b, t⟩ := e
      simp only [labels_cons, List.mem_cons, not_or] at h
      simp [countOfEdges, h.1, ih h.2]

theorem countOfEdges_found (y : UInt8) (k : List UInt8) (l : Edges α) (t : Trie α)
    (r : Edges α) (h : y ∉ labels l) :
    countOfEdges (y :: k) (l ++ (y, t) :: r) = countOf (y :: k) t := by
  induction l with
  | nil => simp [countOfEdges]
  | cons e l ih =>
      obtain ⟨b, t'⟩ := e
      simp only [labels_cons, List.mem_cons, not_or] at h
      simp [countOfEdges, h.1, ih h.2]

theorem swapRemove_append {γ : Type} (l : List γ) (x y : γ) (r : List γ) :
    swapRemove l.length (l ++ x :: (r ++ [y])) = l ++ y :: r := by
  have hlast : (l ++ x :: (r ++ [y])).getLast? = some y := by
    rw [show l ++ x :: (r ++ [y]) = (l ++ x :: r) ++ [y] by simp]
    exact List.getLast?_concat
  rw [swapRemove, hlast]
  dsimp only
  rw [List.set_append_right _ _ (Nat.le_refl _), Nat.sub_self, List.set_cons_zero,
    show l ++ y :: (r ++ [y]) = (l ++ y :: r) ++ [y] by simp, List.dropLast_concat]

theorem swapRemove_last {γ : Type} (l : List γ) (x : γ) :
    swapRemove l.length (l ++ [x]) = l := by
  rw [swapRemove, List.getLast?_concat]
  dsimp only
  rw [List.set_append_right _ _ (Nat.le_refl _), Nat.sub_self, List.set_cons_zero, List.dropLast_concat]

/-- The removed entry is the last one, or the last one takes its place. -/
theorem swapRemove_cases {γ : Type} (l : List γ) (x : γ) (r : List γ) :
    (r = [] ∧ swapRemove l.length (l ++ x :: r) = l) ∨
      ∃ y r', r = r' ++ [y] ∧ swapRemove l.length (l ++ x :: r) = l ++ y :: r' := by
  rcases List.eq_nil_or_concat r with rfl | ⟨r', y, rfl⟩
  · exact Or.inl ⟨rfl, swapRemove_last l x⟩
  · exact Or.inr ⟨y, r', by simp, by simpa using swapRemove_append l x y r'⟩

theorem swapRemove_perm {γ : Type} (l : List γ) (x : γ) (r : List γ) :
    (swapRemove l.length (l ++ x :: r)).Perm (l ++ r) := by
  rcases swapRemove_cases l x r with ⟨rfl, h⟩ | ⟨y, r', rfl, h⟩
  · rw [h, List.append_nil]
  · rw [h]
    exact (List.perm_append_left_iff l).mpr (List.perm_append_singleton y r').symm

theorem sub_one_eq_zero {rc : UInt32} (h : rc - 1 = 0) : rc = 1 := by
  rw [← UInt32.sub_add_cancel rc 1, h]
  rfl

/-- Everything that removing one copy at the node that holds the key can do. -/
theorem eraseHere_cases (rc : UInt32) (p : List UInt8) (es : Edges Unit) :
    (rc = 0 ∧ eraseHere rc p es = .missing) ∨
    (rc ≠ 0 ∧ rc - 1 ≠ 0 ∧ eraseHere rc p es = .kept (.node () (rc - 1) p es)) ∨
    (rc = 1 ∧ es = [] ∧ eraseHere rc p es = .dropped 0) ∨
    (rc = 1 ∧ ∃ b child, es = [(b, child)] ∧ eraseHere rc p es = .kept (mergeInto p child)) ∨
    (rc = 1 ∧ 2 ≤ es.length ∧ eraseHere rc p es = .kept (.node () 0 p es)) := by
  by_cases hrc : rc = 0
  · exact Or.inl ⟨hrc, by simp [eraseHere, hrc]⟩
  by_cases hone : rc - 1 = 0
  · obtain rfl := sub_one_eq_zero hone
    match es with
    | [] => exact Or.inr (Or.inr (Or.inl ⟨rfl, rfl, rfl⟩))
    | [(b, child)] => exact Or.inr (Or.inr (Or.inr (Or.inl ⟨rfl, b, child, rfl, rfl⟩)))
    | e :: e' :: es' => exact Or.inr (Or.inr (Or.inr (Or.inr ⟨rfl, by simp, rfl⟩)))
  · exact Or.inr (Or.inl ⟨hrc, hone, by simp [eraseHere, hrc, hone]⟩)

/-- Dropping an edge merges the node with its only other child, or removes the
edge from the list. -/
theorem dropEdge_cases (root : Bool) (rc : UInt32) (p : List UInt8) (l : Edges Unit)
    (e : UInt8 × Trie Unit) (r : Edges Unit) :
    (rc = 0 ∧ root = false ∧ ∃ e', l ++ r = [e'] ∧
      dropEdge root rc p (l ++ e :: r) l.length = mergeInto p e'.2) ∨
    (¬(rc = 0 ∧ root = false ∧ (l ++ r).length = 1) ∧
      dropEdge root rc p (l ++ e :: r) l.length =
        .node () rc p (swapRemove l.length (l ++ e :: r))) := by
  match l, r with
  | [], [e'] =>
      by_cases hm : rc = 0 ∧ root = false
      · exact Or.inl ⟨hm.1, hm.2, e', rfl, by simp [dropEdge, hm]⟩
      · exact Or.inr ⟨fun h => hm ⟨h.1, h.2.1⟩, by simp [dropEdge, hm]⟩
  | [e'], [] =>
      by_cases hm : rc = 0 ∧ root = false
      · exact Or.inl ⟨hm.1, hm.2, e', rfl, by simp [dropEdge, hm]⟩
      · exact Or.inr ⟨fun h => hm ⟨h.1, h.2.1⟩, by simp [dropEdge, hm]⟩
  | [], [] => exact Or.inr ⟨by simp, rfl⟩
  | [], _ :: _ :: _ => exact Or.inr ⟨by simp, rfl⟩
  | [_], _ :: _ => exact Or.inr ⟨by simp, rfl⟩
  | [_, _], _ => exact Or.inr ⟨by simp, rfl⟩
  | _ :: _ :: _ :: _, _ => exact Or.inr ⟨by simp, rfl⟩

/-- The five ways in which a key enters a tree. -/
inductive Inserts : List UInt8 → Trie Unit → Trie Unit → Prop
  | copy (rc : UInt32) (p : List UInt8) (es : Edges Unit) :
      Inserts p (.node () rc p es) (.node () (rc + 1) p es)
  | edge (rc : UInt32) (p : List UInt8) (y : UInt8) (k : List UInt8) (es : Edges Unit)
      (hy : y ∉ labels es) :
      Inserts (p ++ y :: k) (.node () rc p es) (.node () rc p (es ++ [(y, leaf (y :: k))]))
  | descend (rc : UInt32) (p : List UInt8) (y : UInt8) (k : List UInt8) (l : Edges Unit)
      (t t' : Trie Unit) (r : Edges Unit) (hy : y ∉ labels l) (h : Inserts (y :: k) t t') :
      Inserts (p ++ y :: k) (.node () rc p (l ++ (y, t) :: r)) (.node () rc p (l ++ (y, t') :: r))
  | inside (rc : UInt32) (c : List UInt8) (x : UInt8) (p : List UInt8) (es : Edges Unit) :
      Inserts c (.node () rc (c ++ x :: p) es) (.node () 1 c [(x, .node () rc (x :: p) es)])
  | fork (rc : UInt32) (c : List UInt8) (x : UInt8) (p : List UInt8) (y : UInt8) (k : List UInt8)
      (es : Edges Unit) (hxy : x ≠ y) :
      Inserts (c ++ y :: k) (.node () rc (c ++ x :: p) es)
        (.node () 0 c [(y, leaf (y :: k)), (x, .node () rc (x :: p) es)])

/-- The six ways in which a copy of a key leaves a tree. -/
inductive Removes : Bool → List UInt8 → Trie Unit → Trie Unit → Prop
  | copy (root : Bool) (rc : UInt32) (p : List UInt8) (es : Edges Unit) (hrc : rc ≠ 0)
      (hmany : rc - 1 ≠ 0) : Removes root p (.node () rc p es) (.node () (rc - 1) p es)
  | branch (root : Bool) (p : List UInt8) (es : Edges Unit) (hes : 2 ≤ es.length) :
      Removes root p (.node () 1 p es) (.node () 0 p es)
  | merge (root : Bool) (p : List UInt8) (b : UInt8) (child : Trie Unit) :
      Removes root p (.node () 1 p [(b, child)]) (mergeInto p child)
  | descend (root : Bool) (rc : UInt32) (p : List UInt8) (y : UInt8) (k : List UInt8)
      (l : Edges Unit) (t t' : Trie Unit) (r : Edges Unit) (hy : y ∉ labels l)
      (h : Removes false (y :: k) t t') :
      Removes root (p ++ y :: k) (.node () rc p (l ++ (y, t) :: r)) (.node () rc p (l ++ (y, t') :: r))
  | sibling (p : List UInt8) (y : UInt8) (k : List UInt8) (l r : Edges Unit)
      (e : UInt8 × Trie Unit) (hy : y ∉ labels l) (he : l ++ r = [e]) :
      Removes false (p ++ y :: k) (.node () 0 p (l ++ (y, leaf (y :: k)) :: r)) (mergeInto p e.2)
  | edge (root : Bool) (rc : UInt32) (p : List UInt8) (y : UInt8) (k : List UInt8) (l r : Edges Unit)
      (hy : y ∉ labels l) (hn : ¬(rc = 0 ∧ root = false ∧ (l ++ r).length = 1)) :
      Removes root (p ++ y :: k) (.node () rc p (l ++ (y, leaf (y :: k)) :: r))
        (.node () rc p (swapRemove l.length (l ++ (y, leaf (y :: k)) :: r)))

theorem insertKey_inserts (t : Trie Unit) (k : List UInt8) : Inserts k t (insertKey k t) := by
  induction t using tree_induct generalizing k with
  | h a rc p es ih =>
      rcases common_cases p k with rfl | ⟨y, k', rfl⟩ | ⟨x, p', rfl⟩ | ⟨c, x, p', y, k', rfl, rfl, hxy⟩
      · rw [insertKey_same]
        exact .copy rc p es
      · rw [insertKey_below]
        rcases find_label y es with hn | ⟨l, t, r, rfl, hl⟩
        · rw [insertEdges_absent y k' es hn]
          exact .edge rc p y k' es hn
        · rw [insertEdges_found y k' l t r hl]
          exact .descend rc p y k' l t _ r hl (ih (y, t) (by simp) (y :: k'))
      · rw [insertKey_inside]
        exact .inside rc k x p' es
      · rw [insertKey_fork _ _ _ _ _ _ _ _ hxy]
        exact .fork rc c x p' y k' es hxy

/-- A subtree is dropped as a whole only when it is a leaf with one copy. -/
theorem eraseAt_dropped (t : Trie Unit) (root : Bool) (k : List UInt8) (i : Nat)
    (h : eraseAt root k t = .dropped i) : t = leaf k := by
  obtain ⟨a, rc, p, es⟩ := t
  rcases common_cases p k with rfl | ⟨y, k', rfl⟩ | ⟨x, p', rfl⟩ | ⟨c, x, p', y, k', rfl, rfl, hxy⟩
  · rw [eraseAt_same] at h
    rcases eraseHere_cases rc p es with ⟨-, he⟩ | ⟨-, -, he⟩ | ⟨rfl, rfl, he⟩ | ⟨-, b, child, -, he⟩ |
      ⟨-, -, he⟩ <;> rw [he] at h <;> cases h
    rfl
  · rw [eraseAt_below] at h
    cases he : eraseEdges (y :: k') es <;> rw [he] at h <;> cases h
  · rw [eraseAt_inside] at h
    cases h
  · rw [eraseAt_fork _ _ _ _ _ _ _ _ _ hxy] at h
    cases h

theorem eraseAt_removes (t : Trie Unit) (root : Bool) (k : List UInt8) (t' : Trie Unit)
    (h : eraseAt root k t = .kept t') : Removes root k t t' := by
  induction t using tree_induct generalizing root k t' with
  | h a rc p es ih =>
      rcases common_cases p k with rfl | ⟨y, k', rfl⟩ | ⟨x, p', rfl⟩ | ⟨c, x, p', y, k', rfl, rfl, hxy⟩
      · rw [eraseAt_same] at h
        rcases eraseHere_cases rc p es with ⟨-, he⟩ | ⟨hrc, hmany, he⟩ | ⟨-, -, he⟩ |
          ⟨rfl, b, child, rfl, he⟩ | ⟨rfl, hes, he⟩ <;> rw [he] at h <;> cases h
        · exact .copy root rc p es hrc hmany
        · exact .merge root p b child
        · exact .branch root p es hes
      · rw [eraseAt_below] at h
        rcases find_label y es with hn | ⟨l, t, r, rfl, hl⟩
        · rw [eraseEdges_absent y k' es hn] at h
          cases h
        · rw [eraseEdges_found y k' l t r hl] at h
          cases he : eraseAt false (y :: k') t with
          | missing => rw [he] at h; cases h
          | kept t₁ =>
              rw [he] at h
              cases h
              exact .descend root rc p y k' l t t₁ r hl (ih (y, t) (by simp) false (y :: k') t₁ he)
          | dropped i =>
              rw [he] at h
              obtain rfl := eraseAt_dropped t false (y :: k') i he
              cases h
              rcases dropEdge_cases root rc p l (y, leaf (y :: k')) r with ⟨rfl, rfl, e, hle, hd⟩ | ⟨hn, hd⟩
              · rw [hd]
                exact .sibling p y k' l r e hl hle
              · rw [hd]
                exact .edge root rc p y k' l r hl hn
      · rw [eraseAt_inside] at h
        cases h
      · rw [eraseAt_fork _ _ _ _ _ _ _ _ _ hxy] at h
        cases h

end StudyNotes.Radix.KeyTreeCases
