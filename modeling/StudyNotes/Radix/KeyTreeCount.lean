import StudyNotes.Radix.KeyTreeShape

namespace StudyNotes.Radix.KeyTreeCount

open Words.CommonPrefix KeyTree KeyTreeCases KeyTreeMultiset KeyTreeShape

variable {α : Type}

theorem head_of_mem_keys {t : Trie α} {y : UInt8} {k : List UInt8} (ht : t.bytes.head? = some y)
    (hk : k ∈ keys t) : k.head? = some y := by
  obtain ⟨k', rfl⟩ := bytes_prefix_of_mem hk
  obtain ⟨q, hq⟩ := List.head?_eq_some_iff.mp ht
  simp [hq]

theorem notMem_edgesKeys {es : Edges α} (hes : ∀ e ∈ es, e.2.bytes.head? = some e.1)
    {k : List UInt8} (hk : ∀ y ∈ labels es, k.head? ≠ some y) : k ∉ edgesKeys es := by
  intro hmem
  obtain ⟨e, he, hke⟩ := mem_edgesKeys.mp hmem
  exact hk e.1 (List.mem_map_of_mem he) (head_of_mem_keys (hes e he) hke)

theorem nil_notMem_edgesKeys {es : Edges α} (hes : ∀ e ∈ es, e.2.bytes.head? = some e.1) :
    [] ∉ edgesKeys es :=
  notMem_edgesKeys hes (by simp)

/-- Only the child with the right label can hold the rest of a key. -/
theorem count_edgesKeys_found {a : α} {rc : UInt32} {p : List UInt8} {l r : Edges α} {y : UInt8}
    {t : Trie α} (h : Labelled (.node a rc p (l ++ (y, t) :: r))) (k : List UInt8) :
    (edgesKeys (l ++ (y, t) :: r)).count (y :: k) = (keys t).count (y :: k) := by
  have hd : (labels (l ++ (y, t) :: r)).Nodup := h.distinct
  rw [labels_append, labels_cons, List.nodup_append, List.nodup_cons] at hd
  have hl : y :: k ∉ edgesKeys l := by
    apply notMem_edgesKeys (fun e he => h.first e (by simp [he]))
    rintro z hz heq
    obtain rfl : y = z := by simpa using heq
    exact hd.2.2 y hz y (by simp) rfl
  have hr : y :: k ∉ edgesKeys r := by
    apply notMem_edgesKeys (fun e he => h.first e (by simp [he]))
    rintro z hz heq
    obtain rfl : y = z := by simpa using heq
    exact hd.2.1.1 hz
  rw [edgesKeys_append, edgesKeys_cons, Multiset.count_add, Multiset.count_add,
    Multiset.count_eq_zero.mpr hl, Multiset.count_eq_zero.mpr hr]
  omega

theorem count_keys_node (a : α) (rc : UInt32) (p k : List UInt8) (es : Edges α) :
    (keys (.node a rc p es)).count (p ++ k) =
      (if k = [] then rc.toNat else 0) + (edgesKeys es).count k := by
  rw [keys, Multiset.count_map_eq_count' (p ++ ·) _ (List.append_right_injective p), Multiset.count_add,
    Multiset.count_replicate]
  simp [eq_comm]

/-- The walk along the labels finds the number of copies of a key. -/
theorem count_keys (t : Trie α) (k : List UInt8) (h : Shaped t) :
    (keys t).count k = (countOf k t).toNat := by
  induction t using tree_induct generalizing k with
  | h a rc p es ih =>
      have hpre {k : List UInt8} (hk : ¬p <+: k) : (keys (.node a rc p es)).count k = 0 :=
        Multiset.count_eq_zero.mpr (fun hmem => hk (bytes_prefix_of_mem hmem))
      rcases common_cases p k with rfl | ⟨y, k', rfl⟩ | ⟨x, p', rfl⟩ | ⟨c, x, p', y, k', rfl, rfl, hxy⟩
      · have hcount := count_keys_node a rc p [] es
        have hnil : [] ∉ edgesKeys es := nil_notMem_edgesKeys h.here.first
        rw [List.append_nil, if_pos rfl, Multiset.count_eq_zero.mpr hnil] at hcount
        rw [countOf_same, hcount, Nat.add_zero]
      · rw [count_keys_node, countOf_below, if_neg (by simp), Nat.zero_add]
        rcases find_label y es with hn | ⟨l, t, r, rfl, hl⟩
        · rw [countOfEdges_absent y k' es hn, Multiset.count_eq_zero.mpr]
          · rfl
          · apply notMem_edgesKeys h.here.first
            rintro z hz heq
            obtain rfl : y = z := by simpa using heq
            exact hn hz
        · rw [countOfEdges_found y k' l t r hl, count_edgesKeys_found h.here,
            ih (y, t) (by simp) (y :: k') (h.child (y, t) (by simp))]
      · rw [countOf_inside, hpre]
        · rfl
        · rintro ⟨q, hq⟩
          have hlen := congrArg List.length hq
          simp only [List.length_append, List.length_cons] at hlen
          omega
      · rw [countOf_fork _ _ _ _ _ _ _ _ hxy, hpre]
        · rfl
        · rintro ⟨q, hq⟩
          simp only [List.append_assoc, List.append_cancel_left_eq, List.cons_append, List.cons.injEq] at hq
          exact hxy hq.1

theorem mem_keys_iff {t : Trie α} (h : Shaped t) (k : List UInt8) : k ∈ keys t ↔ countOf k t ≠ 0 := by
  rw [← Multiset.one_le_count_iff_mem, count_keys t k h, ne_eq, ← UInt32.toNat_inj]
  simp [Nat.one_le_iff_ne_zero]

theorem countOf_forget (t : Trie α) (k : List UInt8) : countOf k (forget t) = countOf k t := by
  induction t using tree_induct generalizing k with
  | h a rc p es ih =>
      have hedges (y : UInt8) (k' : List UInt8) :
          countOfEdges (y :: k') (forgetEdges es) = countOfEdges (y :: k') es := by
        induction es with
        | nil => rfl
        | cons e es ihes =>
            obtain ⟨b, t⟩ := e
            rw [forgetEdges, countOfEdges, countOfEdges, ih (b, t) (by simp),
              ihes (fun e he => ih e (by simp [he]))]
      rw [forget]
      rcases common_cases p k with rfl | ⟨y, k', rfl⟩ | ⟨x, p', rfl⟩ | ⟨c, x, p', y, k', rfl, rfl, hxy⟩
      · rw [countOf_same, countOf_same]
      · rw [countOf_below, countOf_below, hedges]
      · rw [countOf_inside, countOf_inside]
      · rw [countOf_fork _ _ _ _ _ _ _ _ hxy, countOf_fork _ _ _ _ _ _ _ _ hxy]

/-- Removing fails exactly when the key has no copy. -/
theorem eraseAt_missing_iff (t : Trie Unit) (root : Bool) (k : List UInt8) :
    eraseAt root k t = .missing ↔ countOf k t = 0 := by
  induction t using tree_induct generalizing root k with
  | h a rc p es ih =>
      rcases common_cases p k with rfl | ⟨y, k', rfl⟩ | ⟨x, p', rfl⟩ | ⟨c, x, p', y, k', rfl, rfl, hxy⟩
      · rw [eraseAt_same, countOf_same]
        rcases eraseHere_cases rc p es with ⟨rfl, he⟩ | ⟨hrc, -, he⟩ | ⟨rfl, -, he⟩ | ⟨rfl, b, child, -, he⟩ |
          ⟨rfl, -, he⟩ <;> simp_all
      · rw [eraseAt_below, countOf_below]
        rcases find_label y es with hn | ⟨l, t, r, rfl, hl⟩
        · simp [eraseEdges_absent y k' es hn, countOfEdges_absent y k' es hn, afterEdges]
        · rw [eraseEdges_found y k' l t r hl, countOfEdges_found y k' l t r hl,
            ← ih (y, t) (by simp) false (y :: k')]
          cases eraseAt false (y :: k') t <;> simp [afterChild, afterEdges]
      · simp [eraseAt_inside, countOf_inside]
      · simp [eraseAt_fork _ _ _ _ _ _ _ _ _ hxy, countOf_fork _ _ _ _ _ _ _ _ hxy]

/-- At a root with an empty prefix a present non-empty key is always removed. -/
theorem eraseAt_root {t : Trie Unit} (ht : t.bytes = []) {k : List UInt8} (hk : k ≠ [])
    (h : countOf k t ≠ 0) : Removes true k t (eraseKey k t) := by
  unfold eraseKey
  cases he : eraseAt true k t with
  | missing => exact absurd ((eraseAt_missing_iff t true k).mp he) h
  | kept t' => exact eraseAt_removes t true k t' he
  | dropped i =>
      rw [eraseAt_dropped t true k i he] at ht
      exact absurd ht hk

theorem eraseKey_missing {t : Trie Unit} {k : List UInt8} (h : countOf k t = 0) : eraseKey k t = t := by
  rw [eraseKey, (eraseAt_missing_iff t true k).mpr h]

end StudyNotes.Radix.KeyTreeCount
